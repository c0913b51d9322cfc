import PolkadotSdk.Lib.LittleEndian

/-! # Appending to an encoded list

The `StorageAppend` helper edits a SCALE-encoded list in place: a `Compact<u32>`
element count followed by the elements. The `Compact` codec itself is a library
the repository only links against, so it is a parameter here; `scaleCompact` is
the published format, with proofs that it meets the parameter's laws.
-/

namespace PolkadotSdk.StateMachine

open LittleEndian

abbrev StorageKey := List UInt8
abbrev StorageValue := List UInt8

/-- The part of the `Compact<u32>` codec that appending relies on. -/
structure CompactCodec where
  encode : Nat → List UInt8
  decode : List UInt8 → Option (Nat × List UInt8)
  compactLen : Nat → Nat

/-- Round trip, and the decoder accepts nothing but the encoder's own output. -/
structure CompactCodec.Lawful (codec : CompactCodec) : Prop where
  compactLen_eq : ∀ n, n < 2 ^ 32 → codec.compactLen n = (codec.encode n).length
  decode_encode : ∀ n rest, n < 2 ^ 32 → codec.decode (codec.encode n ++ rest) = some (n, rest)
  minimal : ∀ bytes n rest, codec.decode bytes = some (n, rest) →
    n < 2 ^ 32 ∧ bytes = codec.encode n ++ rest

namespace StorageAppend

def extractLength (codec : CompactCodec) (data : StorageValue) : Option Nat :=
  (codec.decode data).map (·.1)

def lengthLen (codec : CompactCodec) (length : Option Nat) : Nat :=
  (length.map codec.compactLen).getD 0

def replaceLength (codec : CompactCodec) (data : StorageValue) (oldLength : Option Nat)
    (newLength : Nat) : StorageValue :=
  codec.encode newLength ++ data.drop (lengthLen codec oldLength)

def appendRaw (data value : StorageValue) : StorageValue := data ++ value

end StorageAppend

/-! ## The SCALE format -/

/-- Four modes, selected by the two low bits of the first byte. -/
def scaleEncode (n : Nat) : List UInt8 :=
  if n < 2 ^ 6 then leBytes 1 (n * 4)
  else if n < 2 ^ 14 then leBytes 2 (n * 4 + 1)
  else if n < 2 ^ 30 then leBytes 4 (n * 4 + 2)
  else 3 :: leBytes 4 n

/-- Each mode rejects values that a shorter mode holds. -/
def scaleDecode : List UInt8 → Option (Nat × List UInt8)
  | [] => none
  | first :: rest =>
    if first.toNat % 4 = 0 then some (first.toNat / 4, rest)
    else if first.toNat % 4 = 1 then
      match rest with
      | b :: rest =>
        let x := leNat [first, b] / 4
        if 2 ^ 6 ≤ x ∧ x < 2 ^ 14 then some (x, rest) else none
      | _ => none
    else if first.toNat % 4 = 2 then
      match rest with
      | b :: c :: d :: rest =>
        let x := leNat [first, b, c, d] / 4
        if 2 ^ 14 ≤ x ∧ x < 2 ^ 30 then some (x, rest) else none
      | _ => none
    else if first.toNat / 4 = 0 then
      match rest with
      | a :: b :: c :: d :: rest =>
        let x := leNat [a, b, c, d]
        if 2 ^ 30 ≤ x then some (x, rest) else none
      | _ => none
    else none

def scaleCompactLen (n : Nat) : Nat :=
  if n < 2 ^ 6 then 1 else if n < 2 ^ 14 then 2 else if n < 2 ^ 30 then 4 else 5

def scaleCompact : CompactCodec := ⟨scaleEncode, scaleDecode, scaleCompactLen⟩

theorem scaleEncode_length (n : Nat) : (scaleEncode n).length = scaleCompactLen n := by
  unfold scaleEncode scaleCompactLen
  split
  · simp
  split
  · simp
  split <;> simp

private theorem leBytes_four (n : Nat) :
    leBytes 4 n = [UInt8.ofNat (n % 256), UInt8.ofNat (n / 256 % 256),
      UInt8.ofNat (n / 256 / 256 % 256), UInt8.ofNat (n / 256 / 256 / 256 % 256)] := rfl

private theorem ofNat_mod_toNat (n : Nat) : (UInt8.ofNat (n % 256)).toNat = n % 256 := by simp

theorem scaleDecode_scaleEncode (n : Nat) (rest : List UInt8) (hn : n < 2 ^ 32) :
    scaleDecode (scaleEncode n ++ rest) = some (n, rest) := by
  unfold scaleEncode
  split
  · rename_i h
    have hmod : n * 4 % 256 = n * 4 := by omega
    simp only [leBytes, List.cons_append, List.nil_append, scaleDecode, ofNat_mod_toNat]
    rw [hmod, if_pos (by omega), Nat.mul_div_cancel n (by omega)]
  split
  · rename_i h
    have hword : leNat (leBytes 2 (n * 4 + 1)) = n * 4 + 1 := leNat_leBytes (by omega)
    simp only [leBytes] at hword
    simp only [leBytes, List.cons_append, List.nil_append, scaleDecode, ofNat_mod_toNat, hword]
    rw [if_neg (by omega), if_pos (by omega), if_pos (by omega)]
    simp only [Option.some.injEq, Prod.mk.injEq, and_true]
    omega
  split
  · rename_i h
    have hword : leNat (leBytes 4 (n * 4 + 2)) = n * 4 + 2 := leNat_leBytes (by omega)
    simp only [leBytes_four] at hword
    simp only [leBytes_four, List.cons_append, List.nil_append, scaleDecode, ofNat_mod_toNat,
      hword]
    rw [if_neg (by omega), if_neg (by omega), if_pos (by omega), if_pos (by omega)]
    simp only [Option.some.injEq, Prod.mk.injEq, and_true]
    omega
  · have hword : leNat (leBytes 4 n) = n := leNat_leBytes (by omega)
    simp only [leBytes_four] at hword
    simp only [leBytes_four, List.cons_append, List.nil_append, scaleDecode, hword]
    have hthree : (3 : UInt8).toNat = 3 := rfl
    rw [hthree, if_neg (by omega), if_neg (by omega), if_neg (by omega), if_pos (by omega),
      if_pos (by omega)]

theorem scaleDecode_minimal (bytes : List UInt8) (n : Nat) (rest : List UInt8)
    (h : scaleDecode bytes = some (n, rest)) :
    n < 2 ^ 32 ∧ bytes = scaleEncode n ++ rest := by
  cases bytes with
  | nil => simp [scaleDecode] at h
  | cons first tail =>
    have hfirst := first.toNat_lt
    simp only [scaleDecode] at h
    split at h
    · -- one byte
      rename_i hmode
      obtain ⟨rfl, rfl⟩ : first.toNat / 4 = n ∧ tail = rest := by simpa using h
      have hword := leBytes_leNat [first]
      have hval : leNat [first] = first.toNat / 4 * 4 := by simp only [leNat]; omega
      rw [hval] at hword
      refine ⟨by omega, ?_⟩
      rw [scaleEncode, if_pos (by omega)]
      exact congrArg (· ++ tail) hword.symm
    split at h
    · -- two bytes
      rename_i hmode
      split at h
      · rename_i b tail
        split at h
        · rename_i hrange
          obtain ⟨rfl, rfl⟩ : leNat [first, b] / 4 = n ∧ tail = rest := by simpa using h
          have hlow : leNat [first, b] % 4 = 1 := by simp only [leNat]; omega
          have hword := leBytes_leNat [first, b]
          refine ⟨by omega, ?_⟩
          rw [scaleEncode, if_neg (by omega), if_pos (by omega),
            show leNat [first, b] / 4 * 4 + 1 = leNat [first, b] by omega]
          exact congrArg (· ++ tail) hword.symm
        · cases h
      · cases h
    split at h
    · -- four bytes
      rename_i hmode
      split at h
      · rename_i b c d tail
        split at h
        · rename_i hrange
          obtain ⟨rfl, rfl⟩ : leNat [first, b, c, d] / 4 = n ∧ tail = rest := by simpa using h
          have hlow : leNat [first, b, c, d] % 4 = 2 := by simp only [leNat]; omega
          have hword := leBytes_leNat [first, b, c, d]
          refine ⟨by omega, ?_⟩
          rw [scaleEncode, if_neg (by omega), if_neg (by omega), if_pos (by omega),
            show leNat [first, b, c, d] / 4 * 4 + 2 = leNat [first, b, c, d] by omega]
          exact congrArg (· ++ tail) hword.symm
        · cases h
      · cases h
    split at h
    · -- the big-integer mode with four payload bytes
      rename_i hmode
      have hthree : first = 3 := by
        apply UInt8.toNat_inj.mp
        change first.toNat = 3
        omega
      split at h
      · rename_i a b c d tail
        split at h
        · rename_i hrange
          obtain ⟨rfl, rfl⟩ : leNat [a, b, c, d] = n ∧ tail = rest := by simpa using h
          have hlt := leNat_lt [a, b, c, d]
          have hword := leBytes_leNat [a, b, c, d]
          refine ⟨by simpa using hlt, ?_⟩
          rw [scaleEncode, if_neg (by omega), if_neg (by omega), if_neg (by omega), hthree]
          exact congrArg (fun word => 3 :: (word ++ tail)) hword.symm
        · cases h
      · cases h
    · cases h

theorem scaleCompact_lawful : scaleCompact.Lawful where
  compactLen_eq n _ := (scaleEncode_length n).symm
  decode_encode := scaleDecode_scaleEncode
  minimal := scaleDecode_minimal

end PolkadotSdk.StateMachine
