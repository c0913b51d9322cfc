import PolkadotSdk.Lib.LittleEndian
import PolkadotSdk.Lib.Word

/-! # Eras

The longevity of a transaction. A mortal era has a period, a power of two, and a phase in it,
both packed into two bytes: the exponent of the period in four bits, and the phase in the other
twelve, in units of a factor that grows with the period.
-/

namespace PolkadotSdk.Runtime

open PolkadotSdk.LittleEndian PolkadotSdk.Word

inductive Era where
  | immortal
  | mortal (period phase : Nat)
  deriving DecidableEq, Repr

namespace Era

/-- The smallest power of two that is not below `n`, if it is a `u64`. -/
def checkedNextPowerOfTwo (n : Nat) : Option Nat :=
  if 2 ^ Nat.clog 2 n < 2 ^ 64 then some (2 ^ Nat.clog 2 n) else none

def clamp (n low high : Nat) : Nat := min (max n low) high

def quantizeFactor (period : Nat) : Nat := max (period >>> 12) 1

/-- The era of about `period` blocks that starts at the block `current`, or shortly before. -/
def newMortal (period current : Nat) : Era :=
  let period := clamp ((checkedNextPowerOfTwo period).getD (1 <<< 16)) 4 (1 <<< 16)
  let phase := current % period
  mortal period (phase / quantizeFactor period * quantizeFactor period)

/-- The start of the era that `current` belongs to; `none` is the division by zero. -/
def birth (era : Era) (current : Nat) : Option Nat :=
  match era with
  | immortal => some 0
  | mortal period phase => do
    let (quotient, _) ← checkedDivMod (max current phase - phase) period
    some (quotient * period + phase)

/-- The first block at which the era has ended; `none` is an overflow. -/
def death (era : Era) (current : Nat) : Option Nat :=
  match era with
  | immortal => some (maxValue 64)
  | mortal period _ => do
    let start ← era.birth current
    checkedAdd 64 start period

def trailingZeros (n : Nat) : Nat := if n = 0 then 64 else padicValNat 2 n

/-- `none` is the underflow at an odd period. -/
def encode (era : Era) : Option (List UInt8) :=
  match era with
  | immortal => some [0]
  | mortal period phase => do
    let exponent ← checkedSub (trailingZeros period) 1
    let encoded := clamp exponent 1 15 |||
      ((phase / quantizeFactor period) <<< 4) % 2 ^ 16
    some (leBytes 2 encoded)

def decode (input : List UInt8) : Except String (Era × List UInt8) :=
  match input with
  | [] => .error "Not enough data to fill buffer"
  | first :: rest =>
    if first = 0 then .ok (immortal, rest)
    else
      match rest with
      | [] => .error "Not enough data to fill buffer"
      | second :: rest =>
        let encoded := first.toNat + second.toNat <<< 8
        let period := 2 <<< (encoded % (1 <<< 4))
        let phase := (encoded >>> 4) * quantizeFactor period
        if 4 ≤ period ∧ phase < period then .ok (mortal period phase, rest)
        else .error "Invalid period and phase"

/-! ## The mortal eras that occur -/

/-- The period is a power of two from four to `2 ^ 16`, and the phase is a multiple of the
factor within the period. -/
structure IsMortal (era : Era) (k units : Nat) : Prop where
  exponent_ge : 2 ≤ k
  exponent_le : k ≤ 16
  eq : era = mortal (2 ^ k) (units * quantizeFactor (2 ^ k))
  phase_lt : units * quantizeFactor (2 ^ k) < 2 ^ k

theorem quantizeFactor_eq {k : Nat} : quantizeFactor (2 ^ k) = 2 ^ (k - 12) := by
  by_cases h : 12 ≤ k
  · rw [quantizeFactor, Nat.shiftRight_eq_div_pow, Nat.pow_div h two_pos]
    exact max_eq_left Nat.one_le_two_pow
  · have hlt : 2 ^ k < 2 ^ 12 := Nat.pow_lt_pow_right (by decide) (by omega)
    rw [quantizeFactor, Nat.shiftRight_eq_div_pow, Nat.div_eq_of_lt hlt,
      show k - 12 = 0 by omega]
    rfl

theorem quantizeFactor_pos (period : Nat) : 0 < quantizeFactor period :=
  Nat.lt_of_lt_of_le one_pos (le_max_right _ _)

variable {era : Era} {k units : Nat}

theorem IsMortal.units_lt (h : IsMortal era k units) : units < 2 ^ 12 := by
  have hphase := h.phase_lt
  have hk := h.exponent_le
  rw [quantizeFactor_eq] at hphase
  by_contra hge
  have hlarge : 2 ^ 12 * 2 ^ (k - 12) ≤ units * 2 ^ (k - 12) :=
    Nat.mul_le_mul_right _ (by omega)
  have hpow : 2 ^ k ≤ 2 ^ 12 * 2 ^ (k - 12) := by
    rw [← pow_add]
    exact Nat.pow_le_pow_right two_pos (by omega)
  omega

theorem exists_clamped_eq (period : Nat) : ∃ k, 2 ≤ k ∧ k ≤ 16 ∧
    clamp ((checkedNextPowerOfTwo period).getD (1 <<< 16)) 4 (1 <<< 16) = 2 ^ k := by
  have hclamp : ∀ j, ∃ k, 2 ≤ k ∧ k ≤ 16 ∧ clamp (2 ^ j) 4 (1 <<< 16) = 2 ^ k := by
    intro j
    have hmono : ∀ {a b : Nat}, a ≤ b → 2 ^ a ≤ 2 ^ b := Nat.pow_le_pow_right two_pos
    rcases Nat.lt_or_ge j 2 with hlow | hlow
    · refine ⟨2, le_rfl, by omega, ?_⟩
      change min (max (2 ^ j) (2 ^ 2)) (2 ^ 16) = 2 ^ 2
      rw [max_eq_right (hmono hlow.le)]
      rfl
    · rcases Nat.lt_or_ge 16 j with hhigh | hhigh
      · refine ⟨16, by omega, le_rfl, ?_⟩
        change min (max (2 ^ j) (2 ^ 2)) (2 ^ 16) = 2 ^ 16
        rw [max_eq_left (hmono hlow), min_eq_right (hmono hhigh.le)]
      · refine ⟨j, hlow, hhigh, ?_⟩
        change min (max (2 ^ j) (2 ^ 2)) (2 ^ 16) = 2 ^ j
        rw [max_eq_left (hmono hlow), min_eq_left (hmono hhigh)]
  unfold checkedNextPowerOfTwo
  split_ifs
  · exact hclamp _
  · exact hclamp 16

theorem newMortal_isMortal (period current : Nat) :
    ∃ k, IsMortal (newMortal period current) k (current % 2 ^ k / quantizeFactor (2 ^ k)) := by
  obtain ⟨k, hlow, hhigh, hperiod⟩ := exists_clamped_eq period
  refine ⟨k, hlow, hhigh, by rw [newMortal, hperiod], ?_⟩
  exact (Nat.div_mul_le_self _ _).trans_lt (Nat.mod_lt _ (Nat.two_pow_pos k))

/-! ## Birth and death -/

theorem birth_mortal {period phase : Nat} (h : 0 < period) (current : Nat) :
    (mortal period phase).birth current =
      some ((max current phase - phase) / period * period + phase) := by
  simp only [birth, checkedDivMod_of_pos h, Option.bind_eq_bind, Option.bind_some]

theorem death_mortal {period phase : Nat} (h : 0 < period) {current : Nat}
    (hfits : max current phase + period < 2 ^ 64) :
    (mortal period phase).death current =
      some ((max current phase - phase) / period * period + phase + period) := by
  have hle := Nat.div_mul_le_self (max current phase - phase) period
  simp only [death, birth_mortal h, Option.bind_eq_bind, Option.bind_some]
  exact checkedAdd_of_lt (by omega)

theorem mortal_interval {period phase current : Nat} (hpos : 0 < period)
    (hphase : phase ≤ current) (hfits : current + 2 * period < 2 ^ 64) :
    ∃ birth death, (mortal period phase).birth current = some birth ∧
      (mortal period phase).death current = some death ∧ birth ≤ current ∧ current < death ∧
      ∀ n, birth ≤ n → n < death → (mortal period phase).birth n = some birth ∧
        (mortal period phase).death n = some death := by
  have hle := Nat.div_mul_le_self (current - phase) period
  have hlt := Nat.lt_div_mul_add hpos (a := current - phase)
  have hmax : ∀ {n}, phase ≤ n → max n phase - phase = n - phase := by
    intro n hn
    rw [max_eq_left hn]
  refine ⟨(current - phase) / period * period + phase,
    (current - phase) / period * period + phase + period, ?_, ?_, by omega, by omega, ?_⟩
  · rw [birth_mortal hpos, hmax hphase]
  · rw [death_mortal hpos (by rw [max_eq_left hphase]; omega), hmax hphase]
  · intro n hlow hhigh
    have hn : phase ≤ n := by omega
    have hquot : (n - phase) / period = (current - phase) / period :=
      Nat.div_eq_of_lt_le (by omega) (by rw [Nat.succ_mul]; omega)
    rw [birth_mortal hpos, death_mortal hpos (by rw [max_eq_left hn]; omega), hmax hn, hquot]
    exact ⟨rfl, rfl⟩

/-! ## The encoding -/

theorem IsMortal.encode_eq (h : IsMortal era k units) :
    era.encode = some (leBytes 2 (k - 1 + units * 16)) := by
  have hlow := h.exponent_ge
  have hhigh := h.exponent_le
  have hunits := h.units_lt
  have hzeros : trailingZeros (2 ^ k) = k := by
    rw [trailingZeros, if_neg (Nat.two_pow_pos k).ne', padicValNat.prime_pow]
  have hclamp : clamp (k - 1) 1 15 = k - 1 := by
    unfold clamp
    omega
  have hdiv : units * quantizeFactor (2 ^ k) / quantizeFactor (2 ^ k) = units :=
    Nat.mul_div_cancel _ (quantizeFactor_pos _)
  have hor : (k - 1) ||| (units <<< 4) % 2 ^ 16 = k - 1 + units * 16 := by
    have hshift : (units <<< 4) % 2 ^ 16 = units <<< 4 := by
      rw [Nat.shiftLeft_eq]
      exact Nat.mod_eq_of_lt (by omega)
    rw [hshift, Nat.or_comm, ← Nat.shiftLeft_add_eq_or_of_lt (by omega), Nat.shiftLeft_eq]
    omega
  rw [h.eq]
  simp only [encode, hzeros, checkedSub_of_le (show 1 ≤ k by omega), Option.bind_eq_bind,
    Option.bind_some, hclamp, hdiv, hor]

theorem decode_word {first second : UInt8} (hlow : 1 ≤ k) (hhigh : k ≤ 16) (hfirst : first ≠ 0)
    (hword : leNat [first, second] = k - 1 + units * 16) (rest : List UInt8) :
    decode (first :: second :: rest) =
      if 4 ≤ 2 ^ k ∧ units * quantizeFactor (2 ^ k) < 2 ^ k then
        .ok (mortal (2 ^ k) (units * quantizeFactor (2 ^ k)), rest)
      else .error "Invalid period and phase" := by
  have hencoded : first.toNat + second.toNat <<< 8 = k - 1 + units * 16 := by
    rw [Nat.shiftLeft_eq, ← hword]
    simp only [leNat]
    omega
  have hexponent : (k - 1 + units * 16) % (1 <<< 4) = k - 1 := by
    rw [show 1 <<< 4 = 16 from rfl]
    omega
  have hunits : (k - 1 + units * 16) >>> 4 = units := by
    rw [Nat.shiftRight_eq_div_pow]
    omega
  have hperiod : 2 <<< (k - 1) = 2 ^ k := by
    rw [Nat.shiftLeft_eq, ← pow_succ', Nat.sub_add_cancel hlow]
  simp only [decode, if_neg hfirst, hencoded, hexponent, hunits, hperiod]

theorem IsMortal.decode_encode (h : IsMortal era k units) :
    ∃ bytes, era.encode = some bytes ∧ ∀ rest, decode (bytes ++ rest) = .ok (era, rest) := by
  have hlow := h.exponent_ge
  have hhigh := h.exponent_le
  have hunits := h.units_lt
  refine ⟨_, h.encode_eq, ?_⟩
  intro rest
  have hword : leNat (leBytes 2 (k - 1 + units * 16)) = k - 1 + units * 16 :=
    leNat_leBytes (by omega)
  have hfirst : UInt8.ofNat ((k - 1 + units * 16) % 256) ≠ 0 := by
    intro hzero
    have hmod : (k - 1 + units * 16) % 256 = 0 := by
      simpa using congrArg UInt8.toNat hzero
    omega
  have hfour : 4 ≤ 2 ^ k := Nat.pow_le_pow_right (n := 2) two_pos hlow
  rw [leBytes, leBytes, leBytes] at hword ⊢
  rw [List.cons_append, List.cons_append, List.nil_append,
    decode_word (by omega) hhigh hfirst hword, if_pos ⟨hfour, h.phase_lt⟩, ← h.eq]

theorem encode_decode {input rest : List UInt8} (h : decode input = .ok (era, rest)) :
    ∃ bytes, era.encode = some bytes ∧ bytes ++ rest = input := by
  match input with
  | [] => simp [decode] at h
  | first :: tail =>
    by_cases hfirst : first = 0
    · subst hfirst
      simp only [decode, if_true, Except.ok.injEq, Prod.mk.injEq] at h
      obtain ⟨rfl, rfl⟩ := h
      exact ⟨[0], rfl, rfl⟩
    · match tail with
      | [] => simp [decode, hfirst] at h
      | second :: tail =>
        obtain ⟨k, units, hlow, hhigh, hword⟩ : ∃ k units, 1 ≤ k ∧ k ≤ 16 ∧
            leNat [first, second] = k - 1 + units * 16 :=
          ⟨leNat [first, second] % 16 + 1, leNat [first, second] / 16, by omega, by omega,
            by omega⟩
        rw [decode_word hlow hhigh hfirst hword] at h
        by_cases haccepted : 4 ≤ 2 ^ k ∧ units * quantizeFactor (2 ^ k) < 2 ^ k
        · rw [if_pos haccepted, Except.ok.injEq, Prod.mk.injEq] at h
          obtain ⟨rfl, rfl⟩ := h
          have hk : 2 ≤ k := (Nat.pow_le_pow_iff_right (a := 2) (by decide)).mp haccepted.1
          have hmortal : IsMortal (mortal (2 ^ k) (units * quantizeFactor (2 ^ k))) k units :=
            ⟨hk, hhigh, rfl, haccepted.2⟩
          refine ⟨_, hmortal.encode_eq, ?_⟩
          rw [← hword, show 2 = [first, second].length from rfl, leBytes_leNat]
          rfl
        · rw [if_neg haccepted] at h
          simp at h

/-- Mortal eras survive their encoding, hold the block they were made for, and are the same
era for all of their blocks; what is read from bytes is encoded to those bytes. -/
theorem mortal_era_stable (period current : Nat) (hcurrent : current < 2 ^ 63) :
    (∃ bytes, (newMortal period current).encode = some bytes ∧
        ∀ rest, decode (bytes ++ rest) = .ok (newMortal period current, rest)) ∧
      (∃ birth death, (newMortal period current).birth current = some birth ∧
        (newMortal period current).death current = some death ∧
        birth ≤ current ∧ current < death ∧
        ∀ n, birth ≤ n → n < death → (newMortal period current).birth n = some birth ∧
          (newMortal period current).death n = some death) ∧
      ∀ input era rest, decode input = .ok (era, rest) →
        ∃ bytes, era.encode = some bytes ∧ bytes ++ rest = input := by
  obtain ⟨k, h⟩ := newMortal_isMortal period current
  refine ⟨h.decode_encode, ?_, fun input era rest => encode_decode⟩
  have hphase : current % 2 ^ k / quantizeFactor (2 ^ k) * quantizeFactor (2 ^ k) ≤ current :=
    (Nat.div_mul_le_self _ _).trans (Nat.mod_le _ _)
  have hpos : 0 < 2 ^ k := Nat.two_pow_pos k
  have hperiod : 2 ^ k ≤ 2 ^ 16 := Nat.pow_le_pow_right two_pos h.exponent_le
  rw [h.eq]
  exact mortal_interval hpos hphase (by omega)

/-- An era of four blocks that starts at block 17. -/
theorem mortal_era_stable_four :
    newMortal 4 17 = mortal 4 1 ∧ (newMortal 4 17).birth 17 = some 17 ∧
      ∀ n, 17 ≤ n → n < 21 → (newMortal 4 17).birth n = some 17 := by
  obtain ⟨-, ⟨birth, death, hbirth, hdeath, -, -, hinterval⟩, -⟩ :=
    mortal_era_stable 4 17 (by decide)
  have hera : newMortal 4 17 = mortal 4 1 := by decide
  have hb : (newMortal 4 17).birth 17 = some 17 := by decide
  have hd : (newMortal 4 17).death 17 = some 21 := by decide
  obtain rfl := Option.some.inj (hbirth.symm.trans hb)
  obtain rfl := Option.some.inj (hdeath.symm.trans hd)
  exact ⟨hera, hb, fun n hlow hhigh => (hinterval n hlow hhigh).1⟩

end Era

end PolkadotSdk.Runtime
