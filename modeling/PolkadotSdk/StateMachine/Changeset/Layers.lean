import PolkadotSdk.StateMachine.Changeset.Versions

/-! # Moved append buffers

An append in a nested transaction takes the buffer of the append below it. The
entry below then holds nothing but its counters, and its bytes are a part of the
child's buffer. `Layers` says which values a stack of entries stands for, buffers
given back included; every operation on entries is specified against it.
-/

namespace PolkadotSdk.StateMachine

open MapStack

variable {codec : CompactCodec}

def countBytes (codec : CompactCodec) : Option Nat → List UInt8
  | some n => codec.encode n
  | none => []

def CountFits (count : Option Nat) : Prop := ∀ n, count = some n → n < 2 ^ 32

theorem countFits_none : CountFits none := by
  intro n h
  cases h

theorem countFits_some {n : Nat} (h : n < 2 ^ 32) : CountFits (some n) := by
  intro k hk
  cases hk
  exact h

theorem u32Succ_lt (n : Nat) : u32Succ n < 2 ^ 32 := Nat.mod_lt _ (by decide)

theorem lengthLen_eq (law : codec.Lawful) {count : Option Nat} (h : CountFits count) :
    StorageAppend.lengthLen codec count = (countBytes codec count).length := by
  cases count with
  | none => rfl
  | some n => exact law.compactLen_eq n (h n rfl)

/-- Newest first, the entries stand for the values. In `borrowed` the entry below stands for its
part of the child's buffer. -/
inductive Layers (codec : CompactCodec) : List StorageEntry → List (Option StorageValue) → Prop
    where
  | nil : Layers codec [] []
  | set {data : StorageValue} {entries : List StorageEntry} {ws : List (Option StorageValue)} :
      Layers codec entries ws → Layers codec (.set data :: entries) (some data :: ws)
  | remove {entries : List StorageEntry} {ws : List (Option StorageValue)} :
      Layers codec entries ws → Layers codec (.remove :: entries) (none :: ws)
  | owned {data rest : StorageValue} {length : Nat} {count : Option Nat}
      {entries : List StorageEntry} {ws : List (Option StorageValue)} :
      data = countBytes codec count ++ rest → length < 2 ^ 32 → CountFits count →
      Layers codec entries ws →
      Layers codec (.append data length count none :: entries)
        (some (codec.encode length ++ rest) :: ws)
  | borrowed {data rest added : StorageValue} {length : Nat} {count : Option Nat} {size : Nat}
      {data' : StorageValue} {length' : Nat} {count' : Option Nat} {size' : Option Nat}
      {entries : List StorageEntry} {ws : List (Option StorageValue)} :
      data = countBytes codec count ++ (rest ++ added) → length < 2 ^ 32 → CountFits count →
      size = (countBytes codec count').length + rest.length →
      Layers codec (.append (countBytes codec count' ++ rest) length' count' size' :: entries) ws →
      Layers codec
        (.append data length count (some size) :: .append data' length' count' size' :: entries)
        (some (codec.encode length ++ (rest ++ added)) :: ws)

namespace Layers

variable {ws : List (Option StorageValue)} {entries : List StorageEntry}

theorem length_eq (h : Layers codec entries ws) : entries.length = ws.length := by
  induction h with
  | nil => rfl
  | set _ ih => simp [ih]
  | remove _ ih => simp [ih]
  | owned _ _ _ _ ih => simp [ih]
  | borrowed _ _ _ _ _ ih => simpa using ih

variable {count size : Option Nat}

theorem append_head {data : StorageValue} {length : Nat}
    (h : Layers codec (.append data length count size :: entries) ws) :
    ∃ rest older, data = countBytes codec count ++ rest ∧
      ws = some (codec.encode length ++ rest) :: older ∧ length < 2 ^ 32 ∧ CountFits count := by
  cases h with
  | owned hdata hlength hcount h => exact ⟨_, _, hdata, rfl, hlength, hcount⟩
  | borrowed hdata hlength hcount hsize h => exact ⟨_, _, hdata, rfl, hlength, hcount⟩

variable {w : Option StorageValue}

theorem regrow {data rest : StorageValue} {length : Nat}
    (h : Layers codec (.append data length count size :: entries) (w :: ws))
    (hdata : data = countBytes codec count ++ rest) (added : StorageValue) {length' : Nat}
    {count' : Option Nat} (hlength' : length' < 2 ^ 32) (hcount' : CountFits count') :
    Layers codec
      (.append (countBytes codec count' ++ (rest ++ added)) length' count' size :: entries)
      (some (codec.encode length' ++ (rest ++ added)) :: ws) := by
  cases h with
  | owned hown _ _ hbelow =>
    obtain rfl := List.append_cancel_left (hdata.symm.trans hown)
    exact .owned rfl hlength' hcount' hbelow
  | borrowed hown _ _ hsize hbelow =>
    obtain rfl := List.append_cancel_left (hdata.symm.trans hown)
    rw [List.append_assoc]
    exact .borrowed rfl hlength' hcount' hsize hbelow

theorem recount {data rest : StorageValue} {length : Nat}
    (h : Layers codec (.append data length count size :: entries) ws)
    (hdata : data = countBytes codec count ++ rest) {count' : Option Nat}
    (hcount' : CountFits count') :
    Layers codec (.append (countBytes codec count' ++ rest) length count' size :: entries) ws := by
  obtain ⟨rest', older, hdata', rfl, hlength, _⟩ := h.append_head
  obtain rfl := List.append_cancel_left (hdata.symm.trans hdata')
  simpa using h.regrow hdata [] hlength hcount'

/-! ## Giving a buffer back -/

theorem restored_data (law : codec.Lawful) {data rest added : StorageValue} {length' : Nat}
    {count count' : Option Nat} {size : Nat} {size' : Option Nat} {data' : StorageValue}
    (hdata : data = countBytes codec count ++ (rest ++ added)) (hcount : CountFits count)
    (hcount' : CountFits count') (hsize : size = (countBytes codec count').length + rest.length) :
    restoreAppendToParent codec (.append data' length' count' size') data count size =
      .append (countBytes codec count ++ rest) length' count size' := by
  have htarget : ∀ target, target = (countBytes codec count).length + rest.length →
      data.take target = countBytes codec count ++ rest := by
    intro target htarget
    rw [hdata, ← List.append_assoc, List.take_append_of_le_length (by simp [htarget])]
    exact List.take_of_length_le (by simp [htarget])
  simp only [restoreAppendToParent, lengthLen_eq law hcount, lengthLen_eq law hcount']
  split
  · rw [htarget _ (by omega)]
  · rw [htarget _ (by omega)]

variable {entry : OverlayedValue}

theorem popRestoring (law : codec.Lawful) (h : Layers codec entry.values (w :: ws)) :
    ∃ popped, entry.popRestoring codec = some popped ∧ Layers codec popped.values ws := by
  obtain ⟨transactions⟩ := entry
  cases transactions with
  | nil => cases h
  | cons newest older =>
    obtain ⟨value, extrinsics⟩ := newest
    simp only [OverlayedEntry.values, List.map_cons] at h
    cases value with
    | set data =>
      cases h with
      | set h => exact ⟨⟨older⟩, rfl, h⟩
    | remove =>
      cases h with
      | remove h => exact ⟨⟨older⟩, rfl, h⟩
    | append data length count size =>
      cases size with
      | none =>
        cases h with
        | owned _ _ _ h => exact ⟨⟨older⟩, rfl, h⟩
      | some size =>
        cases older with
        | nil => cases h
        | cons parent oldest =>
          obtain ⟨parentValue, parentExtrinsics⟩ := parent
          simp only [List.map_cons] at h
          cases h with
          | borrowed hdata hlength hcount hsize hbelow =>
            have hcount' := hbelow.append_head.choose_spec.choose_spec.2.2.2
            refine ⟨_, rfl, ?_⟩
            simp only [OverlayedEntry.values, List.map_cons]
            rw [restored_data law hdata hcount hcount' hsize]
            exact hbelow.recount rfl hcount

/-! ## Reading -/

theorem materialize (law : codec.Lawful) {entry : StorageEntry}
    (h : Layers codec (entry :: entries) (w :: ws)) :
    entry.asOption codec = w ∧
      Layers codec (entry.materializeInPlace codec :: entries) (w :: ws) := by
  cases entry with
  | set data =>
    cases h with
    | set h => exact ⟨rfl, .set h⟩
  | remove =>
    cases h with
    | remove h => exact ⟨rfl, .remove h⟩
  | append data length count size =>
    obtain ⟨rest, older, hdata, hw, hlength, hcount⟩ := h.append_head
    obtain ⟨rfl, rfl⟩ : w = some (codec.encode length ++ rest) ∧ ws = older := by simpa using hw
    by_cases hsame : count = some length
    · simp only [StorageEntry.asOption, StorageEntry.materializeInPlace, if_pos hsame]
      refine ⟨?_, h⟩
      rw [hdata, hsame]
      rfl
    · have hreplace : StorageAppend.replaceLength codec data count length =
          codec.encode length ++ rest := by
        rw [StorageAppend.replaceLength, lengthLen_eq law hcount, hdata, List.drop_left]
      simp only [StorageEntry.asOption, StorageEntry.materializeInPlace, if_neg hsame, hreplace]
      exact ⟨rfl, h.recount hdata (countFits_some hlength)⟩

/-! ## Writing -/

theorem setPush (h : Layers codec entries ws) (value : Option StorageValue) :
    Layers codec (.ofOption value :: entries) (value :: ws) := by
  cases value with
  | none => exact .remove h
  | some data => exact .set h

/-- Overwriting the newest version is dropping it and writing on top. -/
theorem set_values_of_pop {entry popped : OverlayedValue} (value : Option StorageValue)
    (atExtrinsic : Option Nat) (hne : entry.transactions ≠ [])
    (h : entry.popRestoring codec = some popped) :
    ∃ written, entry.set codec value false atExtrinsic = some written ∧
      written.values = .ofOption value :: popped.values := by
  obtain ⟨transactions⟩ := entry
  cases transactions with
  | nil => exact absurd rfl hne
  | cons newest older =>
    obtain ⟨old, extrinsics⟩ := newest
    cases old with
    | set data =>
      obtain rfl := Option.some.inj h
      exact ⟨_, rfl, rfl⟩
    | remove =>
      obtain rfl := Option.some.inj h
      exact ⟨_, rfl, rfl⟩
    | append data length count size =>
      cases size with
      | none =>
        obtain rfl := Option.some.inj h
        exact ⟨_, rfl, rfl⟩
      | some size =>
        cases older with
        | nil => cases h
        | cons parent oldest =>
          obtain rfl := Option.some.inj h
          exact ⟨_, rfl, rfl⟩

theorem setEntry (law : codec.Lawful) (h : Layers codec entry.values ws)
    (value : Option StorageValue) (firstWriteInTx : Bool) (atExtrinsic : Option Nat) :
    ∃ written, entry.set codec value firstWriteInTx atExtrinsic = some written ∧
      (firstWriteInTx = true ∨ ws = [] → Layers codec written.values (value :: ws)) ∧
      (∀ old older, ws = old :: older → firstWriteInTx = false →
        Layers codec written.values (value :: older)) := by
  cases firstWriteInTx with
  | true =>
    refine ⟨_, rfl, fun _ => ?_, fun _ _ _ hfalse => by cases hfalse⟩
    exact h.setPush value
  | false =>
    cases ws with
    | nil =>
      obtain ⟨transactions⟩ := entry
      have hlen := h.length_eq
      obtain rfl : transactions = [] := by simpa [OverlayedEntry.values] using hlen
      exact ⟨_, rfl, fun _ => h.setPush value, fun _ _ hws => by cases hws⟩
    | cons w ws =>
      obtain ⟨popped, hpop, hpopped⟩ := h.popRestoring law
      have hne : entry.transactions ≠ [] := by
        intro hnil
        simp [OverlayedEntry.popRestoring, hnil] at hpop
      obtain ⟨written, hset, hvalues⟩ := set_values_of_pop value atExtrinsic hne hpop
      refine ⟨written, hset, fun hfirst => by simp at hfirst, fun old older hws _ => ?_⟩
      obtain ⟨rfl, rfl⟩ : w = old ∧ ws = older := by simpa using hws
      rw [hvalues]
      exact hpopped.setPush value

/-! ## Appending -/

/-- What an append makes of the bytes it finds. -/
def appendBytes (codec : CompactCodec) (data element : StorageValue) : StorageValue :=
  match codec.decode data with
  | some (length, rest) => codec.encode (u32Succ length) ++ (rest ++ element)
  | none => codec.encode 1 ++ element

/-- What an append makes of the current value; a deleted value counts as no list. -/
def appendValue (codec : CompactCodec) (current : Option StorageValue) (element : StorageValue) :
    StorageValue :=
  match current with
  | some data => appendBytes codec data element
  | none => codec.encode 1 ++ element

theorem singleton (h : Layers codec entries ws) (element : StorageValue) :
    Layers codec (.append element 1 none none :: entries)
      (some (codec.encode 1 ++ element) :: ws) :=
  .owned rfl (by decide) countFits_none h

theorem appendTo (law : codec.Lawful) (h : Layers codec entries ws) (data element : StorageValue) :
    Layers codec (OverlayedEntry.appendTo codec data element :: entries)
      (some (appendBytes codec data element) :: ws) := by
  unfold OverlayedEntry.appendTo appendBytes StorageAppend.extractLength
  cases hdecode : codec.decode data with
  | none => exact h.singleton element
  | some decoded =>
    obtain ⟨length, rest⟩ := decoded
    obtain ⟨hlength, hdata⟩ := law.minimal data length rest hdecode
    refine .owned ?_ (u32Succ_lt length) (countFits_some hlength) h
    rw [hdata, StorageAppend.appendRaw, List.append_assoc]
    rfl

theorem appendValue_encode (law : codec.Lawful) {length : Nat} (hlength : length < 2 ^ 32)
    (rest element : StorageValue) :
    appendValue codec (some (codec.encode length ++ rest)) element =
      codec.encode (u32Succ length) ++ (rest ++ element) := by
  simp [appendValue, appendBytes, law.decode_encode length rest hlength]

theorem appendEntry (law : codec.Lawful) (h : Layers codec entry.values ws)
    (element : StorageValue) (firstWriteInTx : Bool) (init : Unit → StorageValue)
    (atExtrinsic : Option Nat) :
    (ws = [] → Layers codec (entry.append codec element firstWriteInTx init atExtrinsic).values
      [some (appendValue codec (some (init ())) element)]) ∧
    (∀ w older, ws = w :: older → firstWriteInTx = true →
      Layers codec (entry.append codec element firstWriteInTx init atExtrinsic).values
        (some (appendValue codec w element) :: w :: older)) ∧
    (∀ w older, ws = w :: older → firstWriteInTx = false →
      Layers codec (entry.append codec element firstWriteInTx init atExtrinsic).values
        (some (appendValue codec w element) :: older)) := by
  obtain ⟨transactions⟩ := entry
  cases transactions with
  | nil =>
    obtain rfl : ws = [] := by
      cases h
      rfl
    refine ⟨fun _ => ?_, by simp, by simp⟩
    exact (Layers.nil.appendTo law (init ()) element)
  | cons newest older =>
    obtain ⟨value, extrinsics⟩ := newest
    simp only [OverlayedEntry.values, List.map_cons] at h
    refine ⟨fun hws => ?_, ?_, ?_⟩
    · have hlen := h.length_eq
      simp [hws] at hlen
    · rintro w below rfl rfl
      cases value with
      | set data =>
        have hpush := h.appendTo law data element
        cases h with
        | set _ => exact hpush
      | remove =>
        have hpush := h.singleton element
        cases h with
        | remove _ => exact hpush
      | append data length count size =>
        obtain ⟨rest, tail, hdata, hw, hlength, hcount⟩ := h.append_head
        obtain ⟨rfl, rfl⟩ : w = some (codec.encode length ++ rest) ∧ below = tail := by
          simpa using hw
        rw [appendValue_encode law hlength]
        refine .borrowed ?_ (u32Succ_lt length) hcount ?_ (hdata ▸ h)
        · rw [hdata, StorageAppend.appendRaw, List.append_assoc]
        · rw [hdata, List.length_append]
    · rintro w below rfl rfl
      cases value with
      | set data =>
        cases h with
        | set h => exact h.appendTo law data element
      | remove =>
        cases h with
        | remove h => exact h.singleton element
      | append data length count size =>
        obtain ⟨rest, tail, hdata, hw, hlength, hcount⟩ := h.append_head
        obtain ⟨rfl, rfl⟩ : w = some (codec.encode length ++ rest) ∧ below = tail := by
          simpa using hw
        rw [appendValue_encode law hlength]
        have hgrown := h.regrow hdata element (u32Succ_lt length) hcount
        rw [← List.append_assoc (countBytes codec count), ← hdata] at hgrown
        exact hgrown

/-! ## Merging -/

theorem replaceBelow {entry : StorageEntry} {entries entries' : List StorageEntry}
    {ws ws' : List (Option StorageValue)} (h : Layers codec (entry :: entries) (w :: ws))
    (h' : Layers codec entries' ws')
    (hown : ∀ data length count size, entry ≠ .append data length count (some size)) :
    Layers codec (entry :: entries') (w :: ws') := by
  cases h with
  | set _ => exact .set h'
  | remove _ => exact .remove h'
  | owned hdata hlength hcount _ => exact .owned hdata hlength hcount h'
  | borrowed => exact absurd rfl (hown _ _ _ _)

theorem tail_of_own {entry : StorageEntry} (h : Layers codec (entry :: entries) (w :: ws))
    (hown : ∀ data length count size, entry ≠ .append data length count (some size)) :
    Layers codec entries ws := by
  cases h with
  | set h => exact h
  | remove h => exact h
  | owned _ _ _ h => exact h
  | borrowed => exact absurd rfl (hown _ _ _ _)

theorem mergeNewest (law : codec.Lawful) {w w' : Option StorageValue}
    (h : Layers codec entry.values (w :: w' :: ws)) :
    ∃ merged, entry.mergeNewest codec = some merged ∧ Layers codec merged.values (w :: ws) := by
  obtain ⟨transactions⟩ := entry
  cases transactions with
  | nil => cases h
  | cons newest rest =>
    cases rest with
    | nil =>
      have hlen := h.length_eq
      simp [OverlayedEntry.values] at hlen
    | cons next older =>
      obtain ⟨committed, ext⟩ := newest
      obtain ⟨below, ext'⟩ := next
      simp only [OverlayedEntry.values, List.map_cons] at h
      simp only [OverlayedEntry.mergeNewest]
      split
      · -- consecutive appends: the child's buffer contains the parent's
        refine ⟨_, rfl, ?_⟩
        simp only [OverlayedEntry.values, List.map_cons]
        cases h with
        | borrowed hdata hlength hcount hsize hbelow =>
          rw [hdata]
          exact hbelow.regrow rfl _ hlength hcount
      · rename_i data length count size hown
        have hrest := h.tail_of_own hown
        cases older with
        | nil => cases hrest
        | cons parent oldest =>
          obtain ⟨popped, hpop, hpopped⟩ := popRestoring law
            (show Layers codec (OverlayedEntry.values
              ⟨⟨.append data length count (some size), ext'⟩ :: parent :: oldest⟩)
              (w' :: ws) from hrest)
          obtain rfl := Option.some.inj hpop
          exact ⟨_, rfl, h.replaceBelow hpopped hown⟩
      · rename_i hownBelow hnotAppends
        have hown : ∀ data length count size,
            committed ≠ .append data length count (some size) := by
          rintro data length count size rfl
          cases h with
          | borrowed => exact hnotAppends _ _ _ _ _ _ _ _ rfl rfl
        exact ⟨_, rfl, h.replaceBelow ((h.tail_of_own hown).tail_of_own hownBelow) hown⟩

end Layers

/-- Storage entries under `Layers`, closed by restoring and merging. -/
def storageVersions (law : codec.Lawful) :
    VersionTheory StorageEntry (Option StorageValue) (OverlayedEntry.popRestoring codec)
      (OverlayedEntry.mergeNewest codec) where
  Rep := Layers codec
  rep_nil := .nil
  length_eq := Layers.length_eq
  pop_spec := Layers.popRestoring law
  merge_spec := Layers.mergeNewest law

@[simp] theorem storageVersions_rep (law : codec.Lawful) :
    (storageVersions law).Rep = Layers codec := rfl

end PolkadotSdk.StateMachine
