import PolkadotSdk.StateMachine.Changeset.Layers
import PolkadotSdk.Lib.MapTraversal
import PolkadotSdk.Lib.Run

/-! # The changeset against a stack of complete maps

Each operation of the changeset is specified against the stack; the specifications
compose to runs. The naive model below pays for every transaction with a copy of
the whole map and re-encodes a list on every append.
-/

namespace PolkadotSdk.StateMachine

open Std MapStack

/-- For every key nothing, a deletion, or the bytes. -/
abbrev ValueStack := Stack StorageKey (Option StorageValue)

namespace OverlayedEntry

def newest (codec : CompactCodec) (entry : OverlayedValue) : Option StorageValue :=
  entry.transactions.head?.bind (·.value.asOption codec)

def materialized (codec : CompactCodec) (entry : OverlayedValue) : OverlayedValue :=
  match entry.transactions with
  | [] => ⟨[]⟩
  | newest :: older => ⟨⟨newest.value.materializeInPlace codec, newest.extrinsics⟩ :: older⟩

theorem value_eq {codec : CompactCodec} {entry : OverlayedValue} (h : entry.transactions ≠ []) :
    entry.value codec = some (entry.newest codec, entry.materialized codec) := by
  obtain ⟨newest, older, htrans⟩ := List.exists_cons_of_ne_nil h
  simp [value, OverlayedEntry.newest, materialized, htrans]

end OverlayedEntry

namespace OverlayedMap

variable {codec : CompactCodec} {law : codec.Lawful}
variable {map : OverlayedChangeSet} {stack : ValueStack} {entry : OverlayedValue}

/-! ## Writes -/

theorem Refines.set (h : Refines (storageVersions law) map stack) (key : StorageKey)
    (value : Option StorageValue) (atExtrinsic : Option Nat) :
    ∃ written, OverlayedMap.set codec map key value atExtrinsic = some written ∧
      Refines (storageVersions law) written (stack.write key value) ∧
      SameControl map written := by
  obtain ⟨ws, hrep, _⟩ := (h.at_key key).rep
  obtain ⟨entry, hset, _⟩ :=
    Layers.setEntry law hrep value (insertDirty map.dirtyKeys key).1 atExtrinsic
  refine ⟨{ map with
      changes := map.changes.insert key entry
      dirtyKeys := (insertDirty map.dirtyKeys key).2 }, ?_, ?_,
    insertDirty_snd_length _ _, rfl, rfl⟩
  · simp [OverlayedMap.set, hset]
  · refine h.write key value ?_ ?_
    · intro ws hrep _ hfirst
      obtain ⟨entry', hset', hpush, _⟩ :=
        Layers.setEntry law hrep value (insertDirty map.dirtyKeys key).1 atExtrinsic
      obtain rfl : entry = entry' := Option.some.inj (hset.symm.trans hset')
      exact hpush hfirst
    · intro old ws hrep _ hagain
      obtain ⟨entry', hset', _, hreplace⟩ :=
        Layers.setEntry law hrep value (insertDirty map.dirtyKeys key).1 atExtrinsic
      obtain rfl : entry = entry' := Option.some.inj (hset.symm.trans hset')
      exact hreplace old ws rfl hagain

def current (stack : ValueStack) (key : StorageKey) (init : Unit → StorageValue) :
    Option StorageValue :=
  (stack.top key).getD (some (init ()))

theorem appendStorage_eq (map : OverlayedChangeSet) (key : StorageKey) (element : StorageValue)
    (init : Unit → StorageValue) (atExtrinsic : Option Nat) :
    appendStorage codec map key element init atExtrinsic =
      { map with
        changes := map.changes.insert key ((map.entryOrDefault key).append codec element
          (insertDirty map.dirtyKeys key).1 init atExtrinsic)
        dirtyKeys := (insertDirty map.dirtyKeys key).2 } := rfl

theorem Refines.appendStorage (h : Refines (storageVersions law) map stack) (key : StorageKey)
    (element : StorageValue) (init : Unit → StorageValue) (atExtrinsic : Option Nat) :
    Refines (storageVersions law)
      (OverlayedMap.appendStorage codec map key element init atExtrinsic)
      (stack.write key (some (Layers.appendValue codec (current stack key init) element))) := by
  rw [appendStorage_eq]
  refine h.write key _ ?_ ?_
  · intro ws hrep htop hfirst
    obtain ⟨hempty, hpush, _⟩ := Layers.appendEntry law hrep element
      (insertDirty map.dirtyKeys key).1 init atExtrinsic
    cases ws with
    | nil => simpa [current, htop] using hempty rfl
    | cons w older =>
      have hflag : (insertDirty map.dirtyKeys key).1 = true := by simpa using hfirst
      simpa [current, htop] using hpush w older rfl hflag
  · intro old ws hrep htop hagain
    obtain ⟨_, _, hreplace⟩ := Layers.appendEntry law hrep element
      (insertDirty map.dirtyKeys key).1 init atExtrinsic
    simpa [current, htop] using hreplace old ws rfl hagain

/-! ## Reads -/

theorem exists_newest {ws : List (Option StorageValue)} (hne : entry.transactions ≠ [])
    (h : Layers codec entry.values ws) :
    ∃ newest older w ws', entry.transactions = newest :: older ∧ ws = w :: ws' := by
  obtain ⟨newest, older, htrans⟩ := List.exists_cons_of_ne_nil hne
  have hlen := h.length_eq
  cases ws with
  | nil => simp [OverlayedEntry.values, htrans] at hlen
  | cons w ws => exact ⟨newest, older, w, ws, htrans, rfl⟩

theorem At.materialize {key : StorageKey} {column : List (Option (Option StorageValue))}
    (h : At (storageVersions law) map key column)
    {changes : ExtTreeMap StorageKey OverlayedValue}
    (hchanges : changes[key]? = (map.changes[key]?).map (OverlayedEntry.materialized codec)) :
    At (storageVersions law) { map with changes } key column := by
  obtain ⟨hne, ws, hrep, hcol⟩ := h
  cases hentry : map.changes[key]? with
  | none =>
    rw [hentry] at hchanges
    exact SameAt.at_key ⟨hchanges.trans hentry.symm, rfl⟩ ⟨hne, ws, hrep, hcol⟩
  | some entry =>
    rw [hentry] at hchanges
    rw [versionsOf_of_getElem? hentry] at hrep
    obtain ⟨newest, older, w, ws, htrans, rfl⟩ := exists_newest (hne entry hentry) hrep
    have hlayers : Layers codec (newest.value :: older.map (·.value)) (w :: ws) := by
      simpa [OverlayedEntry.values, htrans] using hrep
    refine ⟨?_, w :: ws, ?_, hcol⟩
    · intro stored hstored
      obtain rfl : entry.materialized codec = stored := by simpa [hchanges] using hstored
      simp [OverlayedEntry.materialized, htrans]
    · have hversions : ({ map with changes } : OverlayedChangeSet).versionsOf key =
          (entry.materialized codec).values := versionsOf_of_getElem? hchanges
      rw [hversions]
      simpa [OverlayedEntry.values, OverlayedEntry.materialized, htrans] using
        (Layers.materialize law hlayers).2

section

variable (h : Refines (storageVersions law) map stack)
include h

theorem newest_of_getElem? {key : StorageKey}
    (hentry : map.changes[key]? = some entry) : some (entry.newest codec) = stack.top key := by
  obtain ⟨hne, ws, hrep, hcol⟩ := h.at_key key
  have htop : stack.top key = ws.head? := hcol.head
  rw [versionsOf_of_getElem? hentry] at hrep
  obtain ⟨newest, older, w, ws, htrans, rfl⟩ := exists_newest (hne entry hentry) hrep
  have hlayers : Layers codec (newest.value :: older.map (·.value)) (w :: ws) := by
    simpa [OverlayedEntry.values, htrans] using hrep
  simp [OverlayedEntry.newest, htrans, htop, (Layers.materialize law hlayers).1]

theorem top_of_none {key : StorageKey}
    (hentry : map.changes[key]? = none) : stack.top key = none := by
  obtain ⟨_, ws, hrep, hcol⟩ := h.at_key key
  have hlen := (storageVersions law).length_eq hrep
  rw [versionsOf_of_none hentry] at hlen
  obtain rfl : ws = [] := List.length_eq_zero_iff.mp hlen.symm
  simpa using hcol.head

theorem Refines.read (key : StorageKey) :
    ∃ after, OverlayedMap.read codec map key = some (stack.top key, after) ∧
      Refines (storageVersions law) after stack ∧ SameControl map after := by
  cases hentry : map.changes[key]? with
  | none => exact ⟨map, by simp [OverlayedMap.read, hentry, top_of_none h hentry], h, rfl, rfl, rfl⟩
  | some entry =>
    have hne : entry.transactions ≠ [] := (h.at_key key).nonempty entry hentry
    refine ⟨{ map with changes := map.changes.insert key (entry.materialized codec) }, ?_,
      ⟨h.depth, fun other => ?_⟩, rfl, rfl, rfl⟩
    · simp [OverlayedMap.read, hentry, OverlayedEntry.value_eq hne, ← newest_of_getElem? h hentry]
    · by_cases heq : other = key
      · subst heq
        exact (h.at_key other).materialize (by simp [hentry])
      · exact SameAt.at_key ⟨getElem?_insert_other map _ heq, rfl⟩ (h.at_key other)

end

/-! ## Clearing -/

def selected (map : OverlayedChangeSet) (predicate : StorageKey → OverlayedValue → Bool)
    (key : StorageKey) : Bool :=
  match map.changes[key]? with
  | some entry => predicate key entry
  | none => false

/-- Clearing a duplicate-free list of the changeset's entries clears the stack's newest
map at the selected ones. -/
theorem Refines.clearKeys (predicate : StorageKey → OverlayedValue → Bool)
    (atExtrinsic : Option Nat) (changes : List (StorageKey × OverlayedValue))
    (hnodup : (changes.map (·.1)).Nodup) (count : Nat) {map : OverlayedChangeSet}
    {stack : ValueStack} (h : Refines (storageVersions law) map stack)
    (hget : ∀ change ∈ changes, map.changes[change.1]? = some change.2) :
    ∃ count' cleared,
      changes.foldlM (clearKey codec predicate atExtrinsic) (count, map) =
        some (count', cleared) ∧
      Refines (storageVersions law) cleared
        (stack.writeWhere (fun key => changes.any fun change =>
          decide (change.1 = key) && predicate change.1 change.2) none) ∧
      SameControl map cleared := by
  induction changes generalizing count map stack with
  | nil => exact ⟨count, map, rfl, by simpa [Stack.writeWhere] using h, rfl, rfl, rfl⟩
  | cons change changes ih =>
    obtain ⟨key, entry⟩ := change
    obtain ⟨hnot, hnodup⟩ := List.nodup_cons.mp hnodup
    have hentry : map.changes[key]? = some entry := hget (key, entry) (by simp)
    by_cases hpred : predicate key entry = true
    · obtain ⟨written, hset, hwritten, hctl⟩ := h.set key none atExtrinsic
      obtain ⟨newest, older, hnewest⟩ :=
        List.exists_cons_of_ne_nil ((h.at_key key).nonempty entry hentry)
      have hdefault : map.entryOrDefault key = entry := by simp [entryOrDefault, hentry]
      have hstep : ∃ count', clearKey codec predicate atExtrinsic (count, map) (key, entry) =
          some (count', written) := by
        simp only [OverlayedMap.set, hdefault, Option.map_eq_some_iff] at hset
        obtain ⟨cleared, hcleared, rfl⟩ := hset
        refine ⟨if newest.value = .remove then count else count + 1, ?_⟩
        simp [clearKey, hpred, hnewest, hcleared]
      obtain ⟨count', hstep⟩ := hstep
      have hrest : ∀ change ∈ changes, written.changes[change.1]? = some change.2 := by
        intro change hmem
        have hne : change.1 ≠ key := by
          intro heq
          exact hnot (List.mem_map.mpr ⟨change, hmem, heq⟩)
        obtain ⟨cleared, _, rfl⟩ := by
          simpa only [OverlayedMap.set, Option.map_eq_some_iff] using hset
        rw [getElem?_insert_other map cleared hne]
        exact hget change (by simp [hmem])
      obtain ⟨count'', cleared, hfold, href, hctl'⟩ := ih hnodup count' hwritten hrest
      refine ⟨count'', cleared, by simp [List.foldlM_cons, hstep, hfold], ?_,
        hctl.trans hctl'⟩
      convert href using 1
      simp only [Stack.writeWhere, Stack.write]
      congr 1
      funext other
      by_cases heq : key = other
      · subst heq
        obtain ⟨ws, hrep, hcol⟩ := (h.at_key key).rep
        have hhead : stack.top key = ws.head? := hcol.head
        rw [versionsOf_of_getElem? hentry] at hrep
        obtain ⟨_, _, w, ws', _, rfl⟩ :=
          exists_newest ((h.at_key key).nonempty entry hentry) hrep
        simp [hpred, hhead]
      · have hne : other ≠ key := fun hsym => heq hsym.symm
        have hdec : decide (key = other) = false := decide_eq_false heq
        simp only [List.any_cons, hdec, Bool.false_and, Bool.false_or,
          Function.update_of_ne hne]
    · have hrest : ∀ change ∈ changes, map.changes[change.1]? = some change.2 :=
        fun change hmem => hget change (by simp [hmem])
      obtain ⟨count', cleared, hfold, href, hctl⟩ := ih hnodup count h hrest
      refine ⟨count', cleared, by simp [List.foldlM_cons, clearKey, hpred, hfold], ?_, hctl⟩
      simpa [hpred] using href

theorem Refines.clearWhere (h : Refines (storageVersions law) map stack)
    (predicate : StorageKey → OverlayedValue → Bool) (atExtrinsic : Option Nat) :
    ∃ count cleared,
      OverlayedMap.clearWhere codec map predicate atExtrinsic = some (count, cleared) ∧
      Refines (storageVersions law) cleared (stack.writeWhere (map.selected predicate) none) ∧
      SameControl map cleared := by
  have hget : ∀ change ∈ map.changes.toList, map.changes[change.1]? = some change.2 :=
    fun _ hmem => MapTraversal.getElem?_of_mem_toList hmem
  obtain ⟨count, cleared, hfold, href, hctl⟩ := h.clearKeys predicate atExtrinsic
    map.changes.toList (MapTraversal.keys_nodup map.changes) 0 hget
  refine ⟨count, cleared, hfold, ?_, hctl⟩
  convert href using 2
  funext key
  rw [Bool.eq_iff_iff]
  simp only [selected, List.any_eq_true, Bool.and_eq_true, decide_eq_true_eq]
  constructor
  · intro hsel
    split at hsel
    · rename_i entry hentry
      exact ⟨(key, entry), ExtTreeMap.mem_toList_iff_getElem?_eq_some.mpr hentry, rfl, hsel⟩
    · cases hsel
  · rintro ⟨⟨key', entry⟩, hmem, rfl, hsel⟩
    rw [hget _ hmem]
    exact hsel

/-! ## Transactions -/

theorem mayClose_iff_of_client (hmode : map.executionMode = .client) :
    map.mayClose ↔ map.dirtyKeys ≠ [] := by
  simp [mayClose, hmode]

theorem Refines.closeTransaction (h : Refines (storageVersions law) map stack)
    (hmode : map.executionMode = .client) (rolledBack : Bool) :
    (∃ closed stack', OverlayedMap.closeTransaction codec map rolledBack = some (.ok closed) ∧
      stack.close rolledBack = some stack' ∧ Refines (storageVersions law) closed stack' ∧
      closed.executionMode = .client) ∨
    (OverlayedMap.closeTransaction codec map rolledBack = some (.error .noOpenTransaction) ∧
      stack.close rolledBack = none) := by
  by_cases hmay : map.mayClose
  · obtain ⟨closed, stack', hclosed, hstack', href, _, _, hmode'⟩ := h.closeWith rolledBack hmay
    exact .inl ⟨closed, stack', hclosed, hstack', href, hmode'.trans hmode⟩
  · refine .inr ⟨closeWith_error map rolledBack hmay, ?_⟩
    have hnil : map.dirtyKeys = [] := by
      rw [mayClose_iff_of_client hmode] at hmay
      exact not_not.mp hmay
    have hdepth := h.depth
    obtain ⟨top, below⟩ := stack
    obtain rfl : below = [] := by simpa [hnil] using hdepth
    cases rolledBack <;> rfl

end OverlayedMap

/-! ## Runs -/

namespace Changeset

inductive Op where
  | set (key : StorageKey) (value : Option StorageValue) (atExtrinsic : Option Nat)
  | appendStorage (key : StorageKey) (element : StorageValue) (init : Unit → StorageValue)
      (atExtrinsic : Option Nat)
  | clearWhere (predicate : StorageKey → OverlayedValue → Bool) (atExtrinsic : Option Nat)
  | read (key : StorageKey)
  | startTransaction
  | commitTransaction
  | rollbackTransaction

/-- Closing a transaction is an error without one; the caller goes on with the same state. -/
def closeOrKeep (codec : CompactCodec) (map : OverlayedChangeSet) (rollback : Bool) :
    Option OverlayedChangeSet :=
  match map.closeTransaction codec rollback with
  | some (.ok closed) => some closed
  | some (.error _) => some map
  | none => none

def apply (codec : CompactCodec) (map : OverlayedChangeSet) : Op → Option OverlayedChangeSet
  | .set key value atExtrinsic => map.set codec key value atExtrinsic
  | .appendStorage key element init atExtrinsic =>
    some (map.appendStorage codec key element init atExtrinsic)
  | .clearWhere predicate atExtrinsic =>
    (map.clearWhere codec predicate atExtrinsic).map (·.2)
  | .read key => (map.read codec key).map (·.2)
  | .startTransaction => some map.startTransaction
  | .commitTransaction => closeOrKeep codec map false
  | .rollbackTransaction => closeOrKeep codec map true

/-- The naive append: decode the count, re-encode it one higher. -/
def naiveAppend (codec : CompactCodec) (current : Option StorageValue) (element : StorageValue) :
    StorageValue :=
  match current.bind codec.decode with
  | some (n, rest) => codec.encode (n + 1) ++ rest ++ element
  | none => codec.encode 1 ++ element

/-- The naive model. A predicate sees the changeset's entries, so the keys it selects
are resolved against the changeset. -/
def naive (codec : CompactCodec) (map : OverlayedChangeSet) (stack : ValueStack) :
    Op → ValueStack
  | .set key value _ => stack.write key value
  | .appendStorage key element init _ =>
    stack.write key (some (naiveAppend codec (OverlayedMap.current stack key init) element))
  | .clearWhere predicate _ => stack.writeWhere (map.selected predicate) none
  | .read _ => stack
  | .startTransaction => stack.start
  | .commitTransaction => stack.commit.getD stack
  | .rollbackTransaction => stack.rollback.getD stack

def step (codec : CompactCodec) (s : OverlayedChangeSet × ValueStack) (op : Op) :
    Option (OverlayedChangeSet × ValueStack) :=
  (apply codec s.1 op).map fun map => (map, naive codec s.1 s.2 op)

/-- The element count of `current`, if it has one, can grow by one within `u32`. -/
def CountFitsAfter (codec : CompactCodec) (current : Option StorageValue) : Prop :=
  ∀ counted ∈ current.bind codec.decode, counted.1 + 1 < 2 ^ 32

instance (codec : CompactCodec) (current : Option StorageValue) :
    Decidable (CountFitsAfter codec current) :=
  inferInstanceAs (Decidable (∀ counted ∈ current.bind codec.decode, counted.1 + 1 < 2 ^ 32))

/-- An append does not push the element count out of `u32`. -/
def Fits (codec : CompactCodec) (s : OverlayedChangeSet × ValueStack) : Op → Prop
  | .appendStorage key _ init _ => CountFitsAfter codec (OverlayedMap.current s.2 key init)
  | _ => True

instance decidableFits (codec : CompactCodec) (s : OverlayedChangeSet × ValueStack) :
    (op : Op) → Decidable (Fits codec s op)
  | .appendStorage key _ init _ =>
    inferInstanceAs (Decidable (CountFitsAfter codec (OverlayedMap.current s.2 key init)))
  | .set .. | .clearWhere .. | .read .. | .startTransaction | .commitTransaction
  | .rollbackTransaction => instDecidableTrue

theorem appendValue_eq_naiveAppend {codec : CompactCodec} {current : Option StorageValue}
    (element : StorageValue) (hfits : CountFitsAfter codec current) :
    Layers.appendValue codec current element = naiveAppend codec current element := by
  cases current with
  | none => rfl
  | some data =>
    simp only [CountFitsAfter, Option.bind_some] at hfits
    simp only [Layers.appendValue, Layers.appendBytes, naiveAppend, Option.bind_some]
    cases hdecode : codec.decode data with
    | none => rfl
    | some decoded =>
      have hlt : decoded.1 + 1 < 2 ^ 32 := hfits decoded (by simp [hdecode])
      simp only [u32Succ, Nat.mod_eq_of_lt hlt, List.append_assoc]

/-- What a run keeps: the changeset refines the stack, outside the runtime. -/
def Inv {codec : CompactCodec} (law : codec.Lawful) (s : OverlayedChangeSet × ValueStack) :
    Prop :=
  OverlayedMap.Refines (storageVersions law) s.1 s.2 ∧ s.1.executionMode = .client

theorem closeOrKeep_inv {codec : CompactCodec} {law : codec.Lawful}
    {map : OverlayedChangeSet} {stack : ValueStack} (h : Inv law (map, stack))
    (rolledBack : Bool) :
    ∃ map', closeOrKeep codec map rolledBack = some map' ∧
      Inv law (map', (stack.close rolledBack).getD stack) := by
  rcases h.1.closeTransaction h.2 rolledBack with ⟨closed, stack', hclosed, hstack', href, hmode⟩ |
    ⟨herror, hnone⟩
  · exact ⟨closed, by simp [closeOrKeep, hclosed], by simpa [hstack'] using ⟨href, hmode⟩⟩
  · exact ⟨map, by simp [closeOrKeep, herror], by simpa [hnone] using h⟩

theorem step_inv {codec : CompactCodec} (law : codec.Lawful)
    (s : OverlayedChangeSet × ValueStack) (op : Op) (h : Inv law s)
    (hfits : Fits codec s op) : ∃ t, step codec s op = some t ∧ Inv law t := by
  obtain ⟨map, stack⟩ := s
  obtain ⟨href, hmode⟩ := h
  cases op with
  | set key value atExtrinsic =>
    obtain ⟨written, hset, hwritten, hctl⟩ := href.set key value atExtrinsic
    exact ⟨(written, stack.write key value), by simp [step, apply, hset, naive], hwritten,
      hctl.2.2.trans hmode⟩
  | appendStorage key element init atExtrinsic =>
    refine ⟨_, rfl, ?_, hmode⟩
    have happend := href.appendStorage key element init atExtrinsic
    rw [appendValue_eq_naiveAppend element hfits] at happend
    exact happend
  | clearWhere predicate atExtrinsic =>
    obtain ⟨count, cleared, hclear, hcleared, hctl⟩ := href.clearWhere predicate atExtrinsic
    exact ⟨(cleared, stack.writeWhere (map.selected predicate) none),
      by simp [step, apply, hclear, naive], hcleared, hctl.2.2.trans hmode⟩
  | read key =>
    obtain ⟨after, hread, hafter, hctl⟩ := href.read key
    exact ⟨(after, stack), by simp [step, apply, hread, naive], hafter,
      hctl.2.2.trans hmode⟩
  | startTransaction => exact ⟨_, rfl, href.startTransaction, hmode⟩
  | commitTransaction =>
    obtain ⟨map', hclose, hinv⟩ := closeOrKeep_inv ⟨href, hmode⟩ false
    exact ⟨_, by simp only [step, apply, hclose, Option.map_some]; rfl, hinv⟩
  | rollbackTransaction =>
    obtain ⟨map', hclose, hinv⟩ := closeOrKeep_inv ⟨href, hmode⟩ true
    exact ⟨_, by simp only [step, apply, hclose, Option.map_some]; rfl, hinv⟩

def initial : OverlayedChangeSet × ValueStack := (OverlayedMap.empty, Stack.empty)

/-- Every run from the empty changeset goes through without a panic, and afterwards a
read of any key returns what the naive model holds for it. -/
theorem changeset_refines_naive (codec : CompactCodec) (law : codec.Lawful) (ops : List Op)
    (hfits : Run.Along (step codec) (Fits codec) initial ops) :
    ∃ map stack, Run.exec (step codec) initial ops = some (map, stack) ∧
      ∀ key, ∃ after, map.read codec key = some (stack.top key, after) := by
  obtain ⟨⟨map, stack⟩, hexec, hinv⟩ := Run.exec_total (step_inv law)
    (show Inv law initial from ⟨OverlayedMap.refines_empty _, rfl⟩) hfits
  refine ⟨map, stack, hexec, fun key => ?_⟩
  obtain ⟨after, hread, _⟩ := hinv.1.read key
  exact ⟨after, hread⟩

def nestedAppend : List Op :=
  [.set [1] (some [4, 7]) none, .startTransaction, .appendStorage [1] [8] (fun _ => []) none,
    .startTransaction, .appendStorage [1] [9] (fun _ => []) (some 3), .read [1],
    .rollbackTransaction, .clearWhere (fun key _ => key == [2]) none, .commitTransaction,
    .rollbackTransaction]

theorem changeset_refines_naive_nestedAppend :
    Run.Along (step scaleCompact) (Fits scaleCompact) initial nestedAppend ∧
      ∃ map stack, Run.exec (step scaleCompact) initial nestedAppend = some (map, stack) ∧
        ∀ key, ∃ after, map.read scaleCompact key = some (stack.top key, after) :=
  have hfits : Run.Along (step scaleCompact) (Fits scaleCompact) initial nestedAppend := by
    decide +kernel
  ⟨hfits, changeset_refines_naive scaleCompact scaleCompact_lawful nestedAppend hfits⟩

end Changeset

end PolkadotSdk.StateMachine
