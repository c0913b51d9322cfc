import PolkadotSdk.StateMachine.Changeset.Model
import PolkadotSdk.Lib.MapStack

/-! # Versioned maps refine a stack of maps

The part of the refinement that does not depend on what a version looks like.
A `VersionTheory` says which values a list of stored versions represents and what
dropping or merging the newest version does to them. From that, closing a
transaction of an `OverlayedMap` acts on every key as it does on the stack.
-/

namespace PolkadotSdk.StateMachine

open Std MapStack

def OverlayedEntry.values {V : Type} (entry : OverlayedEntry V) : List V :=
  entry.transactions.map (·.value)

/-- The values that stored versions represent, under the two closing operations. -/
structure VersionTheory (V W : Type) (pop merge : OverlayedEntry V → Option (OverlayedEntry V))
    where
  Rep : List V → List W → Prop
  rep_nil : Rep [] []
  length_eq : ∀ {vs ws}, Rep vs ws → vs.length = ws.length
  pop_spec : ∀ {entry w ws}, Rep entry.values (w :: ws) →
    ∃ popped, pop entry = some popped ∧ Rep popped.values ws
  merge_spec : ∀ {entry w w' ws}, Rep entry.values (w :: w' :: ws) →
    ∃ merged, merge entry = some merged ∧ Rep merged.values (w :: ws)

section

variable {K V W : Type} [Ord K]
variable {pop merge : OverlayedEntry V → Option (OverlayedEntry V)}

theorem VersionTheory.transactions_ne_nil (theory : VersionTheory V W pop merge)
    {entry : OverlayedEntry V} {w : W} {ws : List W} (h : theory.Rep entry.values (w :: ws)) :
    entry.transactions ≠ [] := by
  intro hnil
  have hlen := theory.length_eq h
  simp [OverlayedEntry.values, hnil] at hlen

namespace OverlayedMap

/-- The execution mode, the client's share and the depth are equal. -/
def SameControl (map map' : OverlayedMap K V) : Prop :=
  map'.dirtyKeys.length = map.dirtyKeys.length ∧
    map'.numClientTransactions = map.numClientTransactions ∧
    map'.executionMode = map.executionMode

theorem SameControl.trans {a b c : OverlayedMap K V} (hab : SameControl a b)
    (hbc : SameControl b c) : SameControl a c :=
  ⟨hbc.1.trans hab.1, hbc.2.1.trans hab.2.1, hbc.2.2.trans hab.2.2⟩

variable [TransOrd K]

def flagsOf (map : OverlayedMap K V) (key : K) : List Bool := map.dirtyKeys.map (·.contains key)

def versionsOf (map : OverlayedMap K V) (key : K) : List V := (map.entryOrDefault key).values

/-- The entry of one key represents a column of the stack. -/
structure At (theory : VersionTheory V W pop merge) (map : OverlayedMap K V) (key : K)
    (column : List (Option W)) : Prop where
  nonempty : ∀ entry, map.changes[key]? = some entry → entry.transactions ≠ []
  rep : ∃ ws, theory.Rep (map.versionsOf key) ws ∧ Column (map.flagsOf key) ws column

/-- Every key of the map represents its column, at equal depth. -/
structure Refines (theory : VersionTheory V W pop merge) (map : OverlayedMap K V)
    (stack : Stack K W) : Prop where
  depth : stack.below.length = map.dirtyKeys.length
  at_key : ∀ key, At theory map key (stack.column key)

def SameAt (map map' : OverlayedMap K V) (key : K) : Prop :=
  map'.changes[key]? = map.changes[key]? ∧ map'.flagsOf key = map.flagsOf key

theorem versionsOf_eq_of_changes {map map' : OverlayedMap K V} {key : K}
    (h : map'.changes[key]? = map.changes[key]?) : map'.versionsOf key = map.versionsOf key := by
  simp only [versionsOf, entryOrDefault, h]

variable {map : OverlayedMap K V}

theorem versionsOf_of_getElem? {key : K} {entry : OverlayedEntry V}
    (h : map.changes[key]? = some entry) : map.versionsOf key = entry.values := by
  simp [versionsOf, entryOrDefault, h]

theorem versionsOf_of_none {key : K} (h : map.changes[key]? = none) : map.versionsOf key = [] := by
  simp [versionsOf, entryOrDefault, h, OverlayedEntry.values]

variable {theory : VersionTheory V W pop merge} {column : List (Option W)}

theorem SameAt.at_key {map map' : OverlayedMap K V} {key : K} (h : SameAt map map' key)
    (hat : At theory map key column) :
    At theory map' key column := by
  refine ⟨?_, ?_⟩
  · intro entry hentry
    exact hat.nonempty entry (h.1 ▸ hentry)
  · rw [versionsOf_eq_of_changes h.1, h.2]
    exact hat.rep

theorem exists_entry_of_rep (theory : VersionTheory V W pop merge) {key : K} {w : W} {ws : List W}
    (h : theory.Rep (map.versionsOf key) (w :: ws)) :
    ∃ entry, map.changes[key]? = some entry := by
  cases hget : map.changes[key]? with
  | some entry => exact ⟨entry, rfl⟩
  | none =>
    have hlen := theory.length_eq h
    simp [versionsOf_of_none hget] at hlen

theorem insertDirty_snd_length (dirtyKeys : List (ExtTreeSet K)) (key : K) :
    (insertDirty dirtyKeys key).2.length = dirtyKeys.length := by
  cases dirtyKeys <;> rfl

theorem putBack_control (map : OverlayedMap K V) (key : K) (entry : OverlayedEntry V) :
    (map.putBack key entry).dirtyKeys = map.dirtyKeys ∧ SameControl map
    (map.putBack key entry) := by
  unfold putBack
  split <;> exact ⟨rfl, rfl, rfl, rfl⟩

/-- Without permission or without a transaction, closing is an error. -/
def mayClose (map : OverlayedMap K V) : Prop :=
  ¬ (map.executionMode = .runtime ∧ ¬ map.hasOpenRuntimeTransactions) ∧ map.dirtyKeys ≠ []

theorem closeWith_error (map : OverlayedMap K V) (rolledBack : Bool) (h : ¬ map.mayClose) :
    closeWith pop merge map rolledBack = some (.error .noOpenTransaction) := by
  unfold closeWith
  split
  · rfl
  · rename_i hmode
    have hnil : map.dirtyKeys = [] := by
      by_contra hne
      exact h ⟨hmode, hne⟩
    simp [hnil]

/-! ## Starting a transaction -/

theorem refines_empty (theory : VersionTheory V W pop merge) :
    Refines theory (empty : OverlayedMap K V) Stack.empty := by
  refine ⟨rfl, fun key => ⟨?_, ?_⟩⟩
  · intro entry hentry
    simp [empty] at hentry
  · refine ⟨[], ?_, ?_⟩
    · simpa [versionsOf, entryOrDefault, empty, OverlayedEntry.values] using theory.rep_nil
    · exact .absent

theorem flagsOf_startTransaction (map : OverlayedMap K V) (key : K) :
    map.startTransaction.flagsOf key = false :: map.flagsOf key := by
  simp [flagsOf, startTransaction]

theorem Refines.startTransaction {stack : Stack K W} (h : Refines theory map stack) :
    Refines theory map.startTransaction stack.start := by
  refine ⟨by simpa [OverlayedMap.startTransaction, Stack.start] using h.depth, fun key => ?_⟩
  obtain ⟨hne, ws, hrep, hcol⟩ := h.at_key key
  refine ⟨hne, ws, hrep, ?_⟩
  rw [flagsOf_startTransaction, Stack.column_start]
  exact .clean hcol

/-! ## Writing -/

variable [LawfulEqOrd K]

theorem versionsOf_insert_self (map : OverlayedMap K V) (key : K) (entry : OverlayedEntry V)
    (dirtyKeys : List (ExtTreeSet K)) :
    ({ map with changes := map.changes.insert key entry, dirtyKeys } :
      OverlayedMap K V).versionsOf key = entry.values := by
  simp [versionsOf, entryOrDefault]

variable {key other : K}

theorem getElem?_insert_other (map : OverlayedMap K V) (entry : OverlayedEntry V)
    (h : other ≠ key) : (map.changes.insert key entry)[other]? = map.changes[other]? := by
  rw [ExtTreeMap.getElem?_insert, if_neg]
  simpa using fun heq => h heq.symm

theorem getElem?_erase_other (map : OverlayedMap K V) (h : other ≠ key) :
    (map.changes.erase key)[other]? = map.changes[other]? := by
  rw [ExtTreeMap.getElem?_erase, if_neg]
  simpa using fun heq => h heq.symm

variable (dirtyKeys : List (ExtTreeSet K))

theorem flags_insertDirty_other (h : other ≠ key) :
    (insertDirty dirtyKeys key).2.map (·.contains other) = dirtyKeys.map (·.contains other) := by
  cases dirtyKeys with
  | nil => rfl
  | cons dirty older =>
    have hne : ¬ compare key other = .eq := by simpa using fun heq => h heq.symm
    simp [insertDirty, ExtTreeSet.contains_insert, hne]

theorem insertDirty_cases (key : K) :
    (dirtyKeys = [] ∧ insertDirty dirtyKeys key = (false, [])) ∨
    (∃ flags, dirtyKeys.map (·.contains key) = true :: flags ∧
      (insertDirty dirtyKeys key).1 = false ∧
      (insertDirty dirtyKeys key).2.map (·.contains key) = true :: flags) ∨
    (∃ flags, dirtyKeys.map (·.contains key) = false :: flags ∧
      (insertDirty dirtyKeys key).1 = true ∧
      (insertDirty dirtyKeys key).2.map (·.contains key) = true :: flags) := by
  cases dirtyKeys with
  | nil => exact .inl ⟨rfl, rfl⟩
  | cons dirty older =>
    refine .inr ?_
    cases hflag : dirty.contains key with
    | true =>
      exact .inl ⟨older.map (·.contains key), by simp [hflag], by simp [insertDirty, hflag],
        by simp [insertDirty]⟩
    | false =>
      exact .inr ⟨older.map (·.contains key), by simp [hflag], by simp [insertDirty, hflag],
        by simp [insertDirty]⟩

/-- A write of one new value on top, or in place of the newest one, refines a write to the stack. -/
theorem At.write {key : K} {c : Option W} (h : At theory map key (c :: column)) (w : W)
    {entry : OverlayedEntry V} (hpush : ∀ ws, theory.Rep (map.versionsOf key) ws → c = ws.head? →
      (insertDirty map.dirtyKeys key).1 = true ∨ ws = [] → theory.Rep entry.values (w :: ws))
    (hreplace : ∀ old ws, theory.Rep (map.versionsOf key) (old :: ws) → c = some old →
      (insertDirty map.dirtyKeys key).1 = false → theory.Rep entry.values (w :: ws)) :
    At theory { map with
      changes := map.changes.insert key entry
      dirtyKeys := (insertDirty map.dirtyKeys key).2 } key (some w :: column) := by
  obtain ⟨hne, ws, hrep, hcol⟩ := h
  have hmain : ∃ older, theory.Rep entry.values (w :: older) ∧
      Column ((insertDirty map.dirtyKeys key).2.map (·.contains key)) (w :: older)
        (some w :: column) := by
    rcases insertDirty_cases map.dirtyKeys key with ⟨hnil, hflag⟩ | ⟨flags, hold, hflag, hnew⟩ |
      ⟨flags, hold, hflag, hnew⟩
    · -- no transaction is open: the committed version is replaced
      have hflags : map.flagsOf key = [] := by simp [flagsOf, hnil]
      rw [hflags] at hcol
      refine ⟨[], ?_, ?_⟩
      · cases hcol with
        | absent => exact hpush [] hrep rfl (.inr rfl)
        | committed old => exact hreplace old [] hrep rfl (by rw [hflag])
      · simpa [hflag] using hcol.committed_of_nil w
    · rw [flagsOf, hold] at hcol
      have hhead := hcol.head
      obtain ⟨old, older, rest, rfl, hc, hbelow⟩ := hcol.dirty_cons
      refine ⟨older, hreplace old older hrep hhead hflag, ?_⟩
      rw [hnew]
      cases hc
      exact .dirty w hbelow
    · rw [flagsOf, hold] at hcol
      refine ⟨ws, hpush ws hrep hcol.head (.inl hflag), ?_⟩
      rw [hnew]
      exact hcol.firstWrite w
  obtain ⟨older, hrep', hcol'⟩ := hmain
  refine ⟨?_, w :: older, ?_, hcol'⟩
  · intro other hother
    obtain rfl : entry = other := by simpa using hother
    exact theory.transactions_ne_nil hrep'
  · rw [versionsOf_insert_self]
    exact hrep'

theorem sameAt_write (map : OverlayedMap K V) (entry : OverlayedEntry V) (h : other ≠ key) :
    SameAt map { map with
      changes := map.changes.insert key entry
      dirtyKeys := (insertDirty map.dirtyKeys key).2 } other :=
  ⟨getElem?_insert_other map entry h, flags_insertDirty_other map.dirtyKeys h⟩

theorem Refines.write [DecidableEq K] {stack : Stack K W} (h : Refines theory map stack) (key : K)
    (w : W) {entry : OverlayedEntry V}
    (hpush : ∀ ws, theory.Rep (map.versionsOf key) ws → stack.top key = ws.head? →
      (insertDirty map.dirtyKeys key).1 = true ∨ ws = [] → theory.Rep entry.values (w :: ws))
    (hreplace : ∀ old ws, theory.Rep (map.versionsOf key) (old :: ws) →
      stack.top key = some old → (insertDirty map.dirtyKeys key).1 = false →
      theory.Rep entry.values (w :: ws)) :
    Refines theory { map with
      changes := map.changes.insert key entry
      dirtyKeys := (insertDirty map.dirtyKeys key).2 } (stack.write key w) := by
  refine ⟨?_, fun other => ?_⟩
  · rw [insertDirty_snd_length]
    exact h.depth
  · by_cases heq : other = key
    · subst heq
      rw [Stack.column_write_self]
      exact (h.at_key other).write w hpush hreplace
    · rw [Stack.column_write_other stack w heq]
      exact (sameAt_write map entry heq).at_key (h.at_key other)

/-! ## Closing a transaction -/

theorem putBack_other (map : OverlayedMap K V) (entry : OverlayedEntry V) (h : other ≠ key) :
    SameAt map (map.putBack key entry) other := by
  unfold putBack
  split
  · exact ⟨getElem?_erase_other map h, rfl⟩
  · exact ⟨getElem?_insert_other map entry h, rfl⟩

theorem putBack_self (map : OverlayedMap K V) (key : K) (entry : OverlayedEntry V) :
    (map.putBack key entry).versionsOf key = entry.values ∧
      ∀ stored, (map.putBack key entry).changes[key]? = some stored →
        stored.transactions ≠ [] := by
  unfold putBack
  split
  · rename_i hempty
    have hnil : entry.transactions = [] := by simpa using hempty
    refine ⟨?_, ?_⟩
    · rw [versionsOf_of_none (by simp), OverlayedEntry.values, hnil, List.map_nil]
    · intro stored hstored
      simp at hstored
  · rename_i hempty
    refine ⟨versionsOf_of_getElem? (by simp), ?_⟩
    intro stored hstored
    obtain rfl : entry = stored := by simpa using hstored
    simpa using hempty

/-- `map` has its innermost dirty set already removed, so the key's flags are those of the enclosing
transactions under a leading `true`. -/
theorem closeKey_spec (theory : VersionTheory V W pop merge) {key : K} {ws : List W}
    (rolledBack : Bool) (hrep : theory.Rep (map.versionsOf key) ws)
    (hcol : Column (true :: map.flagsOf key) ws column) :
    ∃ closed, closeKey pop merge rolledBack map key = some closed ∧
      At theory closed key (closeColumn rolledBack column) ∧
      (∀ other, other ≠ key → SameAt map closed other) ∧ SameControl map closed := by
  obtain ⟨w, older, rest, rfl, rfl, hbelow⟩ := hcol.dirty_cons
  obtain ⟨entry, hentry⟩ := exists_entry_of_rep theory hrep
  rw [versionsOf_of_getElem? hentry] at hrep
  cases rolledBack with
  | true =>
    obtain ⟨popped, hpop, hpopped⟩ := theory.pop_spec hrep
    have hself := putBack_self map key popped
    have hctl := putBack_control map key popped
    refine ⟨map.putBack key popped, ?_, ⟨hself.2, older, ?_, ?_⟩, ?_, hctl.2⟩
    · simp [closeKey, hentry, hpop]
    · rw [hself.1]
      exact hpopped
    · rw [flagsOf, hctl.1]
      exact hbelow
    · intro other hother
      exact putBack_other map popped hother
  | false =>
    -- the versions stay, or the two newest ones merge; both make the key dirty outside
    have hflagsOther : ∀ other, other ≠ key →
        (map.hasPredecessor key entry).2.map (·.contains other) = map.flagsOf other := by
      intro other hother
      have hne : ¬ compare key other = .eq := by simpa using fun heq => hother heq.symm
      unfold hasPredecessor flagsOf
      cases map.dirtyKeys with
      | nil => rfl
      | cons dirty outer => simp [ExtTreeSet.contains_insert, hne]
    have hlength : (map.hasPredecessor key entry).2.length = map.dirtyKeys.length := by
      unfold hasPredecessor
      cases map.dirtyKeys <;> rfl
    by_cases hpred : (map.hasPredecessor key entry).1 = true
    · have hmerge : ∃ older', theory.Rep entry.values (w :: older) ∧
          ∃ w', older = w' :: older' ∧
            Column ((map.hasPredecessor key entry).2.map (·.contains key)) (w :: older')
              (closeColumn false (some w :: rest)) := by
        cases hdirty : map.dirtyKeys with
        | nil =>
          have hflags : map.flagsOf key = [] := by simp [flagsOf, hdirty]
          rw [hflags] at hcol hbelow
          have hlen := theory.length_eq hrep
          have hmany : 1 < entry.transactions.length := by
            simpa [hasPredecessor, hdirty] using hpred
          simp only [OverlayedEntry.values, List.length_map, List.length_cons] at hlen
          cases hbelow with
          | absent => simp at hlen; omega
          | committed w' =>
            refine ⟨[], hrep, w', rfl, ?_⟩
            simpa [hasPredecessor, hdirty, closeColumn] using Column.committed w
        | cons dirty outer =>
          have hcontains : dirty.contains key = true := by
            simpa [hasPredecessor, hdirty] using hpred
          have hflags : map.flagsOf key = true :: outer.map (·.contains key) := by
            simp [flagsOf, hdirty, hcontains]
          rw [hflags] at hcol
          obtain ⟨_, w', older', heq, hmerged⟩ := hcol.commit_merge
          obtain ⟨rfl, rfl⟩ : w = _ ∧ older = w' :: older' := by simpa using heq
          refine ⟨older', hrep, w', rfl, ?_⟩
          simpa [hasPredecessor, hdirty] using hmerged
      obtain ⟨older', hrep', w', rfl, hcol'⟩ := hmerge
      obtain ⟨merged, hmerged, hrepMerged⟩ := theory.merge_spec hrep'
      refine ⟨{ map with
          changes := map.changes.insert key merged
          dirtyKeys := (map.hasPredecessor key entry).2 }, ?_, ⟨?_, w :: older', ?_, hcol'⟩, ?_,
        hlength, rfl, rfl⟩
      · simp [closeKey, hentry, hpred, hmerged]
      · intro stored hstored
        obtain rfl : merged = stored := by simpa using hstored
        exact theory.transactions_ne_nil hrepMerged
      · rw [versionsOf_insert_self]
        exact hrepMerged
      · intro other hother
        exact ⟨getElem?_insert_other map merged hother, hflagsOther other hother⟩
    · have hmove : Column ((map.hasPredecessor key entry).2.map (·.contains key)) (w :: older)
          (closeColumn false (some w :: rest)) := by
        cases hdirty : map.dirtyKeys with
        | nil =>
          have hflags : map.flagsOf key = [] := by simp [flagsOf, hdirty]
          rw [hflags] at hbelow
          have hlen := theory.length_eq hrep
          have hone : ¬ 1 < entry.transactions.length := by
            simpa [hasPredecessor, hdirty] using hpred
          simp only [OverlayedEntry.values, List.length_map, List.length_cons] at hlen
          cases hbelow with
          | absent => simpa [hasPredecessor, hdirty, closeColumn] using Column.committed w
          | committed w' => simp at hlen; omega
        | cons dirty outer =>
          have hcontains : dirty.contains key = false := by
            simpa only [hasPredecessor, hdirty, Bool.not_eq_true] using hpred
          have hflags : map.flagsOf key = false :: outer.map (·.contains key) := by
            simp [flagsOf, hdirty, hcontains]
          rw [hflags] at hcol
          simpa [hasPredecessor, hdirty] using hcol.commit_move
      refine ⟨{ map with dirtyKeys := (map.hasPredecessor key entry).2 }, ?_,
        ⟨?_, w :: older, ?_, hmove⟩, ?_, hlength, rfl, rfl⟩
      · simp [closeKey, hentry, hpred]
      · intro stored hstored
        obtain rfl : entry = stored := by simpa [hentry] using hstored
        exact theory.transactions_ne_nil hrep
      · change theory.Rep (map.versionsOf key) (w :: older)
        rw [versionsOf_of_getElem? hentry]
        exact hrep
      · intro other hother
        exact ⟨rfl, hflagsOther other hother⟩

theorem closeKeys_spec (theory : VersionTheory V W pop merge) (rolledBack : Bool)
    (columns : K → List (Option W)) (keys : List K) (hnodup : keys.Nodup)
    (map : OverlayedMap K V)
    (hdirty : ∀ key ∈ keys, ∃ ws, theory.Rep (map.versionsOf key) ws ∧
      Column (true :: map.flagsOf key) ws (columns key)) :
    ∃ closed, keys.foldlM (closeKey pop merge rolledBack) map = some closed ∧
      (∀ key ∈ keys, At theory closed key (closeColumn rolledBack (columns key))) ∧
      (∀ other, other ∉ keys → SameAt map closed other) ∧ SameControl map closed := by
  induction keys generalizing map with
  | nil => exact ⟨map, rfl, by simp, fun _ _ => ⟨rfl, rfl⟩, rfl, rfl, rfl⟩
  | cons key keys ih =>
    obtain ⟨hnot, hnodup⟩ := List.nodup_cons.mp hnodup
    obtain ⟨ws, hrep, hcol⟩ := hdirty key (by simp)
    obtain ⟨mid, hmid, hat, hother, hctl⟩ := closeKey_spec theory rolledBack hrep hcol
    have hrest : ∀ other ∈ keys, ∃ ws, theory.Rep (mid.versionsOf other) ws ∧
        Column (true :: mid.flagsOf other) ws (columns other) := by
      intro other hmem
      have hne : other ≠ key := fun heq => hnot (heq ▸ hmem)
      obtain ⟨hchanges, hflags⟩ := hother other hne
      rw [versionsOf_eq_of_changes hchanges, hflags]
      exact hdirty other (by simp [hmem])
    obtain ⟨closed, hclosed, hats, hsame, hctl'⟩ := ih hnodup mid hrest
    refine ⟨closed, by simp [List.foldlM_cons, hmid, hclosed], ?_, ?_, hctl.trans hctl'⟩
    · intro other hmem
      rcases List.mem_cons.mp hmem with rfl | hmem
      · exact (hsame other hnot).at_key hat
      · exact hats other hmem
    · intro other hmem
      obtain ⟨hne, hnotin⟩ : other ≠ key ∧ other ∉ keys := by simpa using hmem
      obtain ⟨hc, hf⟩ := hother other hne
      obtain ⟨hc', hf'⟩ := hsame other hnotin
      exact ⟨hc'.trans hc, hf'.trans hf⟩

/-- Closing the innermost transaction of a map that refines a stack succeeds, and
refines closing the stack. -/
theorem Refines.closeWith {stack : Stack K W} (h : Refines theory map stack) (rolledBack : Bool)
    (hmay : map.mayClose) :
    ∃ closed stack', OverlayedMap.closeWith pop merge map rolledBack = some (.ok closed) ∧
      stack.close rolledBack = some stack' ∧ Refines theory closed stack' ∧
      closed.dirtyKeys.length + 1 = map.dirtyKeys.length ∧
      closed.numClientTransactions = map.numClientTransactions ∧
      closed.executionMode = map.executionMode := by
  obtain ⟨hmode, hopen⟩ := hmay
  obtain ⟨keys, older, hdirtyKeys⟩ := List.exists_cons_of_ne_nil hopen
  have hclose : ∃ stack', stack.close rolledBack = some stack' := by
    obtain ⟨top, below⟩ := stack
    cases below with
    | nil =>
      have hdepth := h.depth
      simp [hdirtyKeys] at hdepth
    | cons restored below => cases rolledBack <;> simp [Stack.close, Stack.commit, Stack.rollback]
  obtain ⟨stack', hstack'⟩ := hclose
  have hflags : ∀ key, map.flagsOf key =
      keys.contains key :: ({ map with dirtyKeys := older } : OverlayedMap K V).flagsOf key := by
    intro key
    simp [flagsOf, hdirtyKeys]
  have hdirty : ∀ key ∈ keys.toList, ∃ ws,
      theory.Rep (({ map with dirtyKeys := older } : OverlayedMap K V).versionsOf key) ws ∧
      Column (true :: ({ map with dirtyKeys := older } : OverlayedMap K V).flagsOf key) ws
        (stack.column key) := by
    intro key hmem
    obtain ⟨ws, hrep, hcol⟩ := (h.at_key key).rep
    have hcontains : keys.contains key = true := by simpa using hmem
    rw [hflags, hcontains] at hcol
    exact ⟨ws, hrep, hcol⟩
  have hnodup : keys.toList.Nodup := by
    have hdistinct := keys.distinct_toList
    simpa [List.nodup_iff_pairwise_ne] using hdistinct
  obtain ⟨closed, hclosed, hin, hout, hctl⟩ :=
    closeKeys_spec theory rolledBack stack.column keys.toList hnodup _ hdirty
  refine ⟨closed, stack', ?_, hstack', ⟨?_, ?_⟩, ?_, hctl.2⟩
  · unfold OverlayedMap.closeWith
    rw [if_neg hmode]
    simp [hdirtyKeys, hclosed]
  · have hdepth := h.depth
    have hlen := hctl.1
    rw [hdirtyKeys] at hdepth
    obtain ⟨top, below⟩ := stack
    cases below with
    | nil => simp at hdepth
    | cons restored below =>
      cases rolledBack <;>
        simp only [Stack.close, Stack.commit, Stack.rollback, Option.some.injEq] at hstack' <;>
        subst hstack' <;> simpa [hlen] using hdepth
  · intro key
    rw [Stack.column_close hstack' key]
    by_cases hmem : key ∈ keys.toList
    · exact hin key hmem
    · apply (hout key hmem).at_key
      obtain ⟨hne, ws, hrep, hcol⟩ := h.at_key key
      have hcontains : keys.contains key = false := by
        rw [← Bool.not_eq_true]
        simpa using hmem
      rw [hflags, hcontains] at hcol
      exact ⟨hne, ws, hrep, hcol.close_clean rolledBack⟩
  · rw [hctl.1, hdirtyKeys, List.length_cons]

end OverlayedMap

end

end PolkadotSdk.StateMachine
