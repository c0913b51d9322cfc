import PolkadotSdk.StateMachine.Changeset.Refinement

/-! # Changesets in lockstep

Whether a transaction can be started or closed depends on three numbers of a
changeset only, its `Control`. Maps with equal controls therefore succeed or fail
together. The rest of the file says what each operation does to the values a
changeset shows.
-/

namespace PolkadotSdk.StateMachine

open Std MapStack

structure Control where
  depth : Nat
  numClientTransactions : Nat
  executionMode : ExecutionMode

namespace Control

/-- The same check as in `OverlayedMap.mayClose`, on the numbers. -/
def mayClose (control : Control) : Prop :=
  ¬ (control.executionMode = .runtime ∧ ¬ control.numClientTransactions < control.depth) ∧
    control.depth ≠ 0

def start (control : Control) : Control := { control with depth := control.depth + 1 }

def close (control : Control) : Control := { control with depth := control.depth - 1 }

def enter (control : Control) : Control :=
  { control with executionMode := .runtime, numClientTransactions := control.depth }

def exit (control : Control) : Control :=
  { control with
    executionMode := .client
    depth := min control.depth control.numClientTransactions }

end Control

namespace OverlayedMap

section Generic

variable {K V W : Type} [Ord K]
variable {pop merge : OverlayedEntry V → Option (OverlayedEntry V)}
variable {theory : VersionTheory V W pop merge} {map map' : OverlayedMap K V}

def control (map : OverlayedMap K V) : Control :=
  ⟨map.dirtyKeys.length, map.numClientTransactions, map.executionMode⟩

theorem hasOpenRuntimeTransactions_iff : map.hasOpenRuntimeTransactions = true ↔
    map.numClientTransactions < map.dirtyKeys.length := decide_eq_true_iff

theorem SameControl.control_eq (h : SameControl map map') : map'.control = map.control := by
  simp [control, h.1, h.2.1, h.2.2]

theorem control_close (hdepth : map'.dirtyKeys.length + 1 = map.dirtyKeys.length)
    (hnum : map'.numClientTransactions = map.numClientTransactions)
    (hmode : map'.executionMode = map.executionMode) : map'.control = map.control.close := by
  simp only [control, Control.close, hnum, hmode, Control.mk.injEq, and_true]
  omega

theorem mayClose_iff : map.mayClose ↔ map.control.mayClose := by
  simp only [mayClose, Control.mayClose, control, hasOpenRuntimeTransactions_iff, ne_eq,
    List.length_eq_zero_iff]

variable [TransOrd K]

def Sound (theory : VersionTheory V W pop merge) (map : OverlayedMap K V) : Prop :=
  ∃ stack, Refines theory map stack

theorem sound_empty (theory : VersionTheory V W pop merge) :
    Sound theory (empty : OverlayedMap K V) := ⟨_, refines_empty theory⟩

theorem Sound.spawnChild (theory : VersionTheory V W pop merge) (map : OverlayedMap K V) :
    Sound theory map.spawnChild := by
  refine ⟨⟨fun _ => none, map.dirtyKeys.map fun _ _ => none⟩, by simp [OverlayedMap.spawnChild],
    fun key => ⟨?_, [], ?_, ?_⟩⟩
  · intro entry hentry
    simp [OverlayedMap.spawnChild] at hentry
  · simpa [versionsOf, entryOrDefault, OverlayedMap.spawnChild, OverlayedEntry.values] using
      theory.rep_nil
  · simp only [flagsOf, OverlayedMap.spawnChild, Stack.column, List.map_map]
    induction map.dirtyKeys with
    | nil => exact .absent
    | cons dirty older ih =>
      simp only [List.map_cons, Function.comp_apply]
      have hclean : (∅ : ExtTreeSet K).contains key = false := by simp
      rw [hclean]
      exact .clean ih

theorem Sound.startTransaction (h : Sound theory map) : Sound theory map.startTransaction := by
  obtain ⟨stack, href⟩ := h
  exact ⟨_, href.startTransaction⟩

theorem closeWith_control_error (rolledBack : Bool) (h : ¬ map.control.mayClose) :
    OverlayedMap.closeWith pop merge map rolledBack = some (.error .noOpenTransaction) :=
  closeWith_error map rolledBack fun hmay => h (mayClose_iff.mp hmay)

theorem Sound.withMode (h : Sound theory map) (numClientTransactions : Nat)
    (executionMode : ExecutionMode) :
    Sound theory { map with numClientTransactions, executionMode } := by
  obtain ⟨stack, href⟩ := h
  refine ⟨stack, href.depth, fun key => ?_⟩
  have hsame : SameAt map { map with numClientTransactions, executionMode } key := ⟨rfl, rfl⟩
  exact hsame.at_key (href.at_key key)

theorem Sound.enterRuntime (h : Sound theory map) (hmode : map.executionMode = .client) :
    ∃ entered, OverlayedMap.enterRuntime map = .ok entered ∧ Sound theory entered ∧
      entered.control = map.control.enter ∧ entered.changes = map.changes :=
  ⟨_, by simp only [OverlayedMap.enterRuntime, hmode], h.withMode map.transactionDepth .runtime,
    rfl, rfl⟩

/-! ## Leaving the runtime -/

def danglingKeys (map : OverlayedMap K V) : List (ExtTreeSet K) :=
  map.dirtyKeys.take (map.dirtyKeys.length - map.numClientTransactions)

theorem rollbackDangling_changes (fuel : Nat) {rolled : OverlayedMap K V}
    (hclean : ∀ dirty ∈ map.danglingKeys, dirty = ∅)
    (h : OverlayedMap.rollbackDangling pop merge fuel map = some rolled) :
    rolled.changes = map.changes := by
  induction fuel generalizing map with
  | zero =>
    obtain rfl : map = rolled := by simpa [OverlayedMap.rollbackDangling] using h
    rfl
  | succ fuel ih =>
    simp only [OverlayedMap.rollbackDangling] at h
    split at h
    · rename_i hopen
      have hlt : map.numClientTransactions < map.dirtyKeys.length :=
        hasOpenRuntimeTransactions_iff.mp hopen
      obtain ⟨dirty, older, hdirty⟩ :=
        List.exists_cons_of_ne_nil (List.length_pos_iff.mp (by omega : 0 < map.dirtyKeys.length))
      have htake : map.danglingKeys =
          dirty :: older.take (older.length - map.numClientTransactions) := by
        rw [danglingKeys, hdirty, List.length_cons, Nat.succ_sub, List.take_succ_cons]
        rw [hdirty, List.length_cons] at hlt
        omega
      obtain rfl : dirty = ∅ := hclean dirty (by simp [htake])
      -- nothing was written in this transaction, so only its set is dropped
      have hclose : OverlayedMap.closeWith pop merge map true =
            some (.ok { map with dirtyKeys := older }) ∨
          OverlayedMap.closeWith pop merge map true = some (.error .noOpenTransaction) := by
        unfold OverlayedMap.closeWith
        split
        · exact .inr rfl
        · have hnil : (∅ : ExtTreeSet K).toList = [] := by
            simp
          exact .inl (by simp [hdirty, hnil])
      rcases hclose with hclose | hclose
      · rw [hclose] at h
        have hrest : ∀ d ∈ danglingKeys { map with dirtyKeys := older }, d = ∅ := by
          intro d hd
          exact hclean d (htake ▸ List.mem_cons_of_mem _ hd)
        have hchanges := ih hrest h
        exact hchanges
      · rw [hclose] at h
        cases h
    · obtain rfl : map = rolled := by simpa using h
      rfl

theorem exitWith_changes {exited : OverlayedMap K V}
    (hclean : ∀ dirty ∈ map.danglingKeys, dirty = ∅)
    (h : OverlayedMap.exitWith pop merge map = some (.ok exited)) :
    exited.changes = map.changes := by
  unfold OverlayedMap.exitWith at h
  split at h
  · cases h
  · simp only [Option.map_eq_some_iff, Except.ok.injEq] at h
    obtain ⟨rolled, hrolled, rfl⟩ := h
    let client : OverlayedMap K V := { map with executionMode := .client }
    have hclean' : ∀ dirty ∈ client.danglingKeys, dirty = ∅ := hclean
    have hchanges := rollbackDangling_changes map.transactionDepth hclean' hrolled
    exact hchanges

variable [LawfulEqOrd K]

theorem Sound.closeWith (h : Sound theory map) (rolledBack : Bool) (hmay : map.control.mayClose) :
    ∃ closed, OverlayedMap.closeWith pop merge map rolledBack = some (.ok closed) ∧
      Sound theory closed ∧ closed.control = map.control.close := by
  obtain ⟨stack, href⟩ := h
  obtain ⟨closed, stack', hclosed, _, href', hdepth, hnum, hmode⟩ :=
    href.closeWith rolledBack (mayClose_iff.mpr hmay)
  exact ⟨closed, hclosed, ⟨stack', href'⟩, control_close hdepth hnum hmode⟩

/-- Outside the runtime nothing protects the open transactions, so they are all
rolled back, down to the client's. -/
theorem Sound.rollbackDangling (fuel : Nat) (h : Sound theory map)
    (hmode : map.executionMode = .client)
    (hfuel : map.dirtyKeys.length ≤ map.numClientTransactions + fuel) :
    ∃ rolled, OverlayedMap.rollbackDangling pop merge fuel map = some rolled ∧
      Sound theory rolled ∧ rolled.control = map.control.exit := by
  induction fuel generalizing map with
  | zero =>
    refine ⟨map, rfl, h, ?_⟩
    simp only [control, Control.exit, hmode, Control.mk.injEq, and_true]
    omega
  | succ fuel ih =>
    by_cases hopen : map.hasOpenRuntimeTransactions = true
    · have hlt : map.numClientTransactions < map.dirtyKeys.length :=
        hasOpenRuntimeTransactions_iff.mp hopen
      have hmay : map.control.mayClose := by
        simp only [Control.mayClose, control, hmode]
        exact ⟨by simp, by omega⟩
      obtain ⟨closed, hclosed, hsound, hctl⟩ := h.closeWith true hmay
      have hparts : closed.dirtyKeys.length = map.dirtyKeys.length - 1 ∧
          closed.numClientTransactions = map.numClientTransactions ∧
          closed.executionMode = map.executionMode := by
        simpa [control, Control.close] using hctl
      obtain ⟨hdepth, hnum, hmode'⟩ := hparts
      obtain ⟨rolled, hrolled, hsound', hctl'⟩ :=
        ih hsound (hmode'.trans hmode) (by omega)
      refine ⟨rolled, by simp [OverlayedMap.rollbackDangling, hopen, hclosed, hrolled], hsound',
        hctl'.trans ?_⟩
      simp only [Control.exit, control, hnum, hdepth, Control.mk.injEq, and_true]
      omega
    · have hle : map.dirtyKeys.length ≤ map.numClientTransactions := by
        rw [hasOpenRuntimeTransactions_iff] at hopen
        omega
      refine ⟨map, by simp [OverlayedMap.rollbackDangling, hopen], h, ?_⟩
      simp only [control, Control.exit, hmode, Control.mk.injEq, and_true]
      omega

theorem Sound.exitWith (h : Sound theory map) (hmode : map.executionMode = .runtime) :
    ∃ exited, OverlayedMap.exitWith pop merge map = some (.ok exited) ∧
      Sound theory exited ∧ exited.control = map.control.exit := by
  have hclient := h.withMode map.numClientTransactions .client
  obtain ⟨exited, hexited, hsound, hctl⟩ :=
    hclient.rollbackDangling map.transactionDepth rfl (by simp [transactionDepth])
  exact ⟨exited, by simp [OverlayedMap.exitWith, hmode, hexited], hsound, hctl⟩

end Generic

/-! ## Offchain versions -/

/-- Offchain versions are the values themselves. -/
def offchainVersions (V : Type) :
    VersionTheory V V (popOffchain (V := V)) (mergeOffchain (V := V)) where
  Rep vs ws := vs = ws
  rep_nil := rfl
  length_eq h := by rw [h]
  pop_spec := by
    intro entry w ws h
    obtain ⟨transactions⟩ := entry
    cases transactions with
    | nil => simp [OverlayedEntry.values] at h
    | cons newest older =>
      refine ⟨⟨older⟩, rfl, ?_⟩
      simpa [OverlayedEntry.values] using (List.cons.inj h).2
  merge_spec := by
    intro entry w w' ws h
    obtain ⟨transactions⟩ := entry
    match transactions, h with
    | committed :: below :: older, h =>
      refine ⟨_, rfl, ?_⟩
      simp only [OverlayedEntry.values, List.map_cons, List.cons.injEq] at h ⊢
      exact ⟨h.1, h.2.2⟩
    | [_], h => simp [OverlayedEntry.values] at h
    | [], h => simp [OverlayedEntry.values] at h

section Offchain

variable {K V : Type} [Ord K] [TransOrd K] [LawfulEqOrd K] {map : OverlayedMap K V}

theorem Sound.closeTransactionOffchain (h : Sound (offchainVersions V) map) (rolledBack : Bool)
    (hmay : map.control.mayClose) :
    ∃ closed, OverlayedMap.closeTransactionOffchain map rolledBack = some (.ok closed) ∧
      Sound (offchainVersions V) closed ∧ closed.control = map.control.close :=
  h.closeWith rolledBack hmay

theorem Sound.exitRuntimeOffchain (h : Sound (offchainVersions V) map)
    (hmode : map.executionMode = .runtime) :
    ∃ exited, OverlayedMap.exitRuntimeOffchain map = some (.ok exited) ∧
      Sound (offchainVersions V) exited ∧ exited.control = map.control.exit :=
  h.exitWith hmode

theorem Sound.setOffchain (h : Sound (offchainVersions V) map) (key : K) (value : V)
    (atExtrinsic : Option Nat) :
    Sound (offchainVersions V) (OverlayedMap.setOffchain map key value atExtrinsic) ∧
      (OverlayedMap.setOffchain map key value atExtrinsic).control = map.control := by
  classical
  obtain ⟨stack, href⟩ := h
  refine ⟨⟨_, href.write key value ?_ ?_⟩,
    by simp [control, OverlayedMap.setOffchain, insertDirty_snd_length]⟩
  · rintro ws hrep - hfirst
    obtain rfl : (map.entryOrDefault key).values = ws := hrep
    change ((map.entryOrDefault key).setOffchain value (insertDirty map.dirtyKeys key).1
      atExtrinsic).values = _
    obtain hflag | hnil := hfirst
    · rw [hflag]
      rfl
    · rw [OverlayedEntry.values, List.map_eq_nil_iff] at hnil
      simp [OverlayedEntry.setOffchain, OverlayedEntry.values, hnil]
  · rintro old ws hrep - hagain
    have hrep : (map.entryOrDefault key).values = old :: ws := hrep
    change ((map.entryOrDefault key).setOffchain value (insertDirty map.dirtyKeys key).1
      atExtrinsic).values = _
    rw [hagain]
    obtain ⟨newest, older, htransactions, -, rfl⟩ := List.map_eq_cons_iff.mp hrep
    simp [OverlayedEntry.setOffchain, OverlayedEntry.values, htransactions]

end Offchain

/-! ## Shown values -/

section Storage

variable {codec : CompactCodec} {law : codec.Lawful} {map : OverlayedChangeSet}

/-- The values a changeset shows, `none` for a deletion. -/
def visible (codec : CompactCodec) (map : OverlayedChangeSet) :
    ExtTreeMap StorageKey (Option StorageValue) :=
  map.changes.map fun _ entry => entry.newest codec

theorem Refines.getElem?_visible {stack : ValueStack} (h : Refines (storageVersions law) map stack)
    (key : StorageKey) : (map.visible codec)[key]? = stack.top key := by
  rw [visible, ExtTreeMap.getElem?_map]
  cases hentry : map.changes[key]? with
  | none => exact (top_of_none h hentry).symm
  | some entry => exact newest_of_getElem? h hentry

theorem Refines.visible_eq {map' : OverlayedChangeSet} {stack stack' : ValueStack}
    (h : Refines (storageVersions law) map stack) (h' : Refines (storageVersions law) map' stack')
    (htop : stack'.top = stack.top) : map'.visible codec = map.visible codec := by
  apply ExtTreeMap.ext_getElem?
  intro key
  rw [h.getElem?_visible, h'.getElem?_visible, htop]

theorem Sound.set (h : Sound (storageVersions law) map) (key : StorageKey)
    (value : Option StorageValue) (atExtrinsic : Option Nat) :
    ∃ written, OverlayedMap.set codec map key value atExtrinsic = some written ∧
      Sound (storageVersions law) written ∧ written.control = map.control := by
  obtain ⟨stack, href⟩ := h
  obtain ⟨written, hset, href', hctl⟩ := href.set key value atExtrinsic
  exact ⟨written, hset, ⟨_, href'⟩, hctl.control_eq⟩

theorem Sound.appendStorage (h : Sound (storageVersions law) map) (key : StorageKey)
    (element : StorageValue) (init : Unit → StorageValue) (atExtrinsic : Option Nat) :
    Sound (storageVersions law)
      (OverlayedMap.appendStorage codec map key element init atExtrinsic) := by
  obtain ⟨stack, href⟩ := h
  exact ⟨_, href.appendStorage key element init atExtrinsic⟩

theorem control_appendStorage (codec : CompactCodec) (map : OverlayedChangeSet) (key : StorageKey)
    (element : StorageValue) (init : Unit → StorageValue) (atExtrinsic : Option Nat) :
    (OverlayedMap.appendStorage codec map key element init atExtrinsic).control =
      map.control := by
  simp [appendStorage_eq, control, insertDirty_snd_length]

theorem Sound.clearWhere (h : Sound (storageVersions law) map)
    (predicate : StorageKey → OverlayedValue → Bool) (atExtrinsic : Option Nat) :
    ∃ count cleared,
      OverlayedMap.clearWhere codec map predicate atExtrinsic = some (count, cleared) ∧
      Sound (storageVersions law) cleared ∧ cleared.control = map.control := by
  obtain ⟨stack, href⟩ := h
  obtain ⟨count, cleared, hclear, href', hctl⟩ := href.clearWhere predicate atExtrinsic
  exact ⟨count, cleared, hclear, ⟨_, href'⟩, hctl.control_eq⟩

theorem Sound.read (h : Sound (storageVersions law) map) (key : StorageKey) :
    ∃ value after, OverlayedMap.read codec map key = some (value, after) ∧
      Sound (storageVersions law) after ∧ after.control = map.control ∧
      after.visible codec = map.visible codec := by
  obtain ⟨stack, href⟩ := h
  obtain ⟨after, hread, href', hctl⟩ := href.read key
  exact ⟨_, after, hread, ⟨_, href'⟩, hctl.control_eq, href.visible_eq href' rfl⟩

theorem Sound.closeTransaction (h : Sound (storageVersions law) map) (rolledBack : Bool)
    (hmay : map.control.mayClose) :
    ∃ closed, OverlayedMap.closeTransaction codec map rolledBack = some (.ok closed) ∧
      Sound (storageVersions law) closed ∧ closed.control = map.control.close :=
  h.closeWith rolledBack hmay

theorem closeTransaction_error (rolledBack : Bool) (h : ¬ map.control.mayClose) :
    OverlayedMap.closeTransaction codec map rolledBack = some (.error .noOpenTransaction) :=
  closeWith_control_error rolledBack h

theorem Sound.commit (h : Sound (storageVersions law) map) (hmay : map.control.mayClose) :
    ∃ closed, OverlayedMap.closeTransaction codec map false = some (.ok closed) ∧
      Sound (storageVersions law) closed ∧ closed.control = map.control.close ∧
      closed.visible codec = map.visible codec := by
  obtain ⟨stack, href⟩ := h
  obtain ⟨closed, stack', hclosed, hstack', href', hdepth, hnum, hmode⟩ :=
    href.closeWith false (mayClose_iff.mpr hmay)
  refine ⟨closed, hclosed, ⟨stack', href'⟩, control_close hdepth hnum hmode,
    href.visible_eq href' ?_⟩
  obtain ⟨top, below⟩ := stack
  cases below with
  | nil => cases hstack'
  | cons restored below =>
    cases hstack'
    rfl

theorem Sound.exitRuntime (h : Sound (storageVersions law) map)
    (hmode : map.executionMode = .runtime) :
    ∃ exited, OverlayedMap.exitRuntime codec map = some (.ok exited) ∧
      Sound (storageVersions law) exited ∧ exited.control = map.control.exit ∧
      ((∀ dirty ∈ map.danglingKeys, dirty = ∅) → exited.visible codec = map.visible codec) := by
  obtain ⟨exited, hexited, hsound, hctl⟩ := h.exitWith hmode
  refine ⟨exited, hexited, hsound, hctl, fun hclean => ?_⟩
  simp [visible, exitWith_changes hclean hexited]

def materializeAll (codec : CompactCodec) (map : OverlayedChangeSet) : OverlayedChangeSet :=
  { map with changes := map.changes.map fun _ entry => entry.materialized codec }

theorem Sound.materializeAll (h : Sound (storageVersions law) map) :
    Sound (storageVersions law) (OverlayedMap.materializeAll codec map) ∧
      (OverlayedMap.materializeAll codec map).visible codec = map.visible codec := by
  obtain ⟨stack, href⟩ := h
  have href' : Refines (storageVersions law) (OverlayedMap.materializeAll codec map) stack :=
    ⟨href.depth, fun key => (href.at_key key).materialize (by simp)⟩
  exact ⟨⟨stack, href'⟩, href.visible_eq href' rfl⟩

end Storage

end OverlayedMap

end PolkadotSdk.StateMachine
