import PolkadotSdk.Lib.NextKey
import PolkadotSdk.StateMachine.OverlayedChanges.RootCache

/-! # The next key of the merged state

Externalities show the keys of the backend under the changes of the overlay. The key after a key
is found by walking the changes that come after it; the next key of the backend is asked for
again only where a change masks it. Reading a change materializes it.
-/

namespace PolkadotSdk.StateMachine

open Std MapEntries NextKey

attribute [local instance] lexOrd

/-- The keys of the top trie and of the child tries of a backend. -/
structure BackendKeys where
  top : ExtTreeSet StorageKey
  child : ChildInfo → ExtTreeSet StorageKey

namespace OverlayedMap

def changesAfter (map : OverlayedChangeSet) (key : StorageKey) : List StorageKey :=
  (entriesAfter map.changes key).map (·.1)

/-- Walk the changes until one of the two sides has a key. -/
def mergeChanges (codec : CompactCodec) (next : StorageKey → Option StorageKey) :
    List StorageKey → Option StorageKey → OverlayedChangeSet →
      Option (Option StorageKey × OverlayedChangeSet)
  | [], nextBackendKey, map => some (nextBackendKey, map)
  | overlayKey :: rest, nextBackendKey, map =>
    let cmp := nextBackendKey.map (compare · overlayKey)
    if cmp = some .lt then some (nextBackendKey, map)
    else
      (map.read codec overlayKey).bind fun (value, map) =>
        if value.join.isSome then some (some overlayKey, map)
        else if cmp = some .eq then mergeChanges codec next rest (next overlayKey) map
        else mergeChanges codec next rest nextBackendKey map

def findValue (codec : CompactCodec) :
    List StorageKey → OverlayedChangeSet → Option (Option StorageKey × OverlayedChangeSet)
  | [], map => some (none, map)
  | overlayKey :: rest, map =>
    (map.read codec overlayKey).bind fun (value, map) =>
      if value.join.isSome then some (some overlayKey, map) else findValue codec rest map

def nextKey (codec : CompactCodec) (next : StorageKey → Option StorageKey)
    (map : OverlayedChangeSet) (key : StorageKey) :
    Option (Option StorageKey × OverlayedChangeSet) :=
  match next key, map.changesAfter key with
  | nextBackendKey, [] => some (nextBackendKey, map)
  | some backendKey, overlayChanges => mergeChanges codec next overlayChanges backendKey map
  | none, overlayChanges => findValue codec overlayChanges map

end OverlayedMap

namespace OverlayedChanges

variable {Root Tx : Type}

def nextStorageKey (codec : StateCodec) (backend : BackendKeys)
    (changes : OverlayedChanges Root Tx) (key : StorageKey) :
    Option (Option StorageKey × OverlayedChanges Root Tx) :=
  (changes.top.nextKey codec.toCompactCodec (nextIn backend.top) key).map fun (next, top) =>
    (next, { changes with top })

def nextChildStorageKey (codec : StateCodec) (backend : BackendKeys)
    (changes : OverlayedChanges Root Tx) (childInfo : ChildInfo) (key : StorageKey) :
    Option (Option StorageKey × OverlayedChanges Root Tx) :=
  match changes.children[childInfo.storageKey]? with
  | none => some (nextIn (backend.child childInfo) key, changes)
  | some (changeset, info) =>
    (changeset.nextKey codec.toCompactCodec (nextIn (backend.child childInfo)) key).map
      fun (next, changeset) => (next, { changes with
        children := changes.children.insert childInfo.storageKey (changeset, info) })

def childShown (codec : StateCodec) (changes : OverlayedChanges Root Tx) (childInfo : ChildInfo) :
    ExtTreeMap StorageKey (Option StorageValue) :=
  (((changes.visible codec).children[childInfo.storageKey]?).map (·.2)).getD ∅

end OverlayedChanges

/-! ## One changeset -/

namespace OverlayedMap

variable {codec : CompactCodec} {law : codec.Lawful} {map : OverlayedChangeSet}

theorem Sound.read_visible (h : Sound (storageVersions law) map) (key : StorageKey) :
    ∃ after, map.read codec key = some ((map.visible codec)[key]?, after) ∧
      Sound (storageVersions law) after ∧ after.control = map.control ∧
      after.visible codec = map.visible codec := by
  obtain ⟨stack, href⟩ := h
  obtain ⟨after, hread, href', hctl⟩ := href.read key
  refine ⟨after, ?_, ⟨stack, href'⟩, hctl.control_eq, href.visible_eq href' rfl⟩
  rw [hread, href.getElem?_visible]

def marked (shown : ExtTreeMap StorageKey (Option StorageValue)) (keys : List StorageKey) :
    List (StorageKey × Bool) :=
  keys.map fun key => (key, shown[key]?.join.isSome)

theorem liveAfter_visible (key : StorageKey) :
    liveAfter (map.visible codec) key = marked (map.visible codec) (map.changesAfter key) := by
  unfold liveAfter marked changesAfter entriesAfter
  rw [List.map_map]
  unfold visible
  rw [ExtTreeMap.toList_map, List.filter_map, List.map_map]
  refine List.map_congr_left fun entry hentry => ?_
  have hget := ExtTreeMap.mem_toList_iff_getElem?_eq_some.mp (List.mem_of_mem_filter hentry)
  simp [ExtTreeMap.getElem?_map, hget]

theorem Sound.mergeChanges (h : Sound (storageVersions law) map)
    (next : StorageKey → Option StorageKey) (keys : List StorageKey) (below : Option StorageKey) :
    ∃ after, OverlayedMap.mergeChanges codec next keys below map =
        some (merge next (marked (map.visible codec) keys) below, after) ∧
      Sound (storageVersions law) after ∧ after.control = map.control ∧
      after.visible codec = map.visible codec := by
  induction keys generalizing map below with
  | nil => exact ⟨map, rfl, h, rfl, rfl⟩
  | cons key rest ih =>
    obtain ⟨read, hread, hsound, hctl, hvisible⟩ := h.read_visible key
    unfold OverlayedMap.mergeChanges marked
    rw [List.map_cons, merge, hread]
    dsimp only [Option.bind_some]
    split_ifs with hless hlive hequal
    · exact ⟨map, rfl, h, rfl, rfl⟩
    · exact ⟨read, rfl, hsound, hctl, hvisible⟩
    · obtain ⟨after, hmerge, hsound', hctl', hvisible'⟩ := ih hsound (next key)
      rw [hvisible] at hmerge hvisible'
      exact ⟨after, hmerge, hsound', hctl'.trans hctl, hvisible'⟩
    · obtain ⟨after, hmerge, hsound', hctl', hvisible'⟩ := ih hsound below
      rw [hvisible] at hmerge hvisible'
      exact ⟨after, hmerge, hsound', hctl'.trans hctl, hvisible'⟩

theorem findValue_eq_mergeChanges (next : StorageKey → Option StorageKey) (keys : List StorageKey)
    (map : OverlayedChangeSet) :
    OverlayedMap.findValue codec keys map =
      OverlayedMap.mergeChanges codec next keys none map := by
  induction keys generalizing map with
  | nil => rfl
  | cons key rest ih => simp [OverlayedMap.findValue, OverlayedMap.mergeChanges, ih]

theorem Sound.nextKey (h : Sound (storageVersions law) map)
    (next : StorageKey → Option StorageKey) (key : StorageKey) :
    ∃ after, map.nextKey codec next key =
        some (nextMerged next (map.visible codec) key, after) ∧
      Sound (storageVersions law) after ∧ after.control = map.control ∧
      after.visible codec = map.visible codec := by
  unfold OverlayedMap.nextKey nextMerged
  rw [liveAfter_visible]
  split
  · rename_i hnil
    rw [hnil]
    exact ⟨map, rfl, h, rfl, rfl⟩
  · rename_i backendKey hsome _
    rw [hsome]
    exact h.mergeChanges next _ _
  · rename_i hnone _
    rw [hnone, findValue_eq_mergeChanges next]
    exact h.mergeChanges next _ _

end OverlayedMap

namespace OverlayedChanges

variable {Root Tx : Type} {codec : StateCodec} {law : codec.toCompactCodec.Lawful}
variable {backend : Backend Root Tx} {changes : OverlayedChanges Root Tx}

/-! ## All changesets -/

theorem Lockstep.nextStorageKey (h : Lockstep law changes) (keys : BackendKeys)
    (key : StorageKey) :
    ∃ after, changes.nextStorageKey codec keys key =
        some (nextMerged (nextIn keys.top) (changes.visible codec).top key, after) ∧
      Lockstep law after ∧ after.visible codec = changes.visible codec := by
  obtain ⟨top, hnext, hsound, hctl, hvisible⟩ := h.top.nextKey (nextIn keys.top) key
  refine ⟨{ changes with top }, ?_, h.withTop hsound hctl, ?_⟩
  · unfold OverlayedChanges.nextStorageKey
    rw [hnext]
    rfl
  · simp only [visible, hvisible]

theorem Lockstep.nextChildStorageKey (h : Lockstep law changes) (keys : BackendKeys)
    (childInfo : ChildInfo) (key : StorageKey) :
    ∃ after, changes.nextChildStorageKey codec keys childInfo key =
        some (nextMerged (nextIn (keys.child childInfo)) (changes.childShown codec childInfo) key,
          after) ∧
      Lockstep law after ∧ after.visible codec = changes.visible codec := by
  have hshown : changes.childShown codec childInfo =
      ((changes.children[childInfo.storageKey]?).map
        fun child => child.1.visible codec.toCompactCodec).getD ∅ := by
    simp only [childShown, visible, visibleChildren, ExtTreeMap.getElem?_map, Option.map_map]
    rfl
  unfold OverlayedChanges.nextChildStorageKey
  cases hchild : changes.children[childInfo.storageKey]? with
  | none =>
    refine ⟨changes, ?_, h, rfl⟩
    rw [hshown, hchild, Option.map_none, Option.getD_none, nextMerged_empty]
  | some child =>
    obtain ⟨changeset, info⟩ := child
    obtain ⟨hsound, hctl⟩ := h.child _ _ hchild
    obtain ⟨after, hnext, hsound', hctl', hvisible⟩ :=
      hsound.nextKey (nextIn (keys.child childInfo)) key
    refine ⟨{ changes with
      children := changes.children.insert childInfo.storageKey (after, info) }, ?_,
      h.insertChild _ hsound' (hctl'.trans hctl), ?_⟩
    · rw [hshown, hchild]
      dsimp only
      rw [hnext]
      rfl
    · simp only [visible, visibleChildren]
      congr 1
      refine ExtTreeMap.ext_getElem? fun other => ?_
      rw [ExtTreeMap.getElem?_map, ExtTreeMap.getElem?_map, ExtTreeMap.getElem?_insert]
      split
      · rename_i heq
        cases LawfulEqCmp.eq_of_compare heq
        rw [hchild]
        simp [hvisible]
      · rfl

/-! ## Runs -/

inductive KeyOp where
  | change (op : Op)
  | nextStorageKey (key : StorageKey)
  | nextChildStorageKey (childInfo : ChildInfo) (key : StorageKey)

def keyStep (codec : StateCodec) (backend : Backend Root Tx) (keys : BackendKeys)
    (changes : OverlayedChanges Root Tx) : KeyOp → Option (OverlayedChanges Root Tx)
  | .change op => step codec backend changes op
  | .nextStorageKey key => (changes.nextStorageKey codec keys key).map (·.2)
  | .nextChildStorageKey childInfo key =>
    (changes.nextChildStorageKey codec keys childInfo key).map (·.2)

theorem Lockstep.keyStep (h : Lockstep law changes) (backend : Backend Root Tx)
    (keys : BackendKeys) (op : KeyOp) :
    ∃ after, OverlayedChanges.keyStep codec backend keys changes op = some after ∧
      Lockstep law after := by
  cases op with
  | change op =>
    obtain ⟨after, hstep, hafter, -⟩ := h.step backend op
    exact ⟨after, hstep, hafter⟩
  | nextStorageKey key =>
    obtain ⟨after, hnext, hafter, -⟩ := h.nextStorageKey keys key
    exact ⟨after, by simp [OverlayedChanges.keyStep, hnext], hafter⟩
  | nextChildStorageKey childInfo key =>
    obtain ⟨after, hnext, hafter, -⟩ := h.nextChildStorageKey keys childInfo key
    exact ⟨after, by simp [OverlayedChanges.keyStep, hnext], hafter⟩

/-- The keys that a program finds by asking for the next one, against those it should find. -/
def Enumerates (P : StorageKey → Prop) (key : StorageKey) (found : List StorageKey) : Prop :=
  found.Pairwise (fun a b => compare a b = .lt) ∧
    ∀ other, other ∈ found ↔ P other ∧ compare key other = .lt

theorem enumerates_merged (keys : ExtTreeSet StorageKey)
    (shown : ExtTreeMap StorageKey (Option StorageValue)) (key : StorageKey) {fuel : Nat}
    (hfuel : shown.size + keys.size ≤ fuel) :
    Enumerates (Merged (· ∈ keys) shown) key
      (collect (nextMerged (nextIn keys) shown) fuel key) := by
  refine collect_spec (nextMerged_isNext (nextIn_isNext keys) shown) (shown.keys ++ keys.toList)
    ?_ ?_
  · intro other hother
    unfold Merged at hother
    cases hvalue : shown[other]? with
    | none =>
      rw [hvalue] at hother
      exact List.mem_append_right _ (ExtTreeSet.mem_toList.mpr hother)
    | some value =>
      refine List.mem_append_left _ (ExtTreeMap.mem_keys.mpr ?_)
      exact ExtTreeMap.mem_iff_isSome_getElem?.mpr (by rw [hvalue]; rfl)
  · refine Nat.le_trans (List.length_filter_le _ _) ?_
    rw [List.length_append, ExtTreeMap.length_keys, ExtTreeSet.length_toList]
    exact hfuel

/-- The next key is the least key after the given one that is visible in the merged state, and
asking again until there is none gives all visible keys in their order, also in every child trie. -/
theorem nextKey_sees_merged_state (codec : StateCodec) (law : codec.toCompactCodec.Lawful)
    (backend : Backend Root Tx) (keys : BackendKeys) (collectExtrinsics : Bool)
    (ops : List KeyOp) :
    ∃ changes, Run.exec (keyStep codec backend keys) (empty collectExtrinsics) ops =
        some changes ∧
      (∀ key,
        (∃ next after, changes.nextStorageKey codec keys key = some (next, after) ∧
          IsNext (Merged (· ∈ keys.top) (changes.visible codec).top) key next) ∧
        ∀ fuel, (changes.visible codec).top.size + keys.top.size ≤ fuel →
          ∃ found after, collectWith (nextStorageKey codec keys) fuel changes key =
              some (found, after) ∧
            Enumerates (Merged (· ∈ keys.top) (changes.visible codec).top) key found) ∧
      ∀ childInfo key,
        (∃ next after, changes.nextChildStorageKey codec keys childInfo key =
            some (next, after) ∧
          IsNext (Merged (· ∈ keys.child childInfo) (changes.childShown codec childInfo)) key
            next) ∧
        ∀ fuel, (changes.childShown codec childInfo).size + (keys.child childInfo).size ≤ fuel →
          ∃ found after,
            collectWith (fun changes => nextChildStorageKey codec keys changes childInfo) fuel
              changes key = some (found, after) ∧
            Enumerates (Merged (· ∈ keys.child childInfo) (changes.childShown codec childInfo))
              key found := by
  obtain ⟨changes, hexec, hlock⟩ := Run.exec_total (P := fun _ _ => True)
    (fun changes op (h : Lockstep law changes) _ => h.keyStep backend keys op)
    (lockstep_empty law collectExtrinsics) (Run.Along.of_forall (fun _ _ => trivial) _ ops)
  -- what is shown stays as it is while keys are asked for
  have htop : ∀ (state : OverlayedChanges Root Tx) key,
      Lockstep law state ∧ state.visible codec = changes.visible codec →
      ∃ after, nextStorageKey codec keys state key =
          some (nextMerged (nextIn keys.top) (changes.visible codec).top key, after) ∧
        Lockstep law after ∧ after.visible codec = changes.visible codec := by
    rintro state key ⟨hlock, hvisible⟩
    obtain ⟨after, hnext, hafter, hsame⟩ := hlock.nextStorageKey keys key
    exact ⟨after, by rw [hnext, hvisible], hafter, hsame.trans hvisible⟩
  have hchild : ∀ childInfo (state : OverlayedChanges Root Tx) key,
      Lockstep law state ∧ state.visible codec = changes.visible codec →
      ∃ after, nextChildStorageKey codec keys state childInfo key =
          some (nextMerged (nextIn (keys.child childInfo)) (changes.childShown codec childInfo) key,
            after) ∧
        Lockstep law after ∧ after.visible codec = changes.visible codec := by
    rintro childInfo state key ⟨hlock, hvisible⟩
    obtain ⟨after, hnext, hafter, hsame⟩ := hlock.nextChildStorageKey keys childInfo key
    refine ⟨after, ?_, hafter, hsame.trans hvisible⟩
    rw [hnext, childShown, hvisible]
    rfl
  refine ⟨changes, hexec, fun key => ⟨?_, fun fuel hfuel => ?_⟩,
    fun childInfo key => ⟨?_, fun fuel hfuel => ?_⟩⟩
  · obtain ⟨after, hnext, -⟩ := htop changes key ⟨hlock, rfl⟩
    exact ⟨_, after, hnext, nextMerged_isNext (nextIn_isNext _) _ key⟩
  · obtain ⟨after, hfound, -⟩ := collectWith_eq htop fuel ⟨hlock, rfl⟩ key
    exact ⟨_, after, hfound, enumerates_merged _ _ key hfuel⟩
  · obtain ⟨after, hnext, -⟩ := hchild childInfo changes key ⟨hlock, rfl⟩
    exact ⟨_, after, hnext, nextMerged_isNext (nextIn_isNext _) _ key⟩
  · obtain ⟨after, hfound, -⟩ := collectWith_eq (hchild childInfo) fuel ⟨hlock, rfl⟩ key
    exact ⟨_, after, hfound, enumerates_merged _ _ key hfuel⟩

def fewKeys : BackendKeys where
  top := (((∅ : ExtTreeSet StorageKey).insert [1]).insert [2]).insert [4]
  child _ := (∅ : ExtTreeSet StorageKey).insert [7]

def maskingOps : List KeyOp :=
  [.change (.setStorage [2] none), .change (.appendStorage [3] [5] fun _ => [4, 6]),
    .change .startTransaction, .change (.setStorage [4] none), .nextStorageKey [2],
    .change .rollbackTransaction, .change (.setChildStorage (.parentKeyId [9]) [7] none)]

theorem nextKey_sees_merged_state_masked :
    ∃ changes, Run.exec (keyStep scaleCodec listBackend fewKeys) (empty false) maskingOps =
        some changes ∧
      ∃ next after, changes.nextStorageKey scaleCodec fewKeys [1] = some (next, after) ∧
        IsNext (Merged (· ∈ fewKeys.top) (changes.visible scaleCodec).top) [1] next := by
  obtain ⟨changes, hexec, htop, -⟩ := nextKey_sees_merged_state scaleCodec scaleCompact_lawful
    listBackend fewKeys false maskingOps
  exact ⟨changes, hexec, (htop [1]).1⟩

example : (Run.exec (keyStep scaleCodec listBackend fewKeys) (empty false) maskingOps).bind
    (fun changes => (collectWith (nextStorageKey scaleCodec fewKeys) 5 changes []).map (·.1)) =
      some [[1], [3], [4]] := by
  decide +kernel

end OverlayedChanges

end PolkadotSdk.StateMachine
