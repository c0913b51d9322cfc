import PolkadotSdk.StateMachine.Changeset.Lockstep
import PolkadotSdk.StateMachine.OverlayedChanges.Model

/-! # The storage-root cache

A cached root is fresh if it is the root the backend computes from the values shown
now. The changesets stay in lockstep through every operation, so nothing panics, and
the cache stays fresh as long as every operation that changes a shown value drops it.
Two operations do not: an append, and leaving the runtime with writes still open.
-/

namespace PolkadotSdk.StateMachine

open Std MapTraversal

attribute [local instance] lexOrd

namespace OverlayedChanges

variable {Root Tx : Type} {codec : StateCodec} {law : codec.toCompactCodec.Lawful}
variable {backend : Backend Root Tx} {changes : OverlayedChanges Root Tx}

/-! ## Shown values -/

structure Visible where
  top : ExtTreeMap StorageKey (Option StorageValue)
  children : ExtTreeMap StorageKey (ChildInfo × ExtTreeMap StorageKey (Option StorageValue))

/-- The root a backend computes from shown values, without any cache. -/
def Visible.fullRoot (backend : Backend Root Tx) (shown : Visible) (stateVersion : StateVersion) :
    Root × Tx :=
  backend.fullStorageRoot shown.top.toList
    (shown.children.toList.map fun child => (child.2.1, child.2.2.toList)) stateVersion

def visibleChildren (codec : StateCodec) (children : Children) :
    ExtTreeMap StorageKey (ChildInfo × ExtTreeMap StorageKey (Option StorageValue)) :=
  children.map fun _ child => (child.2, child.1.visible codec.toCompactCodec)

def visible (codec : StateCodec) (changes : OverlayedChanges Root Tx) : Visible :=
  ⟨changes.top.visible codec.toCompactCodec, visibleChildren codec changes.children⟩

def currentRoot (codec : StateCodec) (backend : Backend Root Tx)
    (changes : OverlayedChanges Root Tx) (stateVersion : StateVersion) : Root × Tx :=
  (changes.visible codec).fullRoot backend stateVersion

/-- A cached root and transaction are those of the values shown now. -/
def CacheFresh (codec : StateCodec) (backend : Backend Root Tx)
    (changes : OverlayedChanges Root Tx) : Prop :=
  ∀ cache ∈ changes.storageTransactionCache,
    (cache.transactionStorageRoot, cache.transaction) =
      changes.currentRoot codec backend cache.stateVersion

theorem CacheFresh.of_same {changes' : OverlayedChanges Root Tx}
    (h : CacheFresh codec backend changes)
    (hcache : changes'.storageTransactionCache = changes.storageTransactionCache)
    (hvisible : changes'.visible codec = changes.visible codec) :
    CacheFresh codec backend changes' := by
  intro cache hmem
  rw [currentRoot, hvisible]
  exact h cache (hcache ▸ hmem)

theorem cacheFresh_of_none (h : changes.storageTransactionCache = none) :
    CacheFresh codec backend changes := by
  simp [CacheFresh, h]

/-! ## Lockstep -/

/-- Every changeset is sound, and all of them agree on depth and mode. -/
structure Lockstep (law : codec.toCompactCodec.Lawful) (changes : OverlayedChanges Root Tx) :
    Prop where
  top : OverlayedMap.Sound (storageVersions law) changes.top
  child : ∀ (key : StorageKey) child, changes.children[key]? = some child →
    OverlayedMap.Sound (storageVersions law) child.1 ∧ child.1.control = changes.top.control
  offchain : OverlayedMap.Sound (OverlayedMap.offchainVersions _) changes.offchain
  offchain_control : changes.offchain.control = changes.top.control

theorem lockstep_empty (law : codec.toCompactCodec.Lawful) (collectExtrinsics : Bool) :
    Lockstep law (empty collectExtrinsics : OverlayedChanges Root Tx) :=
  ⟨OverlayedMap.sound_empty _, by simp [empty], OverlayedMap.sound_empty _, rfl⟩

/-- Each child trie is kept under the key of its info. -/
def Named (changes : OverlayedChanges Root Tx) : Prop :=
  ∀ (key : StorageKey) child, changes.children[key]? = some child → child.2.storageKey = key

theorem Named.map {changes' : OverlayedChanges Root Tx} (h : Named changes)
    {f : OverlayedChangeSet → OverlayedChangeSet}
    (hmap : changes'.children = changes.children.map fun _ child => (f child.1, child.2)) :
    Named changes' := by
  intro key child hchild
  rw [hmap, ExtTreeMap.getElem?_map] at hchild
  obtain ⟨before, hbefore, rfl⟩ := Option.map_eq_some_iff.mp hchild
  exact h key before hbefore

theorem Named.of_children {changes' : OverlayedChanges Root Tx} (h : Named changes)
    (hinfo : ∀ (key : StorageKey) child, changes'.children[key]? = some child →
      ∃ before, changes.children[key]? = some (before, child.2)) : Named changes' := by
  intro key child hchild
  obtain ⟨before, hbefore⟩ := hinfo key child hchild
  exact h key (before, child.2) hbefore

section

variable (h : Lockstep law changes)
include h

theorem Lockstep.withTop {top : OverlayedChangeSet}
    (hsound : OverlayedMap.Sound (storageVersions law) top)
    (hctl : top.control = changes.top.control) : Lockstep law { changes with top } :=
  ⟨hsound, fun key child hchild => ⟨(h.child key child hchild).1,
    (h.child key child hchild).2.trans hctl.symm⟩, h.offchain, h.offchain_control.trans hctl.symm⟩

theorem Lockstep.markDirty : Lockstep law changes.markDirty :=
  ⟨h.top, h.child, h.offchain, h.offchain_control⟩

theorem Lockstep.extrinsicIndex :
    ∃ index after, changes.extrinsicIndex codec = some (index, after) ∧ Lockstep law after ∧
      after.storageTransactionCache = changes.storageTransactionCache ∧
      after.children = changes.children ∧ after.visible codec = changes.visible codec := by
  by_cases hcollect : changes.collectExtrinsics = true
  · obtain ⟨value, top, hread, hsound, hctl, hvisible⟩ :=
      h.top.read WellKnownKeys.extrinsicIndex
    refine ⟨some ((value.join.bind codec.decodeU32).getD noExtrinsicIndex), { changes with top },
      ?_, h.withTop hsound hctl, rfl, rfl, ?_⟩
    · simp [OverlayedChanges.extrinsicIndex, hcollect, storage, hread]
    · simp [visible, hvisible]
  · exact ⟨none, changes, by simp [OverlayedChanges.extrinsicIndex, hcollect], h, rfl, rfl, rfl⟩

theorem Lockstep.childOrSpawn (childInfo : ChildInfo) :
    OverlayedMap.Sound (storageVersions law) (changes.childOrSpawn childInfo).1 ∧
      (changes.childOrSpawn childInfo).1.control = changes.top.control := by
  unfold OverlayedChanges.childOrSpawn
  cases hchild : changes.children[childInfo.storageKey]? with
  | some child => exact h.child _ child hchild
  | none =>
    refine ⟨OverlayedMap.Sound.spawnChild _ _, ?_⟩
    simp [OverlayedMap.control, OverlayedMap.spawnChild]

theorem Lockstep.insertChild (storageKey : StorageKey)
    {child : OverlayedChangeSet × ChildInfo}
    (hsound : OverlayedMap.Sound (storageVersions law) child.1)
    (hctl : child.1.control = changes.top.control) :
    Lockstep law { changes with children := changes.children.insert storageKey child } := by
  refine ⟨h.top, fun key other hother => ?_, h.offchain, h.offchain_control⟩
  rw [ExtTreeMap.getElem?_insert] at hother
  split at hother
  · obtain rfl := Option.some.inj hother
    exact ⟨hsound, hctl⟩
  · exact h.child key other hother

theorem Lockstep.withChild {α : Type} (childInfo : ChildInfo)
    {f : OverlayedChangeSet → Option (α × OverlayedChangeSet)}
    (hf : ∀ changeset, OverlayedMap.Sound (storageVersions law) changeset →
      ∃ out after, f changeset = some (out, after) ∧
        OverlayedMap.Sound (storageVersions law) after ∧ after.control = changeset.control) :
    ∃ out after, changes.withChild childInfo f = some (out, after) ∧ Lockstep law after ∧
      after.storageTransactionCache = changes.storageTransactionCache ∧
      (Named changes → Named after) := by
  obtain ⟨hsound, hctl⟩ := h.childOrSpawn childInfo
  obtain ⟨out, changeset, hout, hsound', hctl'⟩ := hf _ hsound
  refine ⟨out, { changes with
      children := changes.children.insert childInfo.storageKey
        (changeset, (changes.childOrSpawn childInfo).2) },
    by simp [OverlayedChanges.withChild, hout],
    h.insertChild _ hsound' (hctl'.trans hctl), rfl, fun hnamed key child hchild => ?_⟩
  rw [ExtTreeMap.getElem?_insert] at hchild
  split at hchild
  next heq =>
    obtain rfl := Option.some.inj hchild
    rw [← LawfulEqOrd.eq_of_compare heq]
    unfold OverlayedChanges.childOrSpawn
    cases hold : changes.children[childInfo.storageKey]? with
    | none => rfl
    | some old => exact hnamed _ old hold
  next => exact hnamed key child hchild

/-! ## Loops over the children -/

theorem Lockstep.alterChildren {ε : Type}
    {f : OverlayedChangeSet → Option (Except ε OverlayedChangeSet)}
    (wrap : OverlayedChangeSet × ChildInfo → Option (OverlayedChangeSet × ChildInfo))
    (hwrap : ∀ child next, wrap child = some next → next = child) (ctl : Control)
    (keeps : OverlayedChangeSet → Prop)
    (hf : ∀ changeset, OverlayedMap.Sound (storageVersions law) changeset →
      changeset.control = changes.top.control → ∃ after, f changeset = some (.ok after) ∧
        OverlayedMap.Sound (storageVersions law) after ∧ after.control = ctl ∧
        (keeps changeset → after.visible codec.toCompactCodec =
          changeset.visible codec.toCompactCodec)) :
    ∃ children, alterAll (fun child => (expectOk (f child.1)).map fun changeset =>
        wrap (changeset, child.2)) changes.children = some children ∧
      (∀ (key : StorageKey) child, children[key]? = some child →
        (OverlayedMap.Sound (storageVersions law) child.1 ∧ child.1.control = ctl) ∧
          ∃ before, changes.children[key]? = some (before, child.2)) ∧
      (wrap = some → (∀ (key : StorageKey) child, changes.children[key]? = some child →
          keeps child.1) →
        visibleChildren codec children = visibleChildren codec changes.children) := by
  have hok : ∀ (key : StorageKey) child, changes.children[key]? = some child →
      ∃ after, f child.1 = some (.ok after) ∧
        OverlayedMap.Sound (storageVersions law) after ∧ after.control = ctl ∧
        (keeps child.1 → after.visible codec.toCompactCodec =
          child.1.visible codec.toCompactCodec) := fun key child hchild =>
    hf child.1 (h.child key child hchild).1 (h.child key child hchild).2
  obtain ⟨children, halter, hget⟩ := alterAll_eq (fun child : OverlayedChangeSet × ChildInfo =>
    (expectOk (f child.1)).map fun changeset => wrap (changeset, child.2)) changes.children (by
      intro key child hchild
      obtain ⟨after, hf, _⟩ := hok key child hchild
      simp [hf, expectOk])
  refine ⟨children, halter, fun key next hnext => ?_, fun hsome hkeeps => ?_⟩
  · rw [hget] at hnext
    obtain ⟨child, hchild, hnext⟩ := Option.bind_eq_some_iff.mp hnext
    obtain ⟨after, hf, hsound, hctl, _⟩ := hok key child hchild
    simp only [hf, expectOk, Option.map_some, Option.join_some] at hnext
    obtain rfl := hwrap _ _ hnext
    exact ⟨⟨hsound, hctl⟩, child.1, hchild⟩
  · apply ExtTreeMap.ext_getElem?
    intro key
    rw [visibleChildren, visibleChildren, ExtTreeMap.getElem?_map, ExtTreeMap.getElem?_map, hget]
    cases hchild : changes.children[key]? with
    | none => rfl
    | some child =>
      obtain ⟨after, hf, _, _, hshown⟩ := hok key child hchild
      simp [hf, expectOk, hsome, hshown (hkeeps key child hchild)]

theorem Lockstep.all {top : OverlayedChangeSet} {children : Children}
    {offchain : OffchainOverlayedChanges} {move : Control → Control}
    (hsound : OverlayedMap.Sound (storageVersions law) top)
    (hctl : top.control = move changes.top.control)
    (hchild : ∀ (key : StorageKey) child, children[key]? = some child →
      (OverlayedMap.Sound (storageVersions law) child.1 ∧
        child.1.control = move changes.top.control) ∧
      ∃ before, changes.children[key]? = some (before, child.2))
    (hoffchain : OverlayedMap.Sound (OverlayedMap.offchainVersions _) offchain)
    (hctlOff : offchain.control = move changes.offchain.control) :
    Lockstep law { changes with top, children, offchain } ∧
      (Named changes → Named { changes with top, children, offchain }) :=
  ⟨⟨hsound, fun key child hget => ⟨(hchild key child hget).1.1,
      (hchild key child hget).1.2.trans hctl.symm⟩, hoffchain,
      by rw [hctlOff, h.offchain_control, hctl]⟩,
    fun hnamed => hnamed.of_children fun key child hget => (hchild key child hget).2⟩

/-! ## Operations -/

theorem Lockstep.setStorage (key : StorageKey)
    (val : Option StorageValue) :
    ∃ after, changes.setStorage codec key val = some after ∧ Lockstep law after ∧
      after.storageTransactionCache = none ∧ after.children = changes.children := by
  obtain ⟨index, mid, hindex, hmid, hcache, hchildren, _⟩ := h.markDirty.extrinsicIndex
  obtain ⟨top, hset, hsound, hctl⟩ := hmid.top.set key val index
  exact ⟨{ mid with top }, by simp [OverlayedChanges.setStorage, hindex, hset],
    hmid.withTop hsound hctl, hcache, hchildren⟩

theorem Lockstep.appendStorage (key : StorageKey)
    (element : StorageValue) (init : Unit → StorageValue) :
    ∃ after, changes.appendStorage codec key element init = some after ∧ Lockstep law after ∧
      after.storageTransactionCache = changes.storageTransactionCache ∧
      after.children = changes.children := by
  obtain ⟨index, mid, hindex, hmid, hcache, hchildren, _⟩ := h.extrinsicIndex
  refine ⟨{ mid with
      top := mid.top.appendStorage codec.toCompactCodec key element init index },
    by simp [OverlayedChanges.appendStorage, hindex],
    hmid.withTop (hmid.top.appendStorage key element init index) ?_, hcache, hchildren⟩
  exact OverlayedMap.control_appendStorage ..

theorem Lockstep.setChildStorage (childInfo : ChildInfo)
    (key : StorageKey) (val : Option StorageValue) :
    ∃ after, changes.setChildStorage codec childInfo key val = some after ∧ Lockstep law after ∧
      after.storageTransactionCache = none ∧ (Named changes → Named after) := by
  obtain ⟨index, mid, hindex, hmid, hcache, hchildren, _⟩ := h.markDirty.extrinsicIndex
  obtain ⟨out, after, hchild, hafter, hcache', hnamed⟩ := hmid.withChild childInfo
    (f := fun changeset => (changeset.set codec.toCompactCodec key val index).map fun written =>
      ((), written)) (by
    intro changeset hsound
    obtain ⟨written, hset, hsound', hctl⟩ := hsound.set key val index
    exact ⟨(), written, by simp [hset], hsound', hctl⟩)
  exact ⟨after, by simp [OverlayedChanges.setChildStorage, hindex, hchild], hafter,
    hcache'.trans hcache, fun h => hnamed (by rwa [Named, hchildren])⟩

theorem Lockstep.clearChildWhere (childInfo : ChildInfo)
    (predicate : StorageKey → OverlayedValue → Bool) :
    ∃ count after, changes.clearChildWhere codec childInfo predicate = some (count, after) ∧
      Lockstep law after ∧ after.storageTransactionCache = none ∧
      (Named changes → Named after) := by
  obtain ⟨index, mid, hindex, hmid, hcache, hchildren, _⟩ := h.markDirty.extrinsicIndex
  obtain ⟨count, after, hchild, hafter, hcache', hnamed⟩ := hmid.withChild childInfo
    (f := fun changeset => changeset.clearWhere codec.toCompactCodec predicate index)
    (fun changeset hsound => hsound.clearWhere predicate index)
  exact ⟨count, after, by simp [OverlayedChanges.clearChildWhere, hindex, hchild], hafter,
    hcache'.trans hcache, fun h => hnamed (by rwa [Named, hchildren])⟩

theorem Lockstep.clearPrefix (keyPrefix : StorageKey) :
    ∃ count after, changes.clearPrefix codec keyPrefix = some (count, after) ∧
      Lockstep law after ∧ after.storageTransactionCache = none ∧
      after.children = changes.children := by
  obtain ⟨index, mid, hindex, hmid, hcache, hchildren, _⟩ := h.markDirty.extrinsicIndex
  obtain ⟨count, top, hclear, hsound, hctl⟩ :=
    hmid.top.clearWhere (fun key _ => keyPrefix.isPrefixOf key) index
  exact ⟨count, { mid with top }, by simp [OverlayedChanges.clearPrefix, hindex, hclear],
    hmid.withTop hsound hctl, hcache, hchildren⟩

theorem Lockstep.startTransaction :
    Lockstep law changes.startTransaction ∧
      changes.startTransaction.visible codec = changes.visible codec ∧
      (Named changes → Named changes.startTransaction) := by
  refine ⟨⟨h.top.startTransaction, ?_, h.offchain.startTransaction, ?_⟩, ?_,
    fun hnamed => hnamed.map rfl⟩
  · intro key child hchild
    simp only [OverlayedChanges.startTransaction, ExtTreeMap.getElem?_map,
      Option.map_eq_some_iff] at hchild
    obtain ⟨before, hbefore, rfl⟩ := hchild
    obtain ⟨hsound, hctl⟩ := h.child key before hbefore
    exact ⟨hsound.startTransaction, congrArg Control.start hctl⟩
  · exact congrArg Control.start h.offchain_control
  · simp only [visible, visibleChildren, OverlayedChanges.startTransaction]
    congr 1
    apply ExtTreeMap.ext_getElem?
    intro key
    cases hchild : changes.children[key]? <;> simp [hchild]
    rfl

theorem Lockstep.rollbackTransaction :
    ∃ result after, changes.rollbackTransaction codec = some (result, after) ∧
      Lockstep law after ∧ after.storageTransactionCache = none ∧
      (Named changes → Named after) := by
  have hdirty := h.markDirty
  by_cases hmay : changes.top.control.mayClose
  · obtain ⟨top, htop, hsound, hctl⟩ := hdirty.top.closeTransaction true hmay
    obtain ⟨children, hchildren, hchild, _⟩ := hdirty.alterChildren
      (fun child => if child.1.isEmpty then none else some child)
      (fun child next hnext => by simp_all) changes.top.control.close (fun _ => False)
      fun changeset hsound hctl => by
        obtain ⟨closed, hclosed, hsound', hctl'⟩ := hsound.closeTransaction true (hctl ▸ hmay)
        exact ⟨closed, hclosed, hsound', by rw [hctl', hctl]; rfl, False.elim⟩
    obtain ⟨offchain, hoffchain, hsoundOff, hctlOff⟩ :=
      hdirty.offchain.closeTransactionOffchain true (hdirty.offchain_control ▸ hmay)
    obtain ⟨hlock, hnamed⟩ := hdirty.all hsound hctl hchild hsoundOff hctlOff
    have hchildren : retainChildren (·.closeTransaction codec.toCompactCodec true)
      changes.markDirty.children = some children := hchildren
    refine ⟨.ok (), _, ?_, hlock, rfl, hnamed⟩
    simp [OverlayedChanges.rollbackTransaction, htop, hchildren, hoffchain, expectOk]
  · have herror : changes.markDirty.top.closeTransaction codec.toCompactCodec true =
        some (.error .noOpenTransaction) := OverlayedMap.closeTransaction_error true hmay
    exact ⟨.error .noOpenTransaction, changes.markDirty,
      by simp [OverlayedChanges.rollbackTransaction, herror], hdirty, rfl, id⟩

theorem Lockstep.commitTransaction :
    ∃ result after, changes.commitTransaction codec = some (result, after) ∧
      Lockstep law after ∧
      after.storageTransactionCache = changes.storageTransactionCache ∧
      after.visible codec = changes.visible codec ∧ (Named changes → Named after) := by
  by_cases hmay : changes.top.control.mayClose
  · obtain ⟨top, htop, hsound, hctl, hvisible⟩ := h.top.commit hmay
    obtain ⟨children, hchildren, hchild, hshown⟩ := h.alterChildren some
      (fun _ _ hnext => (Option.some.inj hnext).symm) changes.top.control.close (fun _ => True)
      fun changeset hsound hctl => by
        obtain ⟨closed, hclosed, hsound', hctl', hvisible'⟩ := hsound.commit (hctl ▸ hmay)
        exact ⟨closed, hclosed, hsound', by rw [hctl', hctl], fun _ => hvisible'⟩
    obtain ⟨offchain, hoffchain, hsoundOff, hctlOff⟩ :=
      h.offchain.closeTransactionOffchain false (h.offchain_control ▸ hmay)
    obtain ⟨hlock, hnamed⟩ := h.all hsound hctl hchild hsoundOff hctlOff
    have hchildren : forChildren (·.closeTransaction codec.toCompactCodec false)
      changes.children = some children := hchildren
    refine ⟨.ok (), _, ?_, hlock, rfl, ?_, hnamed⟩
    · simp [OverlayedChanges.commitTransaction, htop, hchildren, hoffchain, expectOk]
    · simp only [visible, hvisible, hshown rfl fun _ _ _ => trivial]
  · have herror : changes.top.closeTransaction codec.toCompactCodec false =
        some (.error .noOpenTransaction) := OverlayedMap.closeTransaction_error false hmay
    exact ⟨.error .noOpenTransaction, changes,
      by simp [OverlayedChanges.commitTransaction, herror], h, rfl, rfl, id⟩

end

theorem executionMode_of_control {K V K' V' : Type} [Ord K] [Ord K'] {map : OverlayedMap K V}
    {map' : OverlayedMap K' V'} (h : map'.control = map.control) :
    map'.executionMode = map.executionMode := congrArg Control.executionMode h

theorem Lockstep.enterRuntime (h : Lockstep law changes) :
    ∃ result after, changes.enterRuntime = some (result, after) ∧ Lockstep law after ∧
      after.storageTransactionCache = changes.storageTransactionCache ∧
      after.visible codec = changes.visible codec ∧ (Named changes → Named after) := by
  cases hmode : changes.top.executionMode with
  | runtime =>
    exact ⟨.error .alreadyInRuntime, changes,
      by simp [OverlayedChanges.enterRuntime, OverlayedMap.enterRuntime, hmode], h, rfl, rfl, id⟩
  | client =>
    obtain ⟨top, htop, hsound, hctl, hvisible⟩ := h.top.enterRuntime hmode
    obtain ⟨children, hchildren, hchild, hshown⟩ := h.alterChildren some
      (fun _ _ hnext => (Option.some.inj hnext).symm) changes.top.control.enter (fun _ => True)
      (f := fun changeset => some changeset.enterRuntime) fun changeset hsound hctl => by
        obtain ⟨entered, hentered, hsound', hctl', hchanges⟩ :=
          hsound.enterRuntime ((executionMode_of_control hctl).trans hmode)
        exact ⟨entered, by rw [hentered], hsound', by rw [hctl', hctl],
          fun _ => by simp only [OverlayedMap.visible, hchanges]⟩
    obtain ⟨offchain, hoffchain, hsoundOff, hctlOff, _⟩ :=
      h.offchain.enterRuntime ((executionMode_of_control h.offchain_control).trans hmode)
    obtain ⟨hlock, hnamed⟩ := h.all hsound hctl hchild hsoundOff hctlOff
    have hchildren : forChildren (fun changeset => some changeset.enterRuntime)
      changes.children = some children := hchildren
    refine ⟨.ok (), _, ?_, hlock, rfl, ?_, hnamed⟩
    · simp [OverlayedChanges.enterRuntime, htop, hchildren, hoffchain, expectOk]
    · simp only [visible, OverlayedMap.visible, hvisible, hshown rfl fun _ _ _ => trivial]

/-- Open transactions of the runtime hold no write, in the top trie or in a child. -/
def NoDanglingWrites (changes : OverlayedChanges Root Tx) : Prop :=
  (∀ dirty ∈ changes.top.danglingKeys, dirty.isEmpty) ∧
    ∀ child ∈ changes.children.toList, ∀ dirty ∈ child.2.1.danglingKeys, dirty.isEmpty

instance (changes : OverlayedChanges Root Tx) : Decidable changes.NoDanglingWrites :=
  inferInstanceAs (Decidable (_ ∧ _))

theorem Lockstep.exitRuntime (h : Lockstep law changes) :
    ∃ result after, changes.exitRuntime codec = some (result, after) ∧ Lockstep law after ∧
      after.storageTransactionCache = changes.storageTransactionCache ∧
      (changes.top.executionMode = .client ∨ changes.NoDanglingWrites →
        after.visible codec = changes.visible codec) ∧ (Named changes → Named after) := by
  cases hmode : changes.top.executionMode with
  | client =>
    exact ⟨.error .notInRuntime, changes, by
      simp [OverlayedChanges.exitRuntime, OverlayedMap.exitRuntime, OverlayedMap.exitWith,
        hmode], h, rfl, fun _ => rfl, id⟩
  | runtime =>
    obtain ⟨top, htop, hsound, hctl, hvisible⟩ := h.top.exitRuntime hmode
    obtain ⟨children, hchildren, hchild, hshown⟩ := h.alterChildren some
      (fun _ _ hnext => (Option.some.inj hnext).symm) changes.top.control.exit
      (fun changeset => ∀ dirty ∈ changeset.danglingKeys, dirty = ∅) fun changeset hsound hctl => by
        obtain ⟨exited, hexited, hsound', hctl', hvisible'⟩ :=
          hsound.exitRuntime ((executionMode_of_control hctl).trans hmode)
        exact ⟨exited, hexited, hsound', by rw [hctl', hctl], hvisible'⟩
    obtain ⟨offchain, hoffchain, hsoundOff, hctlOff⟩ :=
      h.offchain.exitRuntimeOffchain ((executionMode_of_control h.offchain_control).trans hmode)
    obtain ⟨hlock, hnamed⟩ := h.all hsound hctl hchild hsoundOff hctlOff
    have hchildren : forChildren _ changes.children = some children := hchildren
    refine ⟨.ok (), _, ?_, hlock, rfl, ?_, hnamed⟩
    · simp [OverlayedChanges.exitRuntime, htop, hchildren, hoffchain, expectOk]
    · rintro (hclient | ⟨hcleanTop, hcleanChildren⟩)
      · cases hclient
      · have htopSame := hvisible fun dirty hmem => by simpa using hcleanTop dirty hmem
        have hsame := hshown rfl fun key child hget dirty hmem => by
          simpa using hcleanChildren (key, child)
            (ExtTreeMap.mem_toList_iff_getElem?_eq_some.mpr hget) dirty hmem
        simp only [visible, htopSame, hsame]

/-! ## Computing a root -/

theorem readValues_eq {changeset : OverlayedChangeSet}
    (h : OverlayedMap.Sound (storageVersions law) changeset) :
    readValues codec.toCompactCodec changeset =
      some ((changeset.visible codec.toCompactCodec).toList,
        changeset.materializeAll codec.toCompactCodec) := by
  obtain ⟨stack, href⟩ := h
  rw [readValues, readAll_eq (OverlayedEntry.newest codec.toCompactCodec)
    (OverlayedEntry.materialized codec.toCompactCodec) changeset.changes fun key entry hentry =>
      OverlayedEntry.value_eq ((href.at_key key).nonempty entry hentry)]
  rfl

theorem Lockstep.readChildren (h : Lockstep law changes) :
    OverlayedChanges.readChildren codec.toCompactCodec changes.children =
      some ((visibleChildren codec changes.children).toList.map fun child =>
          (child.2.1, child.2.2.toList),
        changes.children.map fun _ child =>
          (child.1.materializeAll codec.toCompactCodec, child.2)) := by
  rw [OverlayedChanges.readChildren, readAll_eq
    (fun child => (child.2, (child.1.visible codec.toCompactCodec).toList))
    (fun child => (child.1.materializeAll codec.toCompactCodec, child.2)) changes.children (by
      intro key child hchild
      simp [readValues_eq (h.child key child hchild).1])]
  simp [visibleChildren, ExtTreeMap.toList_map, Function.comp_def]

def recomputed (codec : StateCodec) (backend : Backend Root Tx)
    (changes : OverlayedChanges Root Tx) (stateVersion : StateVersion) :
    OverlayedChanges Root Tx :=
  let (root, transaction) := changes.currentRoot codec backend stateVersion
  { changes with
    top := changes.top.materializeAll codec.toCompactCodec
    children := changes.children.map fun _ child =>
      (child.1.materializeAll codec.toCompactCodec, child.2)
    storageTransactionCache := some ⟨transaction, root, stateVersion⟩ }

theorem Lockstep.visible_recomputed (h : Lockstep law changes) (backend : Backend Root Tx)
    (stateVersion : StateVersion) :
    (changes.recomputed codec backend stateVersion).visible codec = changes.visible codec := by
  simp only [visible, visibleChildren, recomputed, h.top.materializeAll.2]
  congr 1
  apply ExtTreeMap.ext_getElem?
  intro key
  cases hchild : changes.children[key]? with
  | none => simp [hchild]
  | some child => simp [hchild, (h.child key child hchild).1.materializeAll.2]

theorem Lockstep.recomputed (h : Lockstep law changes) (backend : Backend Root Tx)
    (stateVersion : StateVersion) :
    Lockstep law (changes.recomputed codec backend stateVersion) ∧
      CacheFresh codec backend (changes.recomputed codec backend stateVersion) := by
  refine ⟨⟨h.top.materializeAll.1, ?_, h.offchain, h.offchain_control⟩, ?_⟩
  · intro key child hchild
    simp only [OverlayedChanges.recomputed, ExtTreeMap.getElem?_map,
      Option.map_eq_some_iff] at hchild
    obtain ⟨before, hbefore, rfl⟩ := hchild
    obtain ⟨hsound, hctl⟩ := h.child key before hbefore
    exact ⟨hsound.materializeAll.1, hctl⟩
  · intro cache hcache
    obtain rfl := Option.some.inj hcache
    unfold currentRoot
    rw [h.visible_recomputed backend stateVersion]
    rfl

theorem Lockstep.storageRoot_of_miss (h : Lockstep law changes) (backend : Backend Root Tx)
    (stateVersion : StateVersion)
    (hmiss : ∀ cache ∈ changes.storageTransactionCache, cache.stateVersion ≠ stateVersion) :
    changes.storageRoot codec backend stateVersion =
      some (((changes.currentRoot codec backend stateVersion).1, false),
        changes.recomputed codec backend stateVersion) := by
  unfold storageRoot
  cases hcache : changes.storageTransactionCache with
  | none =>
    dsimp only
    rw [readValues_eq h.top, h.readChildren]
    rfl
  | some cache =>
    simp only [if_neg (hmiss cache hcache)]
    rw [readValues_eq h.top, h.readChildren]
    rfl

/-- The root that is returned is that of the values shown where the cache is fresh. -/
theorem Lockstep.storageRoot (h : Lockstep law changes) (backend : Backend Root Tx)
    (stateVersion : StateVersion) :
    ∃ root cached after, changes.storageRoot codec backend stateVersion =
        some ((root, cached), after) ∧ Lockstep law after ∧ (Named changes → Named after) ∧
      (CacheFresh codec backend changes →
        root = (changes.currentRoot codec backend stateVersion).1 ∧
        CacheFresh codec backend after) := by
  by_cases hhit : ∃ cache ∈ changes.storageTransactionCache, cache.stateVersion = stateVersion
  · obtain ⟨cache, hcache, rfl⟩ := hhit
    refine ⟨cache.transactionStorageRoot, true, changes, ?_, h, id, fun hfresh => ⟨?_, hfresh⟩⟩
    · simp [OverlayedChanges.storageRoot, Option.mem_def.mp hcache]
    · exact congrArg Prod.fst (hfresh cache hcache)
  · have hmiss : ∀ cache ∈ changes.storageTransactionCache,
        cache.stateVersion ≠ stateVersion := fun cache hcache heq => hhit ⟨cache, hcache, heq⟩
    obtain ⟨hafter, hfresh⟩ := h.recomputed backend stateVersion
    exact ⟨_, false, changes.recomputed codec backend stateVersion,
      h.storageRoot_of_miss backend stateVersion hmiss, hafter, fun hnamed => hnamed.map rfl,
      fun _ => ⟨rfl, hfresh⟩⟩

/-! ## Runs -/

inductive Op where
  | setStorage (key : StorageKey) (val : Option StorageValue)
  | appendStorage (key : StorageKey) (element : StorageValue) (init : Unit → StorageValue)
  | setChildStorage (childInfo : ChildInfo) (key : StorageKey) (val : Option StorageValue)
  | clearPrefix (keyPrefix : StorageKey)
  | clearChildStorage (childInfo : ChildInfo)
  | clearChildPrefix (childInfo : ChildInfo) (keyPrefix : StorageKey)
  | startTransaction
  | commitTransaction
  | rollbackTransaction
  | enterRuntime
  | exitRuntime
  | storageRoot (stateVersion : StateVersion)

/-- One operation; a returned error leaves the caller with the state it came with. -/
def step (codec : StateCodec) (backend : Backend Root Tx) (changes : OverlayedChanges Root Tx) :
    Op → Option (OverlayedChanges Root Tx)
  | .setStorage key val => changes.setStorage codec key val
  | .appendStorage key element init => changes.appendStorage codec key element init
  | .setChildStorage childInfo key val => changes.setChildStorage codec childInfo key val
  | .clearPrefix keyPrefix => (changes.clearPrefix codec keyPrefix).map (·.2)
  | .clearChildStorage childInfo => (changes.clearChildStorage codec childInfo).map (·.2)
  | .clearChildPrefix childInfo keyPrefix =>
    (changes.clearChildPrefix codec childInfo keyPrefix).map (·.2)
  | .startTransaction => some changes.startTransaction
  | .commitTransaction => (changes.commitTransaction codec).map (·.2)
  | .rollbackTransaction => (changes.rollbackTransaction codec).map (·.2)
  | .enterRuntime => changes.enterRuntime.map (·.2)
  | .exitRuntime => (changes.exitRuntime codec).map (·.2)
  | .storageRoot stateVersion => (changes.storageRoot codec backend stateVersion).map (·.2)

/-- With a root cached, nothing is appended and the runtime leaves no write behind. -/
def Guarded (changes : OverlayedChanges Root Tx) : Op → Prop
  | .appendStorage .. => changes.storageTransactionCache.isNone
  | .exitRuntime => changes.storageTransactionCache.isNone ∨
      changes.top.executionMode = .client ∨ changes.NoDanglingWrites
  | _ => True

instance decidableGuarded (changes : OverlayedChanges Root Tx) :
    (op : Op) → Decidable (Guarded changes op)
  | .appendStorage .. => inferInstanceAs (Decidable (changes.storageTransactionCache.isNone = true))
  | .exitRuntime => inferInstanceAs (Decidable (_ ∨ _))
  | .setStorage .. | .setChildStorage .. | .clearPrefix .. | .clearChildStorage ..
  | .clearChildPrefix .. | .startTransaction | .commitTransaction | .rollbackTransaction
  | .enterRuntime | .storageRoot .. => instDecidableTrue

/-- Every operation returns and keeps the lockstep, and a guarded one keeps the cache fresh. -/
theorem Lockstep.step (hlock : Lockstep law changes) (backend : Backend Root Tx) (op : Op) :
    ∃ after, OverlayedChanges.step codec backend changes op = some after ∧ Lockstep law after ∧
      (Named changes → Named after) ∧ (Guarded changes op → CacheFresh codec backend changes →
        CacheFresh codec backend after) := by
  cases op with
  | setStorage key val =>
    obtain ⟨after, hop, hafter, hcache, hchildren⟩ := hlock.setStorage key val
    exact ⟨after, hop, hafter, fun h => by rwa [Named, hchildren],
      fun _ _ => cacheFresh_of_none hcache⟩
  | appendStorage key element init =>
    obtain ⟨after, hop, hafter, hcache, hchildren⟩ := hlock.appendStorage key element init
    refine ⟨after, hop, hafter, fun h => by rwa [Named, hchildren],
      fun hguard _ => cacheFresh_of_none (hcache.trans ?_)⟩
    simpa [Guarded] using hguard
  | setChildStorage childInfo key val =>
    obtain ⟨after, hop, hafter, hcache, hnamed⟩ := hlock.setChildStorage childInfo key val
    exact ⟨after, hop, hafter, hnamed, fun _ _ => cacheFresh_of_none hcache⟩
  | clearPrefix keyPrefix =>
    obtain ⟨count, after, hop, hafter, hcache, hchildren⟩ := hlock.clearPrefix keyPrefix
    exact ⟨after, by simp [OverlayedChanges.step, hop], hafter,
      fun h => by rwa [Named, hchildren], fun _ _ => cacheFresh_of_none hcache⟩
  | clearChildStorage childInfo =>
    obtain ⟨count, after, hop, hafter, hcache, hnamed⟩ :=
      hlock.clearChildWhere childInfo fun _ _ => true
    exact ⟨after, by simp [OverlayedChanges.step, clearChildStorage, hop], hafter, hnamed,
      fun _ _ => cacheFresh_of_none hcache⟩
  | clearChildPrefix childInfo keyPrefix =>
    obtain ⟨count, after, hop, hafter, hcache, hnamed⟩ :=
      hlock.clearChildWhere childInfo fun key _ => keyPrefix.isPrefixOf key
    exact ⟨after, by simp [OverlayedChanges.step, clearChildPrefix, hop], hafter, hnamed,
      fun _ _ => cacheFresh_of_none hcache⟩
  | startTransaction =>
    obtain ⟨hafter, hvisible, hnamed⟩ := hlock.startTransaction
    exact ⟨_, rfl, hafter, hnamed, fun _ hfresh => hfresh.of_same rfl hvisible⟩
  | commitTransaction =>
    obtain ⟨result, after, hop, hafter, hcache, hvisible, hnamed⟩ := hlock.commitTransaction
    exact ⟨after, by simp [OverlayedChanges.step, hop], hafter, hnamed,
      fun _ hfresh => hfresh.of_same hcache hvisible⟩
  | rollbackTransaction =>
    obtain ⟨result, after, hop, hafter, hcache, hnamed⟩ := hlock.rollbackTransaction
    exact ⟨after, by simp [OverlayedChanges.step, hop], hafter, hnamed,
      fun _ _ => cacheFresh_of_none hcache⟩
  | enterRuntime =>
    obtain ⟨result, after, hop, hafter, hcache, hvisible, hnamed⟩ := hlock.enterRuntime
    exact ⟨after, by simp [OverlayedChanges.step, hop], hafter, hnamed,
      fun _ hfresh => hfresh.of_same hcache hvisible⟩
  | exitRuntime =>
    obtain ⟨result, after, hop, hafter, hcache, hvisible, hnamed⟩ := hlock.exitRuntime
    refine ⟨after, by simp [OverlayedChanges.step, hop], hafter, hnamed, fun hguard hfresh => ?_⟩
    rcases hguard with hnone | hkept
    · exact cacheFresh_of_none (hcache.trans (by simpa using hnone))
    · exact hfresh.of_same hcache (hvisible hkept)
  | storageRoot stateVersion =>
    obtain ⟨root, cached, after, hop, hafter, hnamed, hroot⟩ := hlock.storageRoot backend stateVersion
    exact ⟨after, by simp [OverlayedChanges.step, hop], hafter, hnamed, fun _ hfresh => (hroot hfresh).2⟩

/-- After every guarded run `storage_root` returns, for either version, the root that the
backend computes from the values shown, and a cached root is one computed from them. -/
theorem storageRoot_eq_currentRoot (codec : StateCodec) (law : codec.toCompactCodec.Lawful)
    (backend : Backend Root Tx) (collectExtrinsics : Bool) (ops : List Op)
    (hguard : Run.Along (step codec backend) Guarded (empty collectExtrinsics) ops) :
    ∃ changes, Run.exec (step codec backend) (empty collectExtrinsics) ops = some changes ∧
      CacheFresh codec backend changes ∧
      ∀ stateVersion, ∃ cached after, changes.storageRoot codec backend stateVersion =
        some (((changes.currentRoot codec backend stateVersion).1, cached), after) := by
  have hstep : ∀ changes op, Lockstep law changes ∧ CacheFresh codec backend changes →
      Guarded changes op → ∃ after, step codec backend changes op = some after ∧
        Lockstep law after ∧ CacheFresh codec backend after := by
    rintro changes op ⟨hlock, hfresh⟩ hop
    obtain ⟨after, hafter, hlock', -, hfresh'⟩ := hlock.step backend op
    exact ⟨after, hafter, hlock', hfresh' hop hfresh⟩
  obtain ⟨changes, hexec, hlock, hfresh⟩ := Run.exec_total hstep
    ⟨lockstep_empty law collectExtrinsics, cacheFresh_of_none rfl⟩ hguard
  refine ⟨changes, hexec, hfresh, fun stateVersion => ?_⟩
  obtain ⟨root, cached, after, hroot, -, -, heq⟩ := hlock.storageRoot backend stateVersion
  obtain ⟨rfl, -⟩ := heq hfresh
  exact ⟨cached, after, hroot⟩

/-! ## A backend to run -/

def listBackend : Backend (List UInt8) Unit where
  storageRoot delta _ := (delta.flatMap fun change => change.1 ++ change.2.getD [], ())
  childStorageRoot _ delta _ :=
    (delta.flatMap fun change => change.1 ++ change.2.getD [], delta.isEmpty, ())
  encodeRoot root := root
  emptyTransaction := ()
  consolidate _ _ := ()

def rootsAfter (ops : List Op) : Option (List UInt8 × List UInt8) := do
  let changes ← Run.exec (step scaleCodec listBackend) (empty false) ops
  let ((root, _), _) ← changes.storageRoot scaleCodec listBackend .v1
  some (root, (changes.currentRoot scaleCodec listBackend .v1).1)

def guardedRun : List Op :=
  [.appendStorage [1] [8] (fun _ => [4, 7]), .storageRoot .v0, .enterRuntime, .startTransaction,
    .setChildStorage (.parentKeyId [9]) [2] (some [5]), .storageRoot .v1, .rollbackTransaction,
    .startTransaction, .storageRoot .v1, .exitRuntime, .clearPrefix [1], .storageRoot .v1]

theorem storageRoot_eq_currentRoot_guardedRun :
    Run.Along (step scaleCodec listBackend) Guarded (empty true) guardedRun ∧
      ∃ changes, Run.exec (step scaleCodec listBackend) (empty true) guardedRun = some changes ∧
        CacheFresh scaleCodec listBackend changes ∧
        ∀ stateVersion, ∃ cached after, changes.storageRoot scaleCodec listBackend stateVersion =
          some (((changes.currentRoot scaleCodec listBackend stateVersion).1, cached), after) :=
  have hguard : Run.Along (step scaleCodec listBackend) Guarded (empty true) guardedRun := by
    decide +kernel
  ⟨hguard, storageRoot_eq_currentRoot scaleCodec scaleCompact_lawful listBackend true guardedRun
    hguard⟩

/-- An append after a root was cached, and a runtime that leaves a write open: both times
the root returned is that of values no longer shown. -/
theorem storageRoot_stale :
    rootsAfter [.setStorage [1] (some [4, 7]), .storageRoot .v1,
        .appendStorage [1] [8] fun _ => []] = some ([1, 4, 7], [1, 8, 7, 8]) ∧
      rootsAfter [.setStorage [1] (some [7]), .enterRuntime, .startTransaction,
        .setStorage [1] (some [8]), .storageRoot .v1, .exitRuntime] = some ([1, 8], [1, 7]) := by
  decide +kernel

/-! ## Lockstep in every run -/

inductive OverlayOp where
  | op (op : Op)
  | setOffchainStorage (key : StorageKey) (value : Option StorageValue)

def overlayStep (codec : StateCodec) (backend : Backend Root Tx)
    (changes : OverlayedChanges Root Tx) : OverlayOp → Option (OverlayedChanges Root Tx)
  | .op op => step codec backend changes op
  | .setOffchainStorage key value => some (changes.setOffchainStorage key value)

theorem Lockstep.setOffchainStorage (h : Lockstep law changes) (key : StorageKey)
    (value : Option StorageValue) : Lockstep law (changes.setOffchainStorage key value) := by
  obtain ⟨hsound, hctl⟩ := h.offchain.setOffchain (WellKnownKeys.storagePrefix, key)
    ((value.map OffchainOverlayedChange.setValue).getD .remove) none
  exact ⟨h.top, h.child, hsound, hctl.trans h.offchain_control⟩

/-- No `expect` fails, and after every operation all changesets agree on their open transactions, on
those of the client and on their mode. -/
theorem changesets_in_lockstep (codec : StateCodec) (law : codec.toCompactCodec.Lawful)
    (backend : Backend Root Tx) (collectExtrinsics : Bool) (ops : List OverlayOp) :
    ∃ changes, Run.exec (overlayStep codec backend) (empty collectExtrinsics) ops = some changes ∧
      (∀ (key : StorageKey) child, changes.children[key]? = some child →
        child.1.transactionDepth = changes.top.transactionDepth ∧
        child.1.numClientTransactions = changes.top.numClientTransactions ∧
        child.1.executionMode = changes.top.executionMode) ∧
      changes.offchain.transactionDepth = changes.top.transactionDepth ∧
      changes.offchain.numClientTransactions = changes.top.numClientTransactions ∧
      changes.offchain.executionMode = changes.top.executionMode := by
  have hstep : ∀ (changes : OverlayedChanges Root Tx) op, Lockstep law changes → True →
      ∃ after, overlayStep codec backend changes op = some after ∧ Lockstep law after := by
    rintro changes (op | ⟨key, value⟩) h -
    · obtain ⟨after, hafter, hlock, -⟩ := h.step backend op
      exact ⟨after, hafter, hlock⟩
    · exact ⟨_, rfl, h.setOffchainStorage key value⟩
  obtain ⟨changes, hexec, hlock⟩ := Run.exec_total hstep
    (lockstep_empty law collectExtrinsics) (Run.Along.of_forall (fun _ _ => trivial) _ ops)
  refine ⟨changes, hexec, fun key child hchild => ?_, ?_⟩
  · exact Control.mk.inj (hlock.child key child hchild).2
  · exact Control.mk.inj hlock.offchain_control

/-- Children that are spawned in an open transaction and in the runtime, a refused commit, and a
rollback that drops a child. -/
theorem changesets_in_lockstep_spawned :
    ∃ changes, Run.exec (overlayStep scaleCodec listBackend) (empty true)
        [.op .startTransaction, .op (.setChildStorage (.parentKeyId [9]) [2] (some [5])),
          .op .enterRuntime, .op .commitTransaction, .setOffchainStorage [1] none,
          .op .startTransaction, .op (.setChildStorage (.parentKeyId [8]) [2] none),
          .op .rollbackTransaction, .op .exitRuntime] = some changes ∧
      changes.offchain.transactionDepth = changes.top.transactionDepth := by
  obtain ⟨changes, hexec, -, hdepth, -⟩ :=
    changesets_in_lockstep scaleCodec scaleCompact_lawful listBackend true _
  exact ⟨changes, hexec, hdepth⟩

end OverlayedChanges

end PolkadotSdk.StateMachine
