import PolkadotSdk.StateMachine.OverlayedChanges.RootCache

/-! # Draining the changes

At the end of a block the changes are taken out of the overlay, together with the backend
transaction that writes them. The transaction is the cached one if there is any, whatever state
version it was computed under. It belongs to the changes where the cache is fresh and of the
version asked for.
-/

namespace PolkadotSdk.StateMachine

open Std MapTraversal

attribute [local instance] lexOrd

/-- No transaction may be open. -/
def OverlayedMap.drainCommitted (codec : CompactCodec) (map : OverlayedChangeSet) : Option Delta :=
  if map.transactionDepth = 0 then
    map.changes.toList.mapM fun entry =>
      entry.2.transactions.head?.map fun newest => (entry.1, newest.value.asOption codec)
  else none

structure StorageChanges (Root Tx : Type) where
  mainStorageChanges : Delta
  childStorageChanges : List (StorageKey × Delta)
  offchainStorageChanges : List ((StorageKey × StorageKey) × OffchainOverlayedChange)
  transaction : Tx
  transactionStorageRoot : Root

structure ChildBackend (Root Tx E : Type) extends Backend Root Tx where
  storage : StorageKey → Except E (Option StorageValue)
  decodeRoot : StorageValue → Option Root
  emptyChildTrieRoot : Root

namespace OverlayedChanges

variable {Root Tx E : Type}

/-- The root of a child trie, and whether it was cached. It is stored in the top trie, unless a
root is cached. -/
def childStorageRoot (codec : StateCodec) (backend : ChildBackend Root Tx E)
    (changes : OverlayedChanges Root Tx) (childInfo : ChildInfo) (stateVersion : StateVersion) :
    Option (Except E (Root × Bool) × OverlayedChanges Root Tx) :=
  let decoded (stored : Option StorageValue) : Root :=
    (stored.bind backend.decodeRoot).getD backend.emptyChildTrieRoot
  if changes.storageTransactionCache.isSome then do
    let (value, changes) ← changes.storage codec childInfo.prefixedStorageKey
    let stored : Except E (Option StorageValue) := match value with
      | some value => .ok value
      | none => backend.storage childInfo.prefixedStorageKey
    some (stored.map fun stored => (decoded stored, true), changes)
  else
    match changes.children[childInfo.storageKey]? with
    | some (changeset, info) => do
      let (delta, changeset) ← readValues codec.toCompactCodec changeset
      let changes := { changes with
        children := changes.children.insert childInfo.storageKey (changeset, info) }
      let (root, isEmpty, _) := backend.childStorageRoot info delta stateVersion
      let changes ← changes.setStorage codec childInfo.prefixedStorageKey
        (if isEmpty then none else some (backend.encodeRoot root))
      some (.ok (root, false), changes.markDirty)
    | none =>
      some ((backend.storage childInfo.prefixedStorageKey).map fun stored =>
        (decoded stored, false), changes)

/-- The cached transaction, or else the one of a root that is computed now. -/
def takeTransaction (codec : StateCodec) (backend : Backend Root Tx)
    (changes : OverlayedChanges Root Tx) (stateVersion : StateVersion) :
    Option ((Root × Tx) × OverlayedChanges Root Tx) :=
  match changes.storageTransactionCache with
  | some cache => some ((cache.transactionStorageRoot, cache.transaction), changes.markDirty)
  | none => do
    let (_, changes) ← changes.storageRoot codec backend stateVersion
    let cache ← changes.storageTransactionCache
    some ((cache.transactionStorageRoot, cache.transaction), changes.markDirty)

def drainStorageChanges (codec : StateCodec) (backend : Backend Root Tx)
    (changes : OverlayedChanges Root Tx) (stateVersion : StateVersion) :
    Option (StorageChanges Root Tx × OverlayedChanges Root Tx) := do
  let ((transactionStorageRoot, transaction), changes) ←
    changes.takeTransaction codec backend stateVersion
  let mainStorageChanges ← changes.top.drainCommitted codec.toCompactCodec
  let childStorageChanges ← changes.children.toList.mapM fun child =>
    (child.2.1.drainCommitted codec.toCompactCodec).map fun delta => (child.1, delta)
  let offchainStorageChanges ← OffchainOverlayedChanges.drain changes.offchain
  some (⟨mainStorageChanges, childStorageChanges, offchainStorageChanges, transaction,
    transactionStorageRoot⟩, { changes with top := .empty, children := ∅, offchain := .empty })

variable {codec : StateCodec} {law : codec.toCompactCodec.Lawful} {backend : Backend Root Tx}
variable {changes after : OverlayedChanges Root Tx}

/-! ## Runs -/

inductive RootOp where
  | op (op : Op)
  | setOffchainStorage (key : StorageKey) (value : Option StorageValue)
  | childStorageRoot (childInfo : ChildInfo) (stateVersion : StateVersion)

def rootStep (codec : StateCodec) (backend : ChildBackend Root Tx E)
    (changes : OverlayedChanges Root Tx) : RootOp → Option (OverlayedChanges Root Tx)
  | .op op => step codec backend.toBackend changes op
  | .setOffchainStorage key value => some (changes.setOffchainStorage key value)
  | .childStorageRoot childInfo stateVersion =>
    (changes.childStorageRoot codec backend childInfo stateVersion).map (·.2)

def RootOp.Guarded (changes : OverlayedChanges Root Tx) : RootOp → Prop
  | .op operation => OverlayedChanges.Guarded changes operation
  | .setOffchainStorage .. | .childStorageRoot .. => True

instance (changes : OverlayedChanges Root Tx) :
    (op : RootOp) → Decidable (RootOp.Guarded changes op)
  | .op op => decidableGuarded changes op
  | .setOffchainStorage .. | .childStorageRoot .. => instDecidableTrue

/-- What a drain needs: the transaction that is cached is that of the values shown. -/
structure Drainable (law : codec.toCompactCodec.Lawful) (backend : Backend Root Tx)
    (changes : OverlayedChanges Root Tx) : Prop where
  lock : Lockstep law changes
  named : Named changes
  fresh : CacheFresh codec backend changes

theorem Drainable.childStorageRoot {backend : ChildBackend Root Tx E}
    (h : Drainable law backend.toBackend changes) (childInfo : ChildInfo)
    (stateVersion : StateVersion) :
    ∃ result after, changes.childStorageRoot codec backend childInfo stateVersion =
      some (result, after) ∧ Drainable law backend.toBackend after := by
  unfold OverlayedChanges.childStorageRoot
  dsimp only
  split_ifs with hcache
  · -- only the stored root is read
    obtain ⟨value, top, hread, hsound, hctl, hvisible⟩ :=
      h.lock.top.read childInfo.prefixedStorageKey
    simp only [storage, hread, Option.map_some, Option.bind_eq_bind, Option.bind_some]
    refine ⟨_, _, rfl, h.lock.withTop hsound hctl, h.named, h.fresh.of_same rfl ?_⟩
    simp [visible, hvisible]
  · cases hchild : changes.children[childInfo.storageKey]? with
    | none => exact ⟨_, changes, rfl, h⟩
    | some child =>
      obtain ⟨hsound, hctl⟩ := h.lock.child _ child hchild
      obtain ⟨_, read, hread, hlock, -, hnamed⟩ := h.lock.withChild childInfo
        (f := fun changeset => some ((), changeset.materializeAll codec.toCompactCodec))
        fun changeset hsound => ⟨(), _, rfl, hsound.materializeAll.1, rfl⟩
      simp only [withChild, childOrSpawn, hchild, Option.getD_some, Option.map_some,
        Option.some.injEq, Prod.mk.injEq, true_and] at hread
      obtain ⟨root, isEmpty, transaction, hroot⟩ : ∃ root isEmpty transaction,
          backend.childStorageRoot child.2 (child.1.visible codec.toCompactCodec).toList
            stateVersion = (root, isEmpty, transaction) := ⟨_, _, _, rfl⟩
      obtain ⟨after, hset, hafter, -, hchildren⟩ := hlock.setStorage childInfo.prefixedStorageKey
        (if isEmpty then none else some (backend.encodeRoot root))
      refine ⟨.ok (root, false), after.markDirty, ?_, hafter.markDirty, ?_,
        cacheFresh_of_none rfl⟩
      · simp [readValues_eq hsound, hroot, hread, hset]
      · have hafter : Named after := by
          rw [Named, hchildren]
          exact hnamed h.named
        exact hafter

theorem Drainable.step {backend : ChildBackend Root Tx E}
    (h : Drainable law backend.toBackend changes) (op : RootOp)
    (hguard : RootOp.Guarded changes op) :
    ∃ after, rootStep codec backend changes op = some after ∧
      Drainable law backend.toBackend after := by
  cases op with
  | op op =>
    obtain ⟨after, hafter, hlock, hnamed, hfresh⟩ := h.lock.step backend.toBackend op
    exact ⟨after, hafter, hlock, hnamed h.named, hfresh hguard h.fresh⟩
  | setOffchainStorage key value =>
    exact ⟨_, rfl, h.lock.setOffchainStorage key value, h.named, h.fresh.of_same rfl rfl⟩
  | childStorageRoot childInfo stateVersion =>
    obtain ⟨result, after, hroot, hafter⟩ := h.childStorageRoot childInfo stateVersion
    exact ⟨after, by simp [rootStep, hroot], hafter⟩

/-! ## The drain -/

theorem mapM_eq_some {α β : Type} {f : α → Option β} {g : α → β} {items : List α}
    (h : ∀ x ∈ items, f x = some (g x)) : items.mapM f = some (items.map g) := by
  induction items with
  | nil => rfl
  | cons x items ih =>
    rw [List.forall_mem_cons] at h
    simp [List.mapM_cons, h.1, ih h.2]

theorem drainCommitted_eq {map : OverlayedChangeSet}
    (h : OverlayedMap.Sound (storageVersions law) map) (hdepth : map.transactionDepth = 0) :
    map.drainCommitted codec.toCompactCodec =
      some (map.visible codec.toCompactCodec).toList := by
  obtain ⟨stack, href⟩ := h
  rw [OverlayedMap.drainCommitted, if_pos hdepth, OverlayedMap.visible, ExtTreeMap.toList_map]
  refine mapM_eq_some fun entry hentry => ?_
  obtain ⟨newest, older, htransactions⟩ := List.exists_cons_of_ne_nil
    ((href.at_key entry.1).nonempty entry.2 (getElem?_of_mem_toList hentry))
  simp [OverlayedEntry.newest, htransactions]

theorem drainOffchain_isSome (h : Lockstep law changes) :
    ∃ drained, OffchainOverlayedChanges.drain changes.offchain = some drained := by
  obtain ⟨stack, href⟩ := h.offchain
  refine ⟨_, mapM_eq_some (g := fun entry =>
    (entry.1, ((entry.2.transactions.head?).map (·.value)).getD .remove)) fun entry hentry => ?_⟩
  obtain ⟨newest, older, htransactions⟩ := List.exists_cons_of_ne_nil
    ((href.at_key entry.1).nonempty entry.2 (getElem?_of_mem_toList hentry))
  simp [htransactions]

theorem Drainable.takeTransaction (h : Drainable law backend changes)
    (stateVersion : StateVersion)
    (hversion : ∀ cache ∈ changes.storageTransactionCache, cache.stateVersion = stateVersion) :
    ∃ mid, changes.takeTransaction codec backend stateVersion =
        some (changes.currentRoot codec backend stateVersion, mid) ∧ Lockstep law mid ∧
      Named mid ∧ mid.visible codec = changes.visible codec ∧
      mid.top.transactionDepth = changes.top.transactionDepth ∧
      mid.collectExtrinsics = changes.collectExtrinsics ∧ mid.storageTransactionCache = none := by
  unfold OverlayedChanges.takeTransaction
  cases hcache : changes.storageTransactionCache with
  | some cache =>
    have hfresh := h.fresh cache hcache
    rw [hversion cache hcache] at hfresh
    exact ⟨changes.markDirty, congrArg (fun result => some (result, changes.markDirty)) hfresh,
      h.lock.markDirty, h.named, rfl, rfl, rfl, rfl⟩
  | none =>
    dsimp only
    rw [h.lock.storageRoot_of_miss backend stateVersion (by simp [hcache])]
    exact ⟨_, rfl, (h.lock.recomputed backend stateVersion).1.markDirty, h.named.map rfl,
      h.lock.visible_recomputed backend stateVersion, rfl, rfl, rfl⟩

theorem Drainable.drain (h : Drainable law backend changes) (stateVersion : StateVersion)
    (hdepth : changes.top.transactionDepth = 0)
    (hversion : ∀ cache ∈ changes.storageTransactionCache, cache.stateVersion = stateVersion) :
    ∃ drained, changes.drainStorageChanges codec backend stateVersion =
        some (drained, empty changes.collectExtrinsics) ∧
      (drained.transactionStorageRoot, drained.transaction) =
        backend.fullStorageRoot drained.mainStorageChanges
          (drained.childStorageChanges.map fun child => (.parentKeyId child.1, child.2))
          stateVersion := by
  obtain ⟨mid, htake, hlock, hnamed, hvisible, hdepth', hcollect, hcache⟩ :=
    h.takeTransaction stateVersion hversion
  have htop := drainCommitted_eq hlock.top (hdepth'.trans hdepth)
  have hchildren : (mid.children.toList.mapM fun child =>
      (child.2.1.drainCommitted codec.toCompactCodec).map fun delta => (child.1, delta)) =
      some (mid.children.toList.map fun child =>
        (child.1, (child.2.1.visible codec.toCompactCodec).toList)) := by
    refine mapM_eq_some fun child hchild => ?_
    obtain ⟨hsound, hctl⟩ := hlock.child _ _ (getElem?_of_mem_toList hchild)
    rw [drainCommitted_eq hsound ((congrArg Control.depth hctl).trans (hdepth'.trans hdepth))]
    rfl
  obtain ⟨offchain, hoffchain⟩ := drainOffchain_isSome hlock
  refine ⟨⟨(mid.top.visible codec.toCompactCodec).toList, mid.children.toList.map fun child =>
    (child.1, (child.2.1.visible codec.toCompactCodec).toList), offchain,
    (changes.currentRoot codec backend stateVersion).2,
    (changes.currentRoot codec backend stateVersion).1⟩, ?_, ?_⟩
  · simp only [drainStorageChanges, htake, htop, hchildren, hoffchain, Option.bind_eq_bind,
      Option.bind_some]
    rw [empty, ← hcollect, ← hcache]
  · change changes.currentRoot codec backend stateVersion = _
    rw [currentRoot, ← hvisible, Visible.fullRoot, visible, visibleChildren,
      ExtTreeMap.toList_map, List.map_map, List.map_map]
    congr 1
    refine List.map_congr_left fun child hchild => ?_
    have hname := hnamed _ _ (getElem?_of_mem_toList hchild)
    obtain ⟨key, changeset, ⟨data⟩⟩ := child
    obtain rfl : data = key := hname
    rfl

/-- In every run in which nothing is appended and no write is left open while a root is cached, a
drain under the version of the cached root, if there is one, returns the root and the transaction
that the backend computes from the returned changes. The overlay is empty after it, and its root
is that of the backend. -/
theorem drain_matches (codec : StateCodec) (law : codec.toCompactCodec.Lawful)
    (backend : ChildBackend Root Tx E) (collectExtrinsics : Bool) (ops : List RootOp)
    (hguard : Run.Along (rootStep codec backend) RootOp.Guarded (empty collectExtrinsics) ops) :
    ∃ changes, Run.exec (rootStep codec backend) (empty collectExtrinsics) ops = some changes ∧
      ∀ stateVersion, changes.top.transactionDepth = 0 →
        (∀ cache ∈ changes.storageTransactionCache, cache.stateVersion = stateVersion) →
        ∃ drained after,
          changes.drainStorageChanges codec backend.toBackend stateVersion =
            some (drained, after) ∧
          (drained.transactionStorageRoot, drained.transaction) =
            backend.fullStorageRoot drained.mainStorageChanges
              (drained.childStorageChanges.map fun child => (.parentKeyId child.1, child.2))
              stateVersion ∧
          after.visible codec = ⟨∅, ∅⟩ ∧
          ∀ version, ∃ later, after.storageRoot codec backend.toBackend version =
            some (((backend.storageRoot [] version).1, false), later) := by
  obtain ⟨changes, hexec, hchanges⟩ := Run.exec_total
    (fun changes op h hop => Drainable.step h op hop)
    (⟨lockstep_empty law collectExtrinsics, by simp [Named, empty], cacheFresh_of_none rfl⟩ :
      Drainable law backend.toBackend (empty collectExtrinsics)) hguard
  refine ⟨changes, hexec, fun stateVersion hdepth hversion => ?_⟩
  obtain ⟨drained, hdrain, hroot⟩ := hchanges.drain stateVersion hdepth hversion
  have hnothing : (empty changes.collectExtrinsics : OverlayedChanges Root Tx).visible codec =
      ⟨∅, ∅⟩ := by
    simp [visible, visibleChildren, OverlayedMap.visible, empty, OverlayedMap.empty]
  refine ⟨drained, _, hdrain, hroot, hnothing, fun version =>
    ⟨(empty changes.collectExtrinsics).recomputed codec backend.toBackend version, ?_⟩⟩
  rw [(lockstep_empty law changes.collectExtrinsics).storageRoot_of_miss backend.toBackend version
    (by simp [empty]), currentRoot, hnothing]
  rfl

/-- Under version 1 a trie stores values of 33 bytes or more by their hash, which gives another
root. -/
def versionBackend : ChildBackend (List UInt8) Unit Empty where
  toBackend := { listBackend with
    storageRoot := fun delta stateVersion =>
      let hashed := stateVersion = .v1 ∧ ∃ change ∈ delta, ∃ value ∈ change.2, 33 ≤ value.length
      ((if hashed then 1 else 0) :: (listBackend.storageRoot delta stateVersion).1, ()) }
  storage _ := .ok none
  decodeRoot := some
  emptyChildTrieRoot := []

def drainedAfter (ops : List RootOp) (stateVersion : StateVersion) :
    Option (List UInt8 × List UInt8) := do
  let changes ← Run.exec (rootStep scaleCodec versionBackend) (empty false) ops
  let (drained, _) ← changes.drainStorageChanges scaleCodec versionBackend.toBackend stateVersion
  some (drained.transactionStorageRoot, (versionBackend.fullStorageRoot drained.mainStorageChanges
    (drained.childStorageChanges.map fun child => (.parentKeyId child.1, child.2)) stateVersion).1)

def childRun : List RootOp :=
  [.op (.setChildStorage (.parentKeyId [9]) [2] (some [5])), .op .startTransaction,
    .childStorageRoot (.parentKeyId [9]) .v1, .op .commitTransaction, .op (.storageRoot .v1),
    .setOffchainStorage [1] (some [6]), .childStorageRoot (.parentKeyId [9]) .v1]

theorem drain_matches_childRun :
    ∃ changes, Run.exec (rootStep scaleCodec versionBackend) (empty false) childRun =
        some changes ∧
      ∃ drained after, changes.drainStorageChanges scaleCodec versionBackend.toBackend .v1 =
          some (drained, after) ∧ after.visible scaleCodec = ⟨∅, ∅⟩ := by
  obtain ⟨changes, hexec, hdrain⟩ := drain_matches scaleCodec scaleCompact_lawful versionBackend
    false childRun (by decide +kernel)
  have hready : (Run.exec (rootStep scaleCodec versionBackend) (empty false) childRun).all
      (fun changes => changes.top.transactionDepth = 0 ∧
        ∀ cache ∈ changes.storageTransactionCache, cache.stateVersion = .v1) = true := by
    decide +kernel
  rw [hexec] at hready
  obtain ⟨hdepth, hversion⟩ := of_decide_eq_true hready
  obtain ⟨drained, after, heq, -, hvisible, -⟩ := hdrain .v1 hdepth hversion
  exact ⟨changes, hexec, drained, after, heq, hvisible⟩

/-- A root cached under the other version, and a value appended after the root was cached. -/
theorem drain_mismatch :
    drainedAfter [.op (.setStorage [1] (some (List.replicate 33 7))), .op (.storageRoot .v0)] .v1 =
        some (0 :: 1 :: List.replicate 33 7, 1 :: 1 :: List.replicate 33 7) ∧
      drainedAfter [.op (.setStorage [1] (some [4, 7])), .op (.storageRoot .v1),
        .op (.appendStorage [1] [8] fun _ => [])] .v1 =
        some ([0, 1, 4, 7], [0, 1, 8, 7, 8]) := by
  decide +kernel

end OverlayedChanges

end PolkadotSdk.StateMachine
