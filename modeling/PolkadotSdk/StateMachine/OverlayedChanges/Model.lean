import PolkadotSdk.Lib.MapTraversal
import PolkadotSdk.StateMachine.Changeset.Model

/-! # Overlayed changes

The top changeset, one changeset per child trie and the offchain changeset transact
in lockstep. The storage root over all of them is cached together with the backend
transaction it came from. Child tries are visited in key order; the source leaves
the order to its hash map. The usage statistics and the transaction index are not
part of the model: nothing here reads them.
-/

namespace PolkadotSdk.StateMachine

open Std MapTraversal

attribute [local instance] lexOrd

inductive StateVersion where
  | v0
  | v1
  deriving DecidableEq, Repr

namespace WellKnownKeys

def extrinsicIndex : StorageKey :=
  [58, 101, 120, 116, 114, 105, 110, 115, 105, 99, 95, 105, 110, 100, 101, 120]

def defaultChildStorageKeyPrefix : StorageKey :=
  [58, 99, 104, 105, 108, 100, 95, 115, 116, 111, 114, 97, 103, 101, 58, 100, 101, 102, 97, 117,
    108, 116, 58]

def storagePrefix : StorageKey := [115, 116, 111, 114, 97, 103, 101]

end WellKnownKeys

/-- Changes made outside of extrinsics carry this index. -/
def noExtrinsicIndex : Nat := 0xffffffff

inductive ChildInfo where
  | parentKeyId (data : StorageKey)
  deriving DecidableEq, Repr

namespace ChildInfo

def storageKey : ChildInfo → StorageKey
  | .parentKeyId data => data

def prefixedStorageKey : ChildInfo → StorageKey
  | .parentKeyId data => WellKnownKeys.defaultChildStorageKeyPrefix ++ data

end ChildInfo

inductive OffchainOverlayedChange where
  | remove
  | setValue (value : StorageValue)
  deriving DecidableEq, Repr

abbrev OffchainOverlayedChanges := OverlayedMap (StorageKey × StorageKey) OffchainOverlayedChange

def OffchainOverlayedChanges.drain (offchain : OffchainOverlayedChanges) :
    Option (List ((StorageKey × StorageKey) × OffchainOverlayedChange)) :=
  offchain.changes.toList.mapM fun entry =>
    entry.2.transactions.head?.map fun newest => (entry.1, newest.value)

/-! ## The backend -/

abbrev Delta := List (StorageKey × Option StorageValue)

structure Backend (Root Tx : Type) where
  storageRoot : Delta → StateVersion → Root × Tx
  childStorageRoot : ChildInfo → Delta → StateVersion → Root × Bool × Tx
  encodeRoot : Root → StorageValue
  emptyTransaction : Tx
  consolidate : Tx → Tx → Tx

namespace Backend

variable {Root Tx : Type}

/-- One child trie: its root goes to the top trie, unless the child is empty. -/
def addChild (backend : Backend Root Tx) (stateVersion : StateVersion) (acc : Tx × Delta)
    (child : ChildInfo × Delta) : Tx × Delta :=
  let (childRoot, empty, childTxs) := backend.childStorageRoot child.1 child.2 stateVersion
  (backend.consolidate acc.1 childTxs,
    acc.2 ++ [(child.1.prefixedStorageKey,
      if empty then none else some (backend.encodeRoot childRoot))])

def fullStorageRoot (backend : Backend Root Tx) (delta : Delta)
    (childDeltas : List (ChildInfo × Delta)) (stateVersion : StateVersion) : Root × Tx :=
  let (txs, childRoots) :=
    childDeltas.foldl (backend.addChild stateVersion) (backend.emptyTransaction, [])
  let (root, parentTxs) := backend.storageRoot (delta ++ childRoots) stateVersion
  (root, backend.consolidate txs parentTxs)

end Backend

/-- The codec of lists, and of the `u32` extrinsic index. -/
structure StateCodec extends CompactCodec where
  decodeU32 : List UInt8 → Option Nat

/-- The SCALE codec; a `u32` is four little-endian bytes. -/
def scaleCodec : StateCodec where
  toCompactCodec := scaleCompact
  decodeU32 bytes :=
    if 4 ≤ bytes.length then some (LittleEndian.leNat (bytes.take 4)) else none

structure StorageTransactionCache (Root Tx : Type) where
  transaction : Tx
  transactionStorageRoot : Root
  stateVersion : StateVersion
  deriving DecidableEq, Repr

abbrev Children := ExtTreeMap StorageKey (OverlayedChangeSet × ChildInfo)

structure OverlayedChanges (Root Tx : Type) where
  top : OverlayedChangeSet
  children : Children
  offchain : OffchainOverlayedChanges
  collectExtrinsics : Bool
  storageTransactionCache : Option (StorageTransactionCache Root Tx)

/-- A failed `expect` on the result of a changeset operation is a panic. -/
def expectOk {ε α : Type} : Option (Except ε α) → Option α
  | some (.ok value) => some value
  | _ => none

namespace OverlayedChanges

variable {Root Tx : Type}

def empty (collectExtrinsics : Bool) : OverlayedChanges Root Tx :=
  ⟨.empty, ∅, .empty, collectExtrinsics, none⟩

variable (codec : StateCodec) (changes : OverlayedChanges Root Tx)

def markDirty : OverlayedChanges Root Tx :=
  { changes with storageTransactionCache := none }

/-! ## Values -/

def storage (key : StorageKey) :
    Option (Option (Option StorageValue) × OverlayedChanges Root Tx) :=
  (changes.top.read codec.toCompactCodec key).map fun (value, top) => (value, { changes with top })

def extrinsicIndex :
    Option (Option Nat × OverlayedChanges Root Tx) :=
  if changes.collectExtrinsics then
    (changes.storage codec WellKnownKeys.extrinsicIndex).map fun (value, changes) =>
      (some ((value.join.bind codec.decodeU32).getD noExtrinsicIndex), changes)
  else some (none, changes)

def setStorage (key : StorageKey)
    (val : Option StorageValue) : Option (OverlayedChanges Root Tx) := do
  let (extrinsicIndex, changes) ← changes.markDirty.extrinsicIndex codec
  let top ← changes.top.set codec.toCompactCodec key val extrinsicIndex
  some { changes with top }

/-- The cached root is kept here. -/
def appendStorage (key : StorageKey)
    (element : StorageValue) (init : Unit → StorageValue) : Option (OverlayedChanges Root Tx) := do
  let (extrinsicIndex, changes) ← changes.extrinsicIndex codec
  some { changes with
    top := changes.top.appendStorage codec.toCompactCodec key element init extrinsicIndex }

def setOffchainStorage (key : StorageKey)
    (value : Option StorageValue) : OverlayedChanges Root Tx :=
  let change := (value.map OffchainOverlayedChange.setValue).getD .remove
  { changes with
    offchain := changes.offchain.setOffchain (WellKnownKeys.storagePrefix, key) change none }

def childOrSpawn (childInfo : ChildInfo) :
    OverlayedChangeSet × ChildInfo :=
  (changes.children[childInfo.storageKey]?).getD (changes.top.spawnChild, childInfo)

def withChild {α : Type} (changes : OverlayedChanges Root Tx) (childInfo : ChildInfo)
    (f : OverlayedChangeSet → Option (α × OverlayedChangeSet)) :
    Option (α × OverlayedChanges Root Tx) :=
  let (changeset, info) := changes.childOrSpawn childInfo
  (f changeset).map fun (out, changeset) =>
    (out, { changes with
      children := changes.children.insert childInfo.storageKey (changeset, info) })

def setChildStorage (childInfo : ChildInfo) (key : StorageKey) (val : Option StorageValue) :
    Option (OverlayedChanges Root Tx) := do
  let (extrinsicIndex, changes) ← changes.markDirty.extrinsicIndex codec
  let (_, changes) ← changes.withChild childInfo fun changeset =>
    (changeset.set codec.toCompactCodec key val extrinsicIndex).map fun written => ((), written)
  some changes

def clearChildWhere (childInfo : ChildInfo) (predicate : StorageKey → OverlayedValue → Bool) :
    Option (Nat × OverlayedChanges Root Tx) := do
  let (extrinsicIndex, changes) ← changes.markDirty.extrinsicIndex codec
  changes.withChild childInfo fun changeset =>
    changeset.clearWhere codec.toCompactCodec predicate extrinsicIndex

def clearChildStorage (childInfo : ChildInfo) : Option (Nat × OverlayedChanges Root Tx) :=
  changes.clearChildWhere codec childInfo fun _ _ => true

def clearChildPrefix (childInfo : ChildInfo) (keyPrefix : StorageKey) : Option (Nat × OverlayedChanges Root Tx) :=
  changes.clearChildWhere codec childInfo fun key _ => keyPrefix.isPrefixOf key

def clearPrefix (keyPrefix : StorageKey) : Option (Nat × OverlayedChanges Root Tx) := do
  let (extrinsicIndex, changes) ← changes.markDirty.extrinsicIndex codec
  let (count, top) ← changes.top.clearWhere codec.toCompactCodec
    (fun key _ => keyPrefix.isPrefixOf key) extrinsicIndex
  some (count, { changes with top })

/-! ## Transactions -/

def forChildren {ε : Type} (f : OverlayedChangeSet → Option (Except ε OverlayedChangeSet))
    (children : Children) : Option Children :=
  alterAll (fun child => (expectOk (f child.1)).map fun changeset => some (changeset, child.2))
    children

/-- As `forChildren`, and drop the children left without changes. -/
def retainChildren {ε : Type} (f : OverlayedChangeSet → Option (Except ε OverlayedChangeSet))
    (children : Children) : Option Children :=
  alterAll (fun child => (expectOk (f child.1)).map fun changeset =>
    if changeset.isEmpty then none else some (changeset, child.2)) children

def startTransaction : OverlayedChanges Root Tx :=
  { changes with
    top := changes.top.startTransaction
    children := changes.children.map fun _ child => (child.1.startTransaction, child.2)
    offchain := changes.offchain.startTransaction }

/-- The root cache is invalidated even if there is no transaction to roll back. -/
def rollbackTransaction :
    Option (Except NoOpenTransaction Unit × OverlayedChanges Root Tx) :=
  let changes := changes.markDirty
  match changes.top.closeTransaction codec.toCompactCodec true with
  | none => none
  | some (.error e) => some (.error e, changes)
  | some (.ok top) => do
    let children ← retainChildren (·.closeTransaction codec.toCompactCodec true) changes.children
    let offchain ← expectOk (changes.offchain.closeTransactionOffchain true)
    some (.ok (), { changes with top, children, offchain })

def commitTransaction :
    Option (Except NoOpenTransaction Unit × OverlayedChanges Root Tx) :=
  match changes.top.closeTransaction codec.toCompactCodec false with
  | none => none
  | some (.error e) => some (.error e, changes)
  | some (.ok top) => do
    let children ← forChildren (·.closeTransaction codec.toCompactCodec false) changes.children
    let offchain ← expectOk (changes.offchain.closeTransactionOffchain false)
    some (.ok (), { changes with top, children, offchain })

def enterRuntime :
    Option (Except AlreadyInRuntime Unit × OverlayedChanges Root Tx) :=
  match changes.top.enterRuntime with
  | .error e => some (.error e, changes)
  | .ok top => do
    let children ← forChildren (fun changeset => some changeset.enterRuntime) changes.children
    let offchain ← expectOk (some changes.offchain.enterRuntime)
    some (.ok (), { changes with top, children, offchain })

/-- Transactions the runtime left open are rolled back; the cached root is kept. -/
def exitRuntime :
    Option (Except NotInRuntime Unit × OverlayedChanges Root Tx) :=
  match changes.top.exitRuntime codec.toCompactCodec with
  | none => none
  | some (.error e) => some (.error e, changes)
  | some (.ok top) => do
    let children ← forChildren (·.exitRuntime codec.toCompactCodec) changes.children
    let offchain ← expectOk changes.offchain.exitRuntimeOffchain
    some (.ok (), { changes with top, children, offchain })

/-! ## The storage root -/

def readValues (codec : CompactCodec) (changeset : OverlayedChangeSet) :
    Option (Delta × OverlayedChangeSet) :=
  (readAll (OverlayedEntry.value codec) changeset.changes).map fun (delta, entries) =>
    (delta, { changeset with changes := entries })

def readChildren (codec : CompactCodec) (children : Children) :
    Option (List (ChildInfo × Delta) × Children) :=
  (readAll (fun child => (readValues codec child.1).map fun (delta, changeset) =>
    ((child.2, delta), (changeset, child.2))) children).map fun (deltas, children) =>
      (deltas.map (·.2), children)

def storageRoot (backend : Backend Root Tx)
    (changes : OverlayedChanges Root Tx) (stateVersion : StateVersion) :
    Option ((Root × Bool) × OverlayedChanges Root Tx) :=
  let compute : Option ((Root × Bool) × OverlayedChanges Root Tx) := do
    let (delta, top) ← readValues codec.toCompactCodec changes.top
    let (childDelta, children) ← readChildren codec.toCompactCodec changes.children
    let (root, transaction) := backend.fullStorageRoot delta childDelta stateVersion
    some ((root, false), { changes with
      top, children, storageTransactionCache := some ⟨transaction, root, stateVersion⟩ })
  match changes.storageTransactionCache with
  | some cache =>
    if cache.stateVersion = stateVersion then some ((cache.transactionStorageRoot, true), changes)
    else compute
  | none => compute

end OverlayedChanges

end PolkadotSdk.StateMachine
