import Mathlib
import PolkadotSdk.StateMachine.StorageAppend

/-! # The transactional changeset

`OverlayedMap` keeps, for every key, one version of the value per open
transaction that wrote it. `OverlayedChangeSet` is the instance for storage
entries, where an append moves the byte buffer of the version below into the new
version and gives it back on rollback. Stacks are lists with the newest element
first. A failed `expect` is `none`; `u32` counters wrap.
-/

namespace PolkadotSdk.StateMachine

open Std

def u32Succ (n : Nat) : Nat := (n + 1) % 2 ^ 32

structure Extrinsics where
  indices : List Nat
  deriving DecidableEq, Repr

namespace Extrinsics

def empty : Extrinsics := ⟨[]⟩

def insert (extrinsics : Extrinsics) (ext : Nat) : Extrinsics :=
  if some ext ≠ extrinsics.indices.getLast? then ⟨extrinsics.indices ++ [ext]⟩ else extrinsics

def insertAt (extrinsics : Extrinsics) (atExtrinsic : Option Nat) : Extrinsics :=
  match atExtrinsic with
  | some ext => extrinsics.insert ext
  | none => extrinsics

def extend (extrinsics other : Extrinsics) : Extrinsics := ⟨extrinsics.indices ++ other.indices⟩

end Extrinsics

inductive ExecutionMode where
  | client
  | runtime
  deriving DecidableEq, Repr

inductive NoOpenTransaction where
  | noOpenTransaction
  deriving DecidableEq, Repr

inductive AlreadyInRuntime where
  | alreadyInRuntime
  deriving DecidableEq, Repr

inductive NotInRuntime where
  | notInRuntime
  deriving DecidableEq, Repr

structure InnerValue (V : Type) where
  value : V
  extrinsics : Extrinsics
  deriving DecidableEq, Repr

structure OverlayedEntry (V : Type) where
  transactions : List (InnerValue V)
  deriving DecidableEq, Repr

/-! ## Storage entries -/

inductive StorageEntry where
  | set (data : StorageValue)
  | remove
  | append (data : StorageValue) (currentLength : Nat) (materializedLength : Option Nat)
      (parentSize : Option Nat)
  deriving DecidableEq, Repr

namespace StorageEntry

def materializeInPlace (codec : CompactCodec) : StorageEntry → StorageEntry
  | .append data currentLength materializedLength parentSize =>
    if materializedLength = some currentLength then
      .append data currentLength materializedLength parentSize
    else
      .append (StorageAppend.replaceLength codec data materializedLength currentLength)
        currentLength (some currentLength) parentSize
  | entry => entry

def data? : StorageEntry → Option StorageValue
  | .append data _ _ _ => some data
  | .set data => some data
  | .remove => none

def asOption (codec : CompactCodec) (entry : StorageEntry) : Option StorageValue :=
  (entry.materializeInPlace codec).data?

def ofOption : Option StorageValue → StorageEntry
  | some data => .set data
  | none => .remove

end StorageEntry

abbrev OverlayedValue := OverlayedEntry StorageEntry

/-- The parent inherits the count in front of the data, so its size shifts by the difference of the
two. -/
def restoreAppendToParent (codec : CompactCodec) (parent : StorageEntry)
    (currentData : StorageValue) (currentMaterialized : Option Nat) (targetParentSize : Nat) :
    StorageEntry :=
  match parent with
  | .append _ currentLength parentMaterialized parentSize =>
    let prev := StorageAppend.lengthLen codec parentMaterialized
    let new := StorageAppend.lengthLen codec currentMaterialized
    let delta := max new prev - min new prev
    let target := if new ≤ prev then targetParentSize - delta else targetParentSize + delta
    .append (currentData.take target) currentLength currentMaterialized parentSize
  | parent => parent

namespace OverlayedEntry

def setOffchain {V : Type} (entry : OverlayedEntry V) (value : V) (firstWriteInTx : Bool)
    (atExtrinsic : Option Nat) : OverlayedEntry V :=
  match firstWriteInTx, entry.transactions with
  | false, old :: rest => ⟨⟨value, old.extrinsics.insertAt atExtrinsic⟩ :: rest⟩
  | _, transactions => ⟨⟨value, Extrinsics.empty.insertAt atExtrinsic⟩ :: transactions⟩

variable (codec : CompactCodec) (entry : OverlayedValue)

/-- Overwriting an append that holds its parent's buffer returns the buffer. -/
def set (value : Option StorageValue)
    (firstWriteInTx : Bool) (atExtrinsic : Option Nat) : Option OverlayedValue :=
  match firstWriteInTx, entry.transactions with
  | false, old :: rest =>
    let new : InnerValue StorageEntry :=
      ⟨.ofOption value, old.extrinsics.insertAt atExtrinsic⟩
    match old.value, rest with
    | .append data _ materializedLength (some parentSize), parent :: older =>
      let restored :=
        restoreAppendToParent codec parent.value data materializedLength parentSize
      some ⟨new :: ⟨restored, parent.extrinsics⟩ :: older⟩
    | .append _ _ _ (some _), [] => none
    | _, rest => some ⟨new :: rest⟩
  | _, transactions =>
    some ⟨⟨.ofOption value, Extrinsics.empty.insertAt atExtrinsic⟩ :: transactions⟩

/-- The list `[element]`, or the encoded list with one more element. -/
def appendTo (data element : StorageValue) : StorageEntry :=
  match StorageAppend.extractLength codec data with
  | some length =>
    .append (StorageAppend.appendRaw data element) (u32Succ length) (some length) none
  | none => .append element 1 none none

def append (element : StorageValue)
    (firstWriteInTx : Bool) (init : Unit → StorageValue) (atExtrinsic : Option Nat) :
    OverlayedValue :=
  let fresh := Extrinsics.empty.insertAt atExtrinsic
  match entry.transactions with
  | [] => ⟨[⟨appendTo codec (init ()) element, fresh⟩]⟩
  | old :: older =>
    if firstWriteInTx then
      match old.value with
      | .remove => ⟨⟨.append element 1 none none, fresh⟩ :: old :: older⟩
      | .append data currentLength materializedLength parentSize =>
        -- the buffer moves up; its size is what the parent gets back
        let parent := .append [] currentLength materializedLength parentSize
        let child := .append (StorageAppend.appendRaw data element) (u32Succ currentLength)
          materializedLength (some data.length)
        ⟨⟨child, fresh⟩ :: ⟨parent, old.extrinsics⟩ :: older⟩
      | .set data => ⟨⟨appendTo codec data element, fresh⟩ :: old :: older⟩
    else
      let extrinsics := old.extrinsics.insertAt atExtrinsic
      match old.value with
      | .remove => ⟨⟨.append element 1 none none, extrinsics⟩ :: older⟩
      | .set data => ⟨⟨appendTo codec data element, extrinsics⟩ :: older⟩
      | .append data currentLength materializedLength parentSize =>
        let appended := .append (StorageAppend.appendRaw data element)
          (u32Succ currentLength) materializedLength parentSize
        ⟨⟨appended, extrinsics⟩ :: older⟩

def value :
    Option (Option StorageValue × OverlayedValue) :=
  match entry.transactions with
  | [] => none
  | newest :: older =>
    some (newest.value.asOption codec,
      ⟨⟨newest.value.materializeInPlace codec, newest.extrinsics⟩ :: older⟩)

/-- Drop the newest version; an append hands its parent's buffer back. -/
def popRestoring : Option OverlayedValue :=
  match entry.transactions with
  | [] => none
  | newest :: older =>
    match newest.value, older with
    | .append data _ materializedLength (some parentSize), parent :: older =>
      let restored :=
        restoreAppendToParent codec parent.value data materializedLength parentSize
      some ⟨⟨restored, parent.extrinsics⟩ :: older⟩
    | .append _ _ _ (some _), [] => none
    | _, older => some ⟨older⟩

/-- Consecutive appends keep the parent size of the older one; any other version replaced below
hands back the buffer it holds. -/
def mergeNewest : Option OverlayedValue :=
  match entry.transactions with
  | committed :: below :: older =>
    let extrinsics := below.extrinsics.extend committed.extrinsics
    match committed.value, below.value with
    | .append data currentLength materializedLength (some _), .append _ _ _ keep =>
      some ⟨⟨.append data currentLength materializedLength keep, extrinsics⟩ :: older⟩
    | value, .append data _ materializedLength (some parentSize) =>
      match older with
      | parent :: oldest =>
        let restored :=
          restoreAppendToParent codec parent.value data materializedLength parentSize
        some ⟨⟨value, extrinsics⟩ :: ⟨restored, parent.extrinsics⟩ :: oldest⟩
      | [] => some ⟨[⟨value, extrinsics⟩]⟩
    | value, _ => some ⟨⟨value, extrinsics⟩ :: older⟩
  | _ => none

end OverlayedEntry

/-! ## Maps of versioned values -/

structure OverlayedMap (K V : Type) [Ord K] where
  changes : ExtTreeMap K (OverlayedEntry V)
  dirtyKeys : List (ExtTreeSet K)
  numClientTransactions : Nat
  executionMode : ExecutionMode

abbrev OverlayedChangeSet := OverlayedMap StorageKey StorageEntry

def insertDirty {K : Type} [Ord K] [TransOrd K] (dirtyKeys : List (ExtTreeSet K)) (key : K) :
    Bool × List (ExtTreeSet K) :=
  match dirtyKeys with
  | dirty :: older => (!dirty.contains key, dirty.insert key :: older)
  | [] => (false, [])

namespace OverlayedMap

section Generic

variable {K V : Type} [Ord K] [TransOrd K]

def empty : OverlayedMap K V := ⟨∅, [], 0, .client⟩

variable (map : OverlayedMap K V)

def spawnChild : OverlayedMap K V :=
  { map with changes := ∅, dirtyKeys := map.dirtyKeys.map fun _ => ∅ }

def isEmpty : Bool := map.changes.isEmpty

def transactionDepth : Nat := map.dirtyKeys.length

def hasOpenRuntimeTransactions : Bool :=
  map.numClientTransactions < map.transactionDepth

def enterRuntime : Except AlreadyInRuntime (OverlayedMap K V) :=
  match map.executionMode with
  | .runtime => .error .alreadyInRuntime
  | .client =>
    .ok { map with executionMode := .runtime, numClientTransactions := map.transactionDepth }

def startTransaction : OverlayedMap K V :=
  { map with dirtyKeys := ∅ :: map.dirtyKeys }

def entryOrDefault (key : K) : OverlayedEntry V :=
  (map.changes[key]?).getD ⟨[]⟩

def setOffchain (key : K) (value : V) (atExtrinsic : Option Nat) :
    OverlayedMap K V :=
  let (firstWriteInTx, dirtyKeys) := insertDirty map.dirtyKeys key
  let entry := (map.entryOrDefault key).setOffchain value firstWriteInTx atExtrinsic
  { map with changes := map.changes.insert key entry, dirtyKeys }

def putBack (key : K) (entry : OverlayedEntry V) : OverlayedMap K V :=
  if entry.transactions.isEmpty then { map with changes := map.changes.erase key }
  else { map with changes := map.changes.insert key entry }

/-- Does the enclosing transaction, or the committed state, already hold a version? -/
def hasPredecessor (key : K) (entry : OverlayedEntry V) :
    Bool × List (ExtTreeSet K) :=
  match map.dirtyKeys with
  | dirty :: older => (dirty.contains key, dirty.insert key :: older)
  | [] => (decide (1 < entry.transactions.length), [])

/-- Close the innermost transaction for one of its dirty keys. `pop` drops the
newest version, `merge` moves it into the version below. -/
def closeKey (pop merge : OverlayedEntry V → Option (OverlayedEntry V)) (rollback : Bool)
    (map : OverlayedMap K V) (key : K) : Option (OverlayedMap K V) :=
  match map.changes[key]? with
  | none => none
  | some overlayed =>
    if rollback then (pop overlayed).map (map.putBack key)
    else
      let (predecessor, dirtyKeys) := map.hasPredecessor key overlayed
      if predecessor then
        (merge overlayed).map fun merged =>
          { map with changes := map.changes.insert key merged, dirtyKeys }
      else some { map with dirtyKeys }

/-- Close the innermost transaction. The outer `none` is a panic; an error leaves
the changeset as it was. -/
def closeWith (pop merge : OverlayedEntry V → Option (OverlayedEntry V))
    (map : OverlayedMap K V) (rollback : Bool) :
    Option (Except NoOpenTransaction (OverlayedMap K V)) :=
  -- the runtime may not close transactions started by the client
  if map.executionMode = .runtime ∧ ¬ map.hasOpenRuntimeTransactions then
    some (.error .noOpenTransaction)
  else
    match map.dirtyKeys with
    | [] => some (.error .noOpenTransaction)
    | keys :: older =>
      (keys.toList.foldlM (closeKey pop merge rollback) { map with dirtyKeys := older }).map .ok

/-- Roll back until only the client's transactions are open; an error here is a
failed `expect`. -/
def rollbackDangling (pop merge : OverlayedEntry V → Option (OverlayedEntry V)) :
    Nat → OverlayedMap K V → Option (OverlayedMap K V)
  | 0, map => some map
  | fuel + 1, map =>
    if map.hasOpenRuntimeTransactions then
      match closeWith pop merge map true with
      | some (.ok rolled) => rollbackDangling pop merge fuel rolled
      | _ => none
    else some map

def exitWith (pop merge : OverlayedEntry V → Option (OverlayedEntry V))
    (map : OverlayedMap K V) : Option (Except NotInRuntime (OverlayedMap K V)) :=
  match map.executionMode with
  | .client => some (.error .notInRuntime)
  | .runtime =>
    (rollbackDangling pop merge map.transactionDepth { map with executionMode := .client }).map
      .ok

end Generic

/-! ## Offchain maps: versions replace each other -/

section Offchain

variable {K V : Type} [Ord K] [TransOrd K]

def popOffchain (entry : OverlayedEntry V) : Option (OverlayedEntry V) :=
  match entry.transactions with
  | [] => none
  | _ :: older => some ⟨older⟩

def mergeOffchain (entry : OverlayedEntry V) : Option (OverlayedEntry V) :=
  match entry.transactions with
  | dropped :: below :: older =>
    some ⟨⟨dropped.value, below.extrinsics.extend dropped.extrinsics⟩ :: older⟩
  | _ => none

def closeTransactionOffchain (map : OverlayedMap K V) (rollback : Bool) :
    Option (Except NoOpenTransaction (OverlayedMap K V)) :=
  closeWith popOffchain mergeOffchain map rollback

def exitRuntimeOffchain (map : OverlayedMap K V) :
    Option (Except NotInRuntime (OverlayedMap K V)) :=
  exitWith popOffchain mergeOffchain map

end Offchain

/-! ## Storage changesets -/

variable (codec : CompactCodec) (map : OverlayedChangeSet)

def closeTransaction (rollback : Bool) :
    Option (Except NoOpenTransaction OverlayedChangeSet) :=
  closeWith (OverlayedEntry.popRestoring codec) (OverlayedEntry.mergeNewest codec) map rollback

def exitRuntime :
    Option (Except NotInRuntime OverlayedChangeSet) :=
  exitWith (OverlayedEntry.popRestoring codec) (OverlayedEntry.mergeNewest codec) map

def set (key : StorageKey)
    (value : Option StorageValue) (atExtrinsic : Option Nat) : Option OverlayedChangeSet :=
  let (firstWriteInTx, dirtyKeys) := insertDirty map.dirtyKeys key
  ((map.entryOrDefault key).set codec value firstWriteInTx atExtrinsic).map fun entry =>
    { map with changes := map.changes.insert key entry, dirtyKeys }

def appendStorage (key : StorageKey)
    (value : StorageValue) (init : Unit → StorageValue) (atExtrinsic : Option Nat) :
    OverlayedChangeSet :=
  let (firstWriteInTx, dirtyKeys) := insertDirty map.dirtyKeys key
  let entry := (map.entryOrDefault key).append codec value firstWriteInTx init atExtrinsic
  { map with changes := map.changes.insert key entry, dirtyKeys }

def clearKey (predicate : StorageKey → OverlayedValue → Bool)
    (atExtrinsic : Option Nat) (acc : Nat × OverlayedChangeSet)
    (change : StorageKey × OverlayedValue) : Option (Nat × OverlayedChangeSet) :=
  if predicate change.1 change.2 then
    match change.2.transactions with
    | [] => none
    | newest :: _ =>
      let count := if newest.value = .remove then acc.1 else acc.1 + 1
      let (firstWriteInTx, dirtyKeys) := insertDirty acc.2.dirtyKeys change.1
      (change.2.set codec none firstWriteInTx atExtrinsic).map fun entry =>
        (count, { acc.2 with changes := acc.2.changes.insert change.1 entry, dirtyKeys })
  else some acc

/-- Set every value the predicate matches to deleted; returns how many had one. -/
def clearWhere (predicate : StorageKey → OverlayedValue → Bool) (atExtrinsic : Option Nat) :
    Option (Nat × OverlayedChangeSet) :=
  map.changes.toList.foldlM (clearKey codec predicate atExtrinsic) (0, map)

/-- `get(key)` followed by `value()`: the read value, and the changeset with the
read entry materialized. -/
def read (key : StorageKey) :
    Option (Option (Option StorageValue) × OverlayedChangeSet) :=
  match map.changes[key]? with
  | none => some (none, map)
  | some entry =>
    (entry.value codec).map fun (value, entry) =>
      (some value, { map with changes := map.changes.insert key entry })

end OverlayedMap

end PolkadotSdk.StateMachine
