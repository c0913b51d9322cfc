import Mathlib
import PolkadotSdk.StateDb.Common

/-! # The pruning window

For each canonical block in the window there is a death row: the keys to delete when
the block is pruned. The in-memory queue also indexes the rows by key and takes a key
off its row when it is inserted again; the database-backed queue caches a few rows
and loads more from the journals, leaving the counting of insertions to the database.
`none` is a panic.
-/

namespace PolkadotSdk.StateDb

open Std

def defaultMaxBlockConstraint : Nat := 256

variable {H K : Type} [LinearOrder K]

structure DeathRow (H K : Type) [LinearOrder K] where
  hash : H
  deleted : ExtTreeSet K

def PruningRecord.toDeathRow (record : PruningRecord H K) : DeathRow H K :=
  ⟨record.hash, ExtTreeSet.ofList record.deleted⟩

inductive DeathRowQueue (H K : Type) [LinearOrder K] where
  | mem (deathRows : List (DeathRow H K)) (deathIndex : ExtTreeMap K Nat)
  | dbBacked (cache : List (DeathRow H K)) (cacheCapacity : Nat) (last : Option Nat)

structure RefWindow (H K : Type) [LinearOrder K] where
  queue : DeathRowQueue H K
  base : Nat

inductive HaveBlock where
  | no
  | maybe
  | yes
  deriving DecidableEq, Repr

def HaveBlock.ofBool (present : Bool) : HaveBlock := if present then .yes else .no

namespace DeathRowQueue

/-- Take a key that is inserted again off the row it waits on. -/
def removeReinserted (base : Nat) (acc : List (DeathRow H K) × ExtTreeMap K Nat) (key : K) :
    Option (List (DeathRow H K) × ExtTreeMap K Nat) :=
  match acc.2[key]? with
  | none => some acc
  | some block =>
    if block < base then none
    else
      match acc.1[block - base]? with
      | none => none
      | some row =>
        some (acc.1.set (block - base) { row with deleted := row.deleted.erase key },
          acc.2.erase key)

def importBlock (queue : DeathRowQueue H K) (base num : Nat) (record : PruningRecord H K) :
    Option (DeathRowQueue H K) :=
  match queue with
  | .dbBacked cache cacheCapacity _ =>
    -- the cache only grows while it reaches up to the new block
    let cache :=
      if num = base + cache.length ∧ cache.length < cacheCapacity then
        cache ++ [record.toDeathRow]
      else cache
    some (.dbBacked cache cacheCapacity (some num))
  | .mem deathRows deathIndex => do
    let (deathRows, deathIndex) ←
      record.inserted.foldlM (removeReinserted base) (deathRows, deathIndex)
    let importedBlock := base + deathRows.length
    let deathIndex :=
      record.deleted.foldl (fun index key => index.insert key importedBlock) deathIndex
    some (.mem (deathRows ++ [record.toDeathRow]) deathIndex)

def loadRows (db : MetaDb H K) (cache : List (DeathRow H K)) (start : Nat) :
    Nat → Except StateDbError Unit × List (DeathRow H K)
  | 0 => (.ok (), cache)
  | remaining + 1 =>
    match db.readPruningJournal start with
    | .error e => (.error e, cache)
    | .ok none => (.ok (), cache)
    | .ok (some record) => loadRows db (cache ++ [record.toDeathRow]) (start + 1) remaining

def loadBatchFromDb (db : MetaDb H K) (cache : List (DeathRow H K)) (base cacheCapacity : Nat) :
    Except StateDbError Unit × List (DeathRow H K) :=
  loadRows db cache (base + cache.length) cacheCapacity

def fillCache (db : MetaDb H K) (cache : List (DeathRow H K)) (base cacheCapacity : Nat) :
    Except StateDbError Unit × List (DeathRow H K) :=
  if cache.isEmpty then loadBatchFromDb db cache base cacheCapacity else (.ok (), cache)

def popFront (db : MetaDb H K) (queue : DeathRowQueue H K) (base : Nat) :
    Except StateDbError (Option (DeathRow H K)) × DeathRowQueue H K :=
  match queue with
  | .dbBacked cache cacheCapacity last =>
    match fillCache db cache base cacheCapacity with
    | (.error e, cache) => (.error e, .dbBacked cache cacheCapacity last)
    | (.ok (), []) => (.ok none, .dbBacked [] cacheCapacity last)
    | (.ok (), row :: cache) => (.ok (some row), .dbBacked cache cacheCapacity last)
  | .mem [] deathIndex => (.ok none, .mem [] deathIndex)
  | .mem (row :: deathRows) deathIndex =>
    (.ok (some row), .mem deathRows (row.deleted.toList.foldl (·.erase ·) deathIndex))

def haveBlock [DecidableEq H] (queue : DeathRowQueue H K) (hash : H)
    (index : Nat) : Option HaveBlock :=
  match queue with
  | .dbBacked cache _ _ =>
    match cache[index]? with
    | some row => some (.ofBool (row.hash = hash))
    | none => some .maybe
  | .mem deathRows _ => (deathRows[index]?).map fun row => .ofBool (row.hash = hash)

/-- The number of blocks in the window. `base` never passes the block after `last`. -/
def len (queue : DeathRowQueue H K) (base : Nat) : Nat :=
  match queue with
  | .dbBacked _ _ last => last.elim 0 fun last => last + 1 - base
  | .mem deathRows _ => deathRows.length

end DeathRowQueue

namespace RefWindow

def windowSize (window : RefWindow H K) : Nat := window.queue.len window.base

def isEmpty (window : RefWindow H K) : Bool := window.windowSize = 0

def haveBlock [DecidableEq H] (window : RefWindow H K) (hash : H)
    (number : Nat) : Option HaveBlock :=
  if window.isEmpty ∨ number < window.base ∨ window.base + window.windowSize ≤ number then
    some .no
  else window.queue.haveBlock hash (number - window.base)

def pruneOne (db : MetaDb H K) (window : RefWindow H K) (commit : CommitSet H K) :
    Except StateDbError Unit × RefWindow H K × CommitSet H K :=
  match DeathRowQueue.popFront db window.queue window.base with
  | (.error e, queue) => (.error e, { window with queue }, commit)
  | (.ok none, queue) => (.error .blockUnavailable, { window with queue }, commit)
  | (.ok (some pruned), queue) =>
    (.ok (), ⟨queue, window.base + 1⟩,
      { data := { commit.data with deleted := commit.data.deleted ++ pruned.deleted.toList }
        metaChanges :=
          { inserted := commit.metaChanges.inserted ++ [(.lastPruned, .lastPruned window.base)]
            deleted := commit.metaChanges.deleted ++ [.pruningJournal window.base] } })

/-- The keys a record keeps as inserted: only the in-memory queue asks for them. -/
def recordedInsertions (window : RefWindow H K) (inserted : List (K × DBValue)) : List K :=
  match window.queue with
  | .mem _ _ => inserted.map (·.1)
  | .dbBacked _ _ _ => []

def addCanonical (window : RefWindow H K) (hash : H) (number : Nat) (commit : CommitSet H K) :
    Option (RefWindow H K × CommitSet H K) :=
  let record : PruningRecord H K :=
    ⟨hash, window.recordedInsertions commit.data.inserted, commit.data.deleted⟩
  (window.queue.importBlock window.base number record).map fun queue =>
    ({ window with queue },
      { data := { commit.data with deleted := [] }
        metaChanges := { commit.metaChanges with
          inserted := commit.metaChanges.inserted ++ [(.pruningJournal number, .pruningJournal record)] } })

/-- The first block may come with any number: the target of a warp sync. Its parent
then counts as pruned. -/
def noteCanonical (window : RefWindow H K) (hash : H) (number : Nat) (commit : CommitSet H K) :
    Option (Except StateDbError Unit × RefWindow H K × CommitSet H K) :=
  if window.base = 0 ∧ window.isEmpty ∧ 0 < number then
    let commit := { commit with
      metaChanges := { commit.metaChanges with
        inserted := commit.metaChanges.inserted ++ [(.lastPruned, .lastPruned (number - 1))] } }
    (addCanonical { window with base := number } hash number commit).map fun r => (.ok (), r)
  else if window.base + window.windowSize ≠ number then
    some (.error .invalidBlockNumber, window, commit)
  else (addCanonical window hash number commit).map fun r => (.ok (), r)

def recordOf (window : RefWindow H K) (hash : H) (data : ChangeSet K DBValue) :
    PruningRecord H K :=
  ⟨hash, window.recordedInsertions data.inserted, data.deleted⟩

/-- The metadata written when a block is accepted by a window that starts at `base` and
from then on at `base'`. -/
def acceptedMeta (base base' number : Nat) (record : PruningRecord H K) :
    List (MetaKey × MetaRecord H K) :=
  (if base = base' then [] else [(.lastPruned, .lastPruned (number - 1))]) ++
    [(.pruningJournal number, .pruningJournal record)]

/-- An unused window starts at any block, another one goes on with the next number only. -/
def acceptBase (base size number : Nat) : Option Nat :=
  if base = 0 ∧ size = 0 then some number else if number = base + size then some base else none

theorem acceptBase_eq_some {base size number base' : Nat}
    (h : acceptBase base size number = some base') :
    number = base' + size ∧ (base' = base ∨ base = 0 ∧ size = 0) := by
  unfold acceptBase at h
  split at h
  · rename_i hunused
    obtain rfl := Option.some.inj h
    exact ⟨by omega, .inr hunused⟩
  · split at h
    · obtain rfl := Option.some.inj h
      exact ⟨by assumption, .inl rfl⟩
    · cases h

theorem noteCanonical_eq (window : RefWindow H K) (hash : H) (number : Nat)
    (commit : CommitSet H K) :
    window.noteCanonical hash number commit =
      match acceptBase window.base window.windowSize number with
      | some base' =>
        (window.queue.importBlock base' number (window.recordOf hash commit.data)).map
          fun queue => (.ok (), ⟨queue, base'⟩, ⟨⟨commit.data.inserted, []⟩,
            ⟨commit.metaChanges.inserted ++
              acceptedMeta window.base base' number (window.recordOf hash commit.data),
              commit.metaChanges.deleted⟩⟩)
      | none => some (.error .invalidBlockNumber, window, commit) := by
  unfold noteCanonical
  split
  · rename_i hwarp
    obtain ⟨hbase, hempty, hpos⟩ := hwarp
    have hsize : window.windowSize = 0 := by simpa [isEmpty] using hempty
    have hne : ¬ window.base = number := by omega
    have haccept : acceptBase window.base window.windowSize number = some number := by
      simp [acceptBase, hbase, hsize]
    simp only [haccept, addCanonical, acceptedMeta, if_neg hne, Option.map_map]
    simp [Function.comp_def, recordOf, recordedInsertions]
  · rename_i hwarp
    have hused : ¬ (window.base = 0 ∧ window.windowSize = 0) ∨ number = 0 := by
      simp only [isEmpty, decide_eq_true_eq] at hwarp
      omega
    split
    · rename_i hne
      have haccept : acceptBase window.base window.windowSize number = none := by
        unfold acceptBase
        rw [if_neg (by omega), if_neg (by omega)]
      simp only [haccept]
    · rename_i heq
      have haccept : acceptBase window.base window.windowSize number = some window.base := by
        unfold acceptBase
        split
        · congr 1
          omega
        · rw [if_pos (by omega)]
      simp only [haccept, addCanonical, acceptedMeta, if_true, List.nil_append, Option.map_map]
      simp [Function.comp_def, recordOf]

end RefWindow

/-! ## Calls -/

inductive WindowOp (H K : Type) where
  | noteCanonical (hash : H) (number : Nat) (inserted : List (K × DBValue)) (deleted : List K)
  | pruneOne

def RefWindow.call (db : MetaDb H K) (window : RefWindow H K) :
    WindowOp H K → Option (Except StateDbError Unit × RefWindow H K × CommitSet H K)
  | .noteCanonical hash number inserted deleted =>
    window.noteCanonical hash number ⟨⟨inserted, deleted⟩, ⟨[], []⟩⟩
  | .pruneOne => some (window.pruneOne db .empty)

namespace RefWindow

variable (db : MetaDb H K) (window : RefWindow H K) (hash : H) (inserted : List (K × DBValue))
variable (deleted : List K) {number : Nat}

theorem call_accepted {base' : Nat} {queue : DeathRowQueue H K}
    (haccept : acceptBase window.base window.windowSize number = some base')
    (himport : window.queue.importBlock base' number
      (window.recordOf hash ⟨inserted, deleted⟩) = some queue) :
    window.call db (.noteCanonical hash number inserted deleted) =
      some (.ok (), ⟨queue, base'⟩, ⟨⟨inserted, []⟩,
        ⟨acceptedMeta window.base base' number (window.recordOf hash ⟨inserted, deleted⟩),
          []⟩⟩) := by
  rw [call, noteCanonical_eq]
  simp [haccept, himport]

theorem call_rejected (haccept : acceptBase window.base window.windowSize number = none) :
    window.call db (.noteCanonical hash number inserted deleted) =
      some (.error .invalidBlockNumber, window, ⟨⟨inserted, deleted⟩, ⟨[], []⟩⟩) := by
  rw [call, noteCanonical_eq]
  simp [haccept]

end RefWindow

end PolkadotSdk.StateDb
