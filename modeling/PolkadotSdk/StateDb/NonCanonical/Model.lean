import PolkadotSdk.StateDb.Common

/-! # The non-canonical overlay

Trees of blocks that are not canonical yet, one level for each block number. The keys
a block inserted are counted while the block is in a level, and afterwards as long as
the block or a descendant of it is pinned. `none` is a panic: a failed `expect`, or a
counter that would drop below zero. Debug assertions are not part of the model.
-/

namespace PolkadotSdk.StateDb

open Std

def maxBlocksPerLevel : Nat := 32

structure JournalKey where
  block : Nat
  index : Nat
  deriving DecidableEq, Repr

def toJournalKey (key : JournalKey) : MetaKey := .nonCanonicalJournal key.block key.index

structure BlockOverlay (H K : Type) where
  hash : H
  journalIndex : Nat
  journalKey : JournalKey
  inserted : List K
  deleted : List K
  deriving DecidableEq, Repr

structure OverlayLevel (H K : Type) where
  blocks : List (BlockOverlay H K)
  usedIndices : BitVec 64
  deriving DecidableEq, Repr

namespace OverlayLevel

variable {H K : Type}

def new : OverlayLevel H K := ⟨[], 0⟩

def push (level : OverlayLevel H K) (overlay : BlockOverlay H K) : OverlayLevel H K where
  blocks := level.blocks ++ [overlay]
  usedIndices := level.usedIndices ||| (1#64 <<< overlay.journalIndex)

/-- The number of trailing ones of the bit mask. -/
def availableIndex (level : OverlayLevel H K) : Nat :=
  ((List.range 64).find? fun i => !level.usedIndices.getLsbD i).getD 64

def remove (level : OverlayLevel H K) (index : Nat) (overlay : BlockOverlay H K) :
    OverlayLevel H K where
  blocks := level.blocks.eraseIdx index
  usedIndices := level.usedIndices &&& ~~~(1#64 <<< overlay.journalIndex)

end OverlayLevel

structure Held (H K : Type) [LinearOrder H] [LinearOrder K] where
  parents : ExtTreeMap H H
  values : ExtTreeMap K (Nat × DBValue)
  pinnedInsertions : ExtTreeMap H (List K × Nat)

structure NonCanonicalOverlay (H K : Type) [LinearOrder H] [LinearOrder K] extends Held H K where
  lastCanonicalized : Option (H × Nat)
  levels : List (OverlayLevel H K)
  pinned : ExtTreeMap H Nat
  pinnedCanonicalized : List H

variable {H K : Type} [LinearOrder H] [LinearOrder K]

/-! ## Values -/

variable (values : ExtTreeMap K (Nat × DBValue))

/-- A key that is already there keeps its value. -/
def insertValue (entry : K × DBValue) :
    ExtTreeMap K (Nat × DBValue) :=
  match values[entry.1]? with
  | some (counter, value) => values.insert entry.1 (counter + 1, value)
  | none => values.insert entry.1 (1, entry.2)

def insertValues (inserted : List (K × DBValue)) :
    ExtTreeMap K (Nat × DBValue) :=
  inserted.foldl insertValue values

def discardValue (key : K) :
    Option (ExtTreeMap K (Nat × DBValue)) :=
  match values[key]? with
  | none => some values
  | some (0, _) => none
  | some (1, _) => some (values.erase key)
  | some (counter + 2, value) => some (values.insert key (counter + 1, value))

def discardValues (inserted : List K) :
    Option (ExtTreeMap K (Nat × DBValue)) :=
  inserted.foldlM discardValue values

/-! ## Discarding blocks -/

def Held.drop (held : Held H K) (overlay : BlockOverlay H K) : Option (Held H K) :=
  (discardValues held.values overlay.inserted).map fun values =>
    { held with parents := held.parents.erase overlay.hash, values }

/-- `numPinned` blocks are pinned among a block that has left and its descendants. Its keys are kept
for them, or dropped. -/
def Held.retire (held : Held H K) (overlay : BlockOverlay H K) (numPinned : Nat) :
    Option (Held H K) :=
  if numPinned ≠ 0 then
    some { held with
      pinnedInsertions := held.pinnedInsertions.insert overlay.hash (overlay.inserted, numPinned) }
  else held.drop overlay

def childPosition (parents : ExtTreeMap H H) (hash : H) :
    List (BlockOverlay H K) → Option (Option Nat)
  | [] => some none
  | overlay :: blocks =>
    match parents[overlay.hash]? with
    | none => none
    | some parent =>
      if parent = hash then some (some 0)
      else (childPosition parents hash blocks).map (·.map (· + 1))

structure Discarded (H K : Type) [LinearOrder H] [LinearOrder K] where
  pinnedChildren : Nat
  levels : List (OverlayLevel H K)
  held : Held H K

/-- Discard the children of a block from one level, each with its descendants below. -/
def discardChildren (pinned : ExtTreeMap H Nat)
    (descend : H → List (OverlayLevel H K) → Held H K → Option (Discarded H K)) (hash : H) :
    Nat → Nat → OverlayLevel H K → List (OverlayLevel H K) → Held H K → Option (Discarded H K)
  | rounds, pinnedChildren, level, remainder, held =>
    match childPosition held.parents hash level.blocks with
    | none => none
    | some none => some ⟨pinnedChildren, level :: remainder, held⟩
    | some (some i) =>
      match rounds, level.blocks[i]? with
      | rounds + 1, some overlay => do
        let below ← descend overlay.hash remainder held
        let numPinned :=
          below.pinnedChildren + if pinned.contains overlay.hash then 1 else 0
        let held ← below.held.retire overlay numPinned
        discardChildren pinned descend hash rounds (pinnedChildren + numPinned)
          (level.remove i overlay) below.levels held
      | _, _ => none

/-- Discard all descendants of a block; `depth` is the number of levels. -/
def discardDescendants (pinned : ExtTreeMap H Nat) :
    Nat → H → List (OverlayLevel H K) → Held H K → Option (Discarded H K)
  | depth + 1, hash, level :: remainder, held =>
    discardChildren pinned (discardDescendants pinned depth) hash level.blocks.length 0 level
      remainder held
  | _, _, levels, held => some ⟨0, levels, held⟩

def discardJournals (parents : ExtTreeMap H H) :
    List (OverlayLevel H K) → List JournalKey → H → Option (List JournalKey)
  | [], discardedJournals, _ => some discardedJournals
  | level :: levels, discardedJournals, hash =>
    level.blocks.foldlM (fun discardedJournals overlay =>
      match parents[overlay.hash]? with
      | none => none
      | some parent =>
        if parent = hash then
          discardJournals parents levels (discardedJournals ++ [overlay.journalKey]) overlay.hash
        else some discardedJournals) discardedJournals

namespace NonCanonicalOverlay

/-! ## Opening -/

def empty : NonCanonicalOverlay H K := ⟨⟨∅, ∅, ∅⟩, none, [], ∅, []⟩

/-! ## Inserting -/

variable (s : NonCanonicalOverlay H K)

def frontBlockNumber : Nat :=
  match s.lastCanonicalized with
  | some (_, number) => number + 1
  | none => 0

/-- Number and parent are not checked as long as no block is known to be canonical. -/
def checkInsert (number : Nat) (parentHash : H) :
    Except StateDbError Unit :=
  match s.lastCanonicalized with
  | none => .ok ()
  | some (hash, last) =>
    let front := s.frontBlockNumber
    if number < front ∨ front + s.levels.length < number then .error .invalidBlockNumber
    else if number = front then
      if hash = parentHash ∧ last = number - 1 then .ok () else .error .invalidParent
    else if s.parents.contains parentHash then .ok ()
    else .error .invalidParent

def levelFor (number : Nat) :
    Option (List (OverlayLevel H K) × Nat × OverlayLevel H K) :=
  let front := s.frontBlockNumber
  if s.levels.isEmpty ∨ number = front + s.levels.length then
    some (s.levels ++ [.new], s.levels.length, .new)
  else if number < front then none
  else (s.levels[number - front]?).map fun level => (s.levels, number - front, level)

/-- Put a block that passed the checks into its level. `metaInserted` was already
written for it. -/
def insertInto (hash : H) (number : Nat) (parentHash : H)
    (changeset : ChangeSet K DBValue) (metaInserted : List (MetaKey × MetaRecord H K))
    (levels : List (OverlayLevel H K)) (position : Nat) (level : OverlayLevel H K) :
    Except StateDbError (CommitSet H K) × NonCanonicalOverlay H K :=
  if maxBlocksPerLevel ≤ level.blocks.length then
    (.error (.tooManySiblingBlocks number), { s with levels })
  else if level.blocks.any (·.hash = hash) then
    (.error .blockAlreadyExists, { s with levels })
  else
    let index := level.availableIndex
    let journalKey : JournalKey := ⟨number, index⟩
    let overlay : BlockOverlay H K :=
      ⟨hash, index, journalKey, changeset.inserted.map (·.1), changeset.deleted⟩
    let record : NonCanonicalRecord H K :=
      ⟨hash, parentHash, changeset.inserted, changeset.deleted⟩
    (.ok ⟨⟨[], []⟩,
        ⟨metaInserted ++ [(toJournalKey journalKey, .nonCanonicalJournal record)], []⟩⟩,
      { s with
        levels := levels.set position (level.push overlay)
        parents := s.parents.insert hash parentHash
        values := insertValues s.values changeset.inserted })

def insert (hash : H) (number : Nat) (parentHash : H)
    (changeset : ChangeSet K DBValue) :
    Option (Except StateDbError (CommitSet H K) × NonCanonicalOverlay H K) :=
  if s.levels.isEmpty ∧ s.lastCanonicalized.isNone ∧ 0 < number then
    -- assume that the parent was canonicalized
    some (insertInto { s with lastCanonicalized := some (parentHash, number - 1) } hash number
      parentHash changeset [(.lastCanonical, .lastCanonical parentHash (number - 1))] [.new] 0 .new)
  else
    match s.checkInsert number parentHash with
    | .error e => some (.error e, s)
    | .ok () =>
      (s.levelFor number).map fun place =>
        s.insertInto hash number parentHash changeset [] place.1 place.2.1 place.2.2

/-! ## Pins -/

def pin (hash : H) : NonCanonicalOverlay H K :=
  { s with pinned := s.pinned.insert hash ((s.pinned[hash]?).getD 0 + 1) }

/-! ## Canonicalizing -/

def canonicalizeBlock (index : Nat) (acc : NonCanonicalOverlay H K × ChangeSet K DBValue ×
      List JournalKey) (entry : BlockOverlay H K × Nat) :
    Option (NonCanonicalOverlay H K × ChangeSet K DBValue × List JournalKey) := do
  let (s, data, discardedJournals) := acc
  let (overlay, i) := entry
  let (s, pinnedChildren, data, discardedJournals) ←
    if i = index then do
      let inserted ← overlay.inserted.mapM fun key => (s.values[key]?).map fun v => (key, v.2)
      some (s, 0, ⟨data.inserted ++ inserted, data.deleted ++ overlay.deleted⟩, discardedJournals)
    else do
      let discardedJournals ← discardJournals s.parents s.levels discardedJournals overlay.hash
      let discarded ←
        discardDescendants s.pinned s.levels.length overlay.hash s.levels s.toHeld
      some ({ s with toHeld := discarded.held, levels := discarded.levels },
        discarded.pinnedChildren, data, discardedJournals)
  let held ← s.toHeld.retire overlay
    (pinnedChildren + if s.pinned.contains overlay.hash then 1 else 0)
  some ({ s with toHeld := held }, data, discardedJournals ++ [overlay.journalKey])

/-- A failed call has already taken the front level off. -/
def canonicalize (hash : H) (commit : CommitSet H K) :
    Option (Except StateDbError Nat × NonCanonicalOverlay H K × CommitSet H K) :=
  match s.levels with
  | [] => some (.error .invalidBlock, s, commit)
  | level :: levels =>
    match level.blocks.findIdx? (·.hash = hash) with
    | none => some (.error .invalidBlock, { s with levels }, commit)
    | some index => do
      -- pinned by force, so that the block is not discarded immediately
      let s := { pin { s with levels } hash with
        pinnedCanonicalized := s.pinnedCanonicalized ++ [hash] }
      let (s, data, discardedJournals) ←
        level.blocks.zipIdx.foldlM (canonicalizeBlock index) (s, commit.data, [])
      let number := s.frontBlockNumber
      some (.ok number, { s with lastCanonicalized := some (hash, number) },
        { data
          metaChanges :=
            { inserted := commit.metaChanges.inserted ++
                [(.lastCanonical, .lastCanonical hash number)]
              deleted := commit.metaChanges.deleted ++
                discardedJournals.map toJournalKey } })

/-! ## Lookups -/

def haveBlock (hash : H) : Bool := s.parents.contains hash

end NonCanonicalOverlay

end PolkadotSdk.StateDb
