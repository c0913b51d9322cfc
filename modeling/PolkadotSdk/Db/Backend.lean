import Mathlib
import PolkadotSdk.Blockchain.Headers
import PolkadotSdk.Blockchain.TreeRoute

/-! # The database of blocks

The database stores headers by their hash, and maps the numbers of the best chain to lookup keys,
that is to a number with a hash. An operation is staged first: it reads the database as it is and
collects its changes in a transaction, which is written at once. After that the cache of header
metadata and the record of the best and finalized blocks are updated. An operation that fails
leaves only entries in the cache behind. States and bodies are not modelled.
-/

namespace PolkadotSdk.Db

open Blockchain Std

variable {H : Type}

inductive BlockGapType where
  | missingHeaderAndBody
  | missingBody
  deriving DecidableEq, Repr

structure BlockGap where
  start : Nat
  last : Nat
  gapType : BlockGapType
  deriving DecidableEq, Repr

structure Meta (H : Type) where
  bestHash : H
  bestNumber : Nat
  finalizedHash : H
  finalizedNumber : Nat
  genesisHash : H
  blockGap : Option BlockGap
  deriving DecidableEq, Repr

structure MetaUpdate (H : Type) where
  hash : H
  number : Nat
  isBest : Bool
  isFinalized : Bool
  deriving DecidableEq, Repr

structure PendingBlock (H : Type) where
  header : Header H
  hasBody : Bool
  leafState : NewBlockState
  deriving DecidableEq, Repr

/-- An operation, with the number of the highest leaf and whether the body is stored. -/
structure BlockImportOperation (H : Type) where
  finalizedBlocks : List H
  pendingBlock : Option (PendingBlock H)
  setHead : Option H
  commitState : Bool
  createGap : Bool
  highestLeaf : Nat
  bodyExists : Bool
  deriving DecidableEq, Repr

/-- `detached` stands for a header that has no place in the tree of the stored ones. -/
inductive CommitError (H : Type) where
  | client (error : ClientError H)
  | backend (message : String)
  | setHeadTooOld
  | notInFinalizedChain
  | nonSequentialFinalization (lastFinalized hash : H)
  | expectHeader (hash : H)
  | cannotSetHead (hash : H)
  | detached (hash : H)
  deriving DecidableEq, Repr

inductive KeyChange (H : Type) where
  | insert (number : Nat) (lookupKey : Nat × H)
  | remove (number : Nat)
  deriving DecidableEq, Repr

abbrev KeyLookup (H : Type) : Type := ExtTreeMap Nat (Nat × H)

def KeyChange.apply (keyLookup : KeyLookup H) : KeyChange H → KeyLookup H
  | .insert number lookupKey => ExtTreeMap.insert keyLookup number lookupKey
  | .remove number => keyLookup.erase number

def commit (keyLookup : KeyLookup H) (changes : List (KeyChange H)) : KeyLookup H :=
  changes.foldl KeyChange.apply keyLookup

abbrev Commit (H α : Type) : Type := Program (CommitError H) (HeaderMetadataCache H) α

structure Backend (H : Type) [DecidableEq H] [Inhabited H] where
  canonicalizationDelay : Nat
  headers : Headers H
  keyLookup : KeyLookup H
  cache : HeaderMetadataCache H
  info : Meta H

/-! ## Lookup keys -/

def numberIndexKey (number : Nat) : Except (CommitError H) Nat :=
  if number < 2 ^ 32 then .ok number
  else .error (.backend "Block number cannot be converted to u32")

def numberAndHashToLookupKey (number : Nat) (hash : H) : Except (CommitError H) (Nat × H) := do
  let key ← numberIndexKey number
  pure (key, hash)

def removeNumberToKeyMapping (number : Nat) : Except (CommitError H) (KeyChange H) := do
  let key ← numberIndexKey number
  pure (.remove key)

def insertNumberToKeyMapping (number : Nat) (hash : H) :
    Except (CommitError H) (KeyChange H) := do
  let key ← numberIndexKey number
  let lookupKey ← numberAndHashToLookupKey number hash
  pure (.insert key lookupKey)

section Model

variable [DecidableEq H] [Inhabited H]

/-! ## The head -/

def uncanonicalize (finalizedHash : H) (block : H × Nat) : Except (CommitError H) (KeyChange H) :=
  if block.1 = finalizedHash then .error .notInFinalizedChain
  else removeNumberToKeyMapping block.2

def canonicalize (block : H × Nat) : Except (CommitError H) (KeyChange H) :=
  insertNumberToKeyMapping block.2 block.1

def routeChanges (finalizedHash : H) (route : TreeRoute H) :
    Except (CommitError H) (List (KeyChange H)) := do
  let retracted ← route.retracted.mapM (uncanonicalize finalizedHash)
  let enacted ← route.enacted.mapM canonicalize
  pure (retracted ++ enacted)

variable (db : Backend H) (operation : BlockImportOperation H)

def changesAlong (routeTo : H) : Commit H (List (KeyChange H)) :=
  if db.info.bestHash ≠ default ∧ (db.headers.header routeTo).isSome then do
    let route ← (treeRoute db.headers.tree db.info.bestHash routeTo).mapError .client
    Program.ofExcept (routeChanges db.info.finalizedHash route)
  else pure []

def setHeadWithTransaction (routeTo : H) (bestNumber : Nat) (bestHash : H) :
    Commit H (List (KeyChange H)) :=
  if db.canonicalizationDelay < db.info.bestNumber - bestNumber then throw (.error .setHeadTooOld)
  else do
    let along ← changesAlong db routeTo
    let best ← Program.ofExcept (insertNumberToKeyMapping bestNumber bestHash)
    pure (along ++ [best])

/-! ## Finality -/

def ensureSequentialFinalization (info : Meta H) (header : Header H) (lastFinalized : H) :
    Except (CommitError H) Unit :=
  if lastFinalized ≠ info.genesisHash ∧ header.parentHash ≠ lastFinalized then
    .error (.nonSequentialFinalization lastFinalized header.hash)
  else .ok ()

structure Finalization (H : Type) where
  lastHash : H
  lastNumber : Nat
  updates : List (MetaUpdate H)

def finalizeBlock (done : Finalization H) (hash : H) :
    Except (CommitError H) (Finalization H) :=
  match db.headers.header hash with
  | none => .error (.expectHeader hash)
  | some header => do
    ensureSequentialFinalization db.info header done.lastHash
    pure ⟨hash, header.number, done.updates ++ [⟨hash, header.number, false, true⟩]⟩

def finalizeBlocks :
    Except (CommitError H) (Finalization H) :=
  operation.finalizedBlocks.foldlM (finalizeBlock db)
    ⟨db.info.finalizedHash, db.info.finalizedNumber, []⟩

/-! ## The block gap -/

def BlockGap.advance (gap : BlockGap) : Option BlockGap :=
  if gap.last < gap.start + 1 then none else some { gap with start := gap.start + 1 }

def updateGap (pending : PendingBlock H) :
    Except (CommitError H) (Option (Option BlockGap) × List (KeyChange H)) :=
  let number := pending.header.number
  match db.info.blockGap with
  | some gap =>
    match gap.gapType with
    | .missingHeaderAndBody =>
      if number = gap.start then do
        let mapping ← insertNumberToKeyMapping number pending.header.hash
        pure (some gap.advance, [mapping])
      else pure (none, [])
    | .missingBody =>
      if number = gap.last + 1 ∧ pending.hasBody = false then do
        let mapping ← insertNumberToKeyMapping number pending.header.hash
        pure (some (some { gap with last := gap.last + 1 }), [mapping])
      else if number = gap.start ∧ pending.hasBody = true then pure (some gap.advance, [])
      else pure (none, [])
  | none =>
    let parent := db.headers.header pending.header.parentHash
    if operation.createGap = false then pure (none, [])
    else if db.info.bestNumber + 1 < number ∧ parent.isNone then
      pure (some (some ⟨db.info.bestNumber + 1, number - 1, .missingHeaderAndBody⟩), [])
    else if number = db.info.bestNumber + 1 ∧ parent.isSome ∧ pending.hasBody = false then
      pure (some (some ⟨number, number, .missingBody⟩), [])
    else pure (none, [])

def checkGap (pending : PendingBlock H) :
    Except (CommitError H) (Option (Option BlockGap) × List (KeyChange H)) :=
  let headerExists := pending.header.number ≤ operation.highestLeaf ∧
    (db.headers.header pending.header.hash).isSome
  if ¬ headerExists ∨ operation.bodyExists = false then updateGap db operation pending
  else pure (none, [])

/-! ## Operations -/

structure Staged (H : Type) [DecidableEq H] [Inhabited H] where
  headers : Headers H
  imported : Option (Header H)
  changes : List (KeyChange H)
  updates : List (MetaUpdate H)
  gap : Option (Option BlockGap)

def isFinalized (pending : PendingBlock H)
    (lastNumber : Nat) : Bool :=
  if operation.commitState then decide (pending.header.number = 0) || pending.leafState.isFinal
  else decide (pending.header.number = 0 ∧ lastNumber = 0) || pending.leafState.isFinal

/-- A block that is imported again with its state, below the finalized one, counts as
finalized. -/
def importUpdates (pending : PendingBlock H)
    (lastNumber : Nat) : List (MetaUpdate H) :=
  let header := pending.header
  (if operation.commitState = true ∧ header.number ≤ lastNumber then
    [⟨header.hash, header.number, false, true⟩] else []) ++
    [⟨header.hash, header.number, pending.leafState.isBest,
      isFinalized operation pending lastNumber⟩]

def headOfImport (pending : PendingBlock H) : Commit H (List (KeyChange H)) :=
  if pending.leafState.isBest then
    setHeadWithTransaction db pending.header.parentHash pending.header.number pending.header.hash
  else pure []

def checkFinality (pending : PendingBlock H) (done : Finalization H) : Except (CommitError H) Unit :=
  if isFinalized operation pending done.lastNumber then
    ensureSequentialFinalization db.info pending.header done.lastHash
  else .ok ()

def checkImport (pending : PendingBlock H)
    (done : Finalization H) :
    Except (CommitError H) (Headers H × Option (Option BlockGap) × List (KeyChange H)) := do
  checkFinality db operation pending done
  let (gap, mappings) ← checkGap db operation pending
  match db.headers.insert pending.header with
  | none => .error (.detached pending.header.hash)
  | some headers => pure (headers, gap, mappings)

def stageImport (done : Finalization H) :
    Commit H (Staged H) :=
  match operation.pendingBlock with
  | none => pure ⟨db.headers, none, [], done.updates, none⟩
  | some pending => do
    let _ ← Program.ofExcept
      (numberAndHashToLookupKey pending.header.number pending.header.hash)
    let head ← headOfImport db pending
    let (headers, gap, mappings) ← Program.ofExcept (checkImport db operation pending done)
    pure ⟨headers, some pending.header, head ++ mappings,
      done.updates ++ importUpdates operation pending done.lastNumber, gap⟩

def stageHead (staged : Staged H) :
    Commit H (Staged H) :=
  match operation.setHead with
  | none => pure staged
  | some head =>
    match db.headers.header head with
    | none => throw (.error (.cannotSetHead head))
    | some header => do
      let changes ← setHeadWithTransaction db header.hash header.number header.hash
      pure { staged with
        changes := staged.changes ++ changes
        updates := staged.updates ++ [⟨header.hash, header.number, true, false⟩] }

def tryCommitOperation :
    Commit H (Staged H) := do
  let done ← Program.ofExcept (finalizeBlocks db operation)
  let staged ← stageImport db operation done
  stageHead db operation staged

def Meta.update (info : Meta H) (update : MetaUpdate H) : Meta H :=
  let info := if update.number = 0 then { info with genesisHash := update.hash } else info
  let info :=
    if update.isBest then { info with bestNumber := update.number, bestHash := update.hash }
    else info
  if update.isFinalized then
    { info with finalizedNumber := update.number, finalizedHash := update.hash }
  else info

def Meta.updateBlockGap (info : Meta H) : Option (Option BlockGap) → Meta H
  | none => info
  | some blockGap => { info with blockGap }

namespace Backend

def empty (canonicalizationDelay cacheCapacity : Nat) : Backend H where
  canonicalizationDelay
  headers := .empty
  keyLookup := ∅
  cache := ⟨cacheCapacity, []⟩
  info := ⟨default, 0, default, 0, default, none⟩

def apply (db : Backend H) (staged : Staged H) (cache : HeaderMetadataCache H) : Backend H where
  canonicalizationDelay := db.canonicalizationDelay
  headers := staged.headers
  keyLookup := commit db.keyLookup staged.changes
  cache :=
    match staged.imported with
    | none => cache
    | some header => cache.insertHeaderMetadata header.hash (.ofHeader header)
  info := (staged.updates.foldl Meta.update db.info).updateBlockGap staged.gap

def commitOperation (db : Backend H) (operation : BlockImportOperation H) :
    Except (Fault (CommitError H)) Unit × Backend H :=
  match (tryCommitOperation db operation).run db.cache with
  | .ok staged cache => (.ok (), db.apply staged cache)
  | .error fault cache => (.error fault, { db with cache })

end Backend

end Model

end PolkadotSdk.Db
