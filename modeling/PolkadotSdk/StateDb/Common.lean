import Mathlib
import PolkadotSdk.Lib.OrderedMap

/-! # Commit sets and metadata

The state database never writes: each of its operations returns a `CommitSet` that
the caller applies. Metadata records are kept decoded, under structured keys; a
record of the wrong kind is a decoding error. Reading metadata does not fail
otherwise. The order on hashes and keys only fixes how sets are listed.
-/

namespace PolkadotSdk.StateDb

open Std

abbrev DBValue := List UInt8

inductive StateDbError where
  | decoding
  | invalidBlock
  | invalidBlockNumber
  | invalidParent
  | tooManySiblingBlocks (number : Nat)
  | blockAlreadyExists
  | blockUnavailable
  deriving DecidableEq, Repr

structure ChangeSet (K V : Type) where
  inserted : List (K × V)
  deleted : List K
  deriving DecidableEq, Repr

structure PruningRecord (H K : Type) where
  hash : H
  inserted : List K
  deleted : List K
  deriving DecidableEq, Repr

structure NonCanonicalRecord (H K : Type) where
  hash : H
  parentHash : H
  inserted : List (K × DBValue)
  deleted : List K
  deriving DecidableEq, Repr

inductive MetaKey where
  | lastCanonical
  | lastPruned
  | nonCanonicalJournal (block index : Nat)
  | pruningJournal (block : Nat)
  deriving DecidableEq, Repr

inductive MetaRecord (H K : Type) where
  | lastCanonical (hash : H) (number : Nat)
  | lastPruned (number : Nat)
  | nonCanonicalJournal (record : NonCanonicalRecord H K)
  | pruningJournal (record : PruningRecord H K)
  deriving DecidableEq, Repr

structure CommitSet (H K : Type) where
  data : ChangeSet K DBValue
  metaChanges : ChangeSet MetaKey (MetaRecord H K)
  deriving DecidableEq, Repr

def CommitSet.empty {H K : Type} : CommitSet H K := ⟨⟨[], []⟩, ⟨[], []⟩⟩

abbrev MetaDb (H K : Type) := MetaKey → Option (MetaRecord H K)

namespace MetaDb

variable {H K : Type}

def empty : MetaDb H K := fun _ => none

def insertAll (db : MetaDb H K) (inserted : List (MetaKey × MetaRecord H K)) : MetaDb H K :=
  inserted.foldl (fun db entry => Function.update db entry.1 (some entry.2)) db

/-- Apply the metadata part of a commit: insertions first, then deletions. -/
def apply (db : MetaDb H K) (changes : ChangeSet MetaKey (MetaRecord H K)) : MetaDb H K :=
  changes.deleted.foldl (fun db key => Function.update db key none)
    (db.insertAll changes.inserted)

theorem insertAll_append (db : MetaDb H K) (inserted more : List (MetaKey × MetaRecord H K)) :
    db.insertAll (inserted ++ more) = (db.insertAll inserted).insertAll more := by
  simp [insertAll]

@[simp] theorem insertAll_nil (db : MetaDb H K) : db.insertAll [] = db := rfl

@[simp] theorem insertAll_singleton (db : MetaDb H K) (entry : MetaKey × MetaRecord H K) :
    db.insertAll [entry] = Function.update db entry.1 (some entry.2) := rfl

theorem apply_eq (db : MetaDb H K) (changes : ChangeSet MetaKey (MetaRecord H K))
    (key : MetaKey) : db.apply changes key =
      if key ∈ changes.deleted then none else db.insertAll changes.inserted key := by
  unfold apply
  generalize db.insertAll changes.inserted = inserted
  induction changes.deleted generalizing inserted with
  | nil => simp
  | cons k deleted ih =>
    rw [List.foldl_cons, ih]
    by_cases hmem : key ∈ deleted
    · simp [hmem]
    · by_cases heq : key = k
      · simp [heq]
      · simp [hmem, heq]

def readPruningJournal (db : MetaDb H K) (block : Nat) :
    Except StateDbError (Option (PruningRecord H K)) :=
  match db (.pruningJournal block) with
  | none => .ok none
  | some (.pruningJournal record) => .ok (some record)
  | some _ => .error .decoding

end MetaDb

end PolkadotSdk.StateDb
