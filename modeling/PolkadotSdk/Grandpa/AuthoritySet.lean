import Mathlib
import PolkadotSdk.ForkTree.Model
import PolkadotSdk.Lib.BinarySearch

/-! # Authority sets

The current authorities, the changes that are pending on the branches, and the history of the
set: the last block of each set that was replaced. A standard change is applied when a block at
or past its effective number is finalized, a forced change when its branch reaches the effective
number. `none` is a panic.
-/

namespace PolkadotSdk.Grandpa

abbrev AuthorityList (A : Type) : Type := List (A × Nat)

inductive DelayKind where
  | finalized
  | best (medianLastFinalized : Nat)
  deriving DecidableEq, Repr

structure PendingChange (H A : Type) where
  nextAuthorities : AuthorityList A
  delay : Nat
  canonHeight : Nat
  canonHash : H
  delayKind : DelayKind
  deriving DecidableEq, Repr

def PendingChange.effectiveNumber {H A : Type} (change : PendingChange H A) : Nat :=
  change.canonHeight + change.delay

/-! ## The history of the set -/

inductive AuthoritySetChangeId where
  | latest
  | set (setId : Nat) (lastBlock : Nat)
  | unknown
  deriving DecidableEq, Repr

abbrev AuthoritySetChanges : Type := List (Nat × Nat)

namespace AuthoritySetChanges

variable (changes : AuthoritySetChanges) (search : BinarySearch Nat)

def append (setId blockNumber : Nat) : AuthoritySetChanges :=
  changes ++ [(setId, blockNumber)]

def numbers : List Nat := changes.map Prod.snd

def getSetId (blockNumber : Nat) :
    AuthoritySetChangeId :=
  if (changes.getLast?.map fun last => decide (last.2 < blockNumber)).getD false then .latest
  else
    let idx := search.position changes.numbers blockNumber
    match changes[idx]? with
    | none => .unknown
    | some (setId, lastBlock) =>
      -- the first index but not the first set: data is missing
      if idx = 0 ∧ setId ≠ 0 then .unknown else .set setId lastBlock

/-- Insert a historical change; the set id that would be given twice is the error. -/
def insert (blockNumber : Nat) :
    Option (Except Nat AuthoritySetChanges) :=
  let idx := search.position changes.numbers blockNumber
  match if idx = 0 then some 0 else changes[idx - 1]?.map (·.1 + 1) with
  | none => none
  | some setId =>
    if idx ≠ changes.length ∧ changes[idx]?.map Prod.fst = some setId then some (.error setId)
    else if idx ≤ changes.length then some (.ok (changes.insertIdx idx (setId, blockNumber)))
    else none

def iterFrom (blockNumber : Nat) :
    Option AuthoritySetChanges :=
  let idx :=
    match search.search changes.numbers blockNumber with
    | .ok i => i + 1
    | .error i => i
  match changes[idx]? with
  | none => some (changes.drop idx)
  | some (setId, _) => if idx = 0 ∧ setId ≠ 0 then none else some (changes.drop idx)

end AuthoritySetChanges

/-! ## The set -/

structure AuthoritySet (H A : Type) where
  currentAuthorities : AuthorityList A
  setId : Nat
  pendingStandardChanges : ForkTree H Nat (PendingChange H A)
  pendingForcedChanges : List (PendingChange H A)
  authoritySetChanges : AuthoritySetChanges

inductive Error (E : Type) where
  | invalidAuthoritySet
  | client (error : E)
  | duplicateAuthoritySetChange
  | multiplePendingForcedAuthoritySetChanges
  | forcedAuthoritySetChangeDependencyUnsatisfied (effectiveNumber : Nat)
  | forkTree (error : ForkTree.Error E)
  deriving DecidableEq, Repr

variable {H A E : Type}

def Error.ofForkTree : ForkTree.Error E → Error E
  | .client error => .client error
  | .duplicate => .duplicateAuthoritySetChange
  | error => .forkTree error

def Error.ofClient {α : Type} : Except E α → Except (Error E) α
  | .error error => .error (.client error)
  | .ok a => .ok a

abbrev Outcome (E α : Type) : Type := Option (Except (Error E) α)

def invalidAuthorityList (authorities : AuthorityList A) : Bool :=
  authorities.isEmpty || authorities.any fun (_, weight) => weight == 0

structure Status (H : Type) where
  changed : Bool
  newSetBlock : Option (H × Nat)
  deriving DecidableEq, Repr

namespace AuthoritySet

def genesis (initial : AuthorityList A) : Option (AuthoritySet H A) :=
  if invalidAuthorityList initial then none else some ⟨initial, 0, .new, [], []⟩

section Operations

variable [DecidableEq H] (isDescendentOf : H → H → Except E Bool)

variable (set : AuthoritySet H A)

def addStandardChange (pending : PendingChange H A) :
    Outcome E (AuthoritySet H A) :=
  match set.pendingStandardChanges.importNode pending.canonHash pending.canonHeight pending
      isDescendentOf with
  | none => none
  | some (.error error) => some (.error (.ofForkTree error))
  | some (.ok (tree, _)) => some (.ok { set with pendingStandardChanges := tree })

def checkForcedChange (pending : PendingChange H A) :
    List (PendingChange H A) → Except (Error E) Unit
  | [] => .ok ()
  | change :: rest =>
    if change.canonHash = pending.canonHash then .error .duplicateAuthoritySetChange
    else do
      if ← Error.ofClient (isDescendentOf change.canonHash pending.canonHash) then
        .error .multiplePendingForcedAuthoritySetChanges
      else checkForcedChange pending rest

def forcedKey (change : PendingChange H A) : Nat ×ₗ Nat :=
  toLex (change.effectiveNumber, change.canonHeight)

def addForcedChange (search : BinarySearch (Nat ×ₗ Nat)) (set : AuthoritySet H A)
    (pending : PendingChange H A) : Outcome E (AuthoritySet H A) :=
  match checkForcedChange isDescendentOf pending set.pendingForcedChanges with
  | .error error => some (.error error)
  | .ok () =>
    let idx := search.position (set.pendingForcedChanges.map forcedKey) (forcedKey pending)
    if idx ≤ set.pendingForcedChanges.length then
      some (.ok
        { set with pendingForcedChanges := set.pendingForcedChanges.insertIdx idx pending })
    else none

def addPendingChange (search : BinarySearch (Nat ×ₗ Nat)) (set : AuthoritySet H A)
    (pending : PendingChange H A) : Outcome E (AuthoritySet H A) :=
  if invalidAuthorityList pending.nextAuthorities then some (.error .invalidAuthoritySet)
  else
    match pending.delayKind with
    | .best _ => set.addForcedChange isDescendentOf search pending
    | .finalized => set.addStandardChange isDescendentOf pending

def currentLimit (min : Nat) : Option Nat :=
  ((set.pendingStandardChanges.roots.map fun root => root.data.effectiveNumber).filter
    fun number => decide (min ≤ number)).min?

def findForced (bestHash : H) : List (PendingChange H A) → Except (Error E)
    (Option (PendingChange H A))
  | [] => .ok none
  | change :: rest => do
    let onBranch ←
      if change.canonHash = bestHash then .ok true
      else Error.ofClient (isDescendentOf change.canonHash bestHash)
    if onBranch then .ok (some change) else findForced bestHash rest

def checkDependencies (medianLastFinalized : Nat) (change : PendingChange H A) :
    List (ForkTree.Node H Nat (PendingChange H A)) → Except (Error E) Unit
  | [] => .ok ()
  | root :: rest => do
    let depends ←
      if root.data.effectiveNumber ≤ medianLastFinalized then
        Error.ofClient (isDescendentOf root.data.canonHash change.canonHash)
      else .ok false
    if depends then
      .error (.forcedAuthoritySetChangeDependencyUnsatisfied root.data.effectiveNumber)
    else checkDependencies medianLastFinalized change rest

def forcedSet (change : PendingChange H A) (medianLastFinalized : Nat) :
    AuthoritySet H A :=
  { currentAuthorities := change.nextAuthorities
    setId := set.setId + 1
    pendingStandardChanges := .new
    pendingForcedChanges := []
    authoritySetChanges := set.authoritySetChanges.append set.setId medianLastFinalized }

def forcedAt (bestNumber : Nat) : List (PendingChange H A) :=
  (set.pendingForcedChanges.takeWhile fun c => decide (c.effectiveNumber ≤ bestNumber)).filter
    fun c => decide (c.effectiveNumber = bestNumber)

def applyForcedChanges (bestHash : H) (bestNumber : Nat) :
    Outcome E (Option (Nat × AuthoritySet H A)) :=
  match findForced isDescendentOf bestHash (set.forcedAt bestNumber) with
  | .error error => some (.error error)
  | .ok none => some (.ok none)
  | .ok (some change) =>
    match change.delayKind with
    | .finalized => none
    | .best medianLastFinalized =>
      match checkDependencies isDescendentOf medianLastFinalized change
          set.pendingStandardChanges.roots with
      | .error error => some (.error error)
      | .ok () =>
        some (.ok (some (medianLastFinalized, set.forcedSet change medianLastFinalized)))

def keepForced (finalizedHash : H) (finalizedNumber : Nat) :
    List (PendingChange H A) → Except (Error E) (List (PendingChange H A))
  | [] => .ok []
  | change :: rest => do
    let keep ←
      if finalizedNumber < change.effectiveNumber then
        Error.ofClient (isDescendentOf finalizedHash change.canonHash)
      else .ok false
    let kept ← keepForced finalizedHash finalizedNumber rest
    .ok (if keep then change :: kept else kept)

def applyStandardChanges (finalizedHash : H) (finalizedNumber : Nat) :
    Except (Error E) (AuthoritySet H A × Status H) :=
  match set.pendingStandardChanges.finalizeWithDescendentIf finalizedHash finalizedNumber
      isDescendentOf fun change => decide (change.effectiveNumber ≤ finalizedNumber) with
  | .error error => .error (.ofForkTree error)
  | .ok (tree, .unchanged) => .ok ({ set with pendingStandardChanges := tree }, ⟨false, none⟩)
  | .ok (tree, .changed data) => do
    let forced ← keepForced isDescendentOf finalizedHash finalizedNumber set.pendingForcedChanges
    let set := { set with pendingStandardChanges := tree, pendingForcedChanges := forced }
    match data with
    | none => .ok (set, ⟨true, none⟩)
    | some change =>
      .ok (
        { set with
          currentAuthorities := change.nextAuthorities
          setId := set.setId + 1
          authoritySetChanges := set.authoritySetChanges.append set.setId finalizedNumber },
        ⟨true, some (finalizedHash, finalizedNumber)⟩)

def enactsStandardChange (finalizedHash : H) (finalizedNumber : Nat) :
    Except (Error E) (Option Bool) :=
  match set.pendingStandardChanges.finalizesAnyWithDescendentIf finalizedHash finalizedNumber
      isDescendentOf fun change => decide (change.effectiveNumber = finalizedNumber) with
  | .error error => .error (.forkTree error)
  | .ok enacts => .ok enacts

end Operations

end AuthoritySet

end PolkadotSdk.Grandpa
