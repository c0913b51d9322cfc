import Mathlib
import PolkadotSdk.ForkTree.Model
import PolkadotSdk.Lib.OrderedMap

/-! # Epoch changes

The epochs that blocks of all forks have signalled: a fork tree of epoch headers, and the
epochs themselves by the block that signalled them. The first entry of a chain carries two
epochs, the genesis epoch and the one after it.
-/

namespace PolkadotSdk.Epochs

open Std ForkTree

/-- An epoch covers the slots from its start up to, but without, its end. -/
class Epoch (Ep : Type) (Slot : outParam Type) where
  startSlot : Ep → Slot
  endSlot : Ep → Slot

structure EpochHeader (Slot : Type) where
  startSlot : Slot
  endSlot : Slot
  deriving DecidableEq, Repr

inductive EpochIdentifierPosition where
  | genesis0
  | genesis1
  | regular
  deriving DecidableEq, Repr

structure EpochIdentifier (H : Type) where
  position : EpochIdentifierPosition
  hash : H
  number : ℕ
  deriving DecidableEq, Repr

inductive ViableEpoch (Ep : Type) where
  | unimportedGenesis (epoch : Ep)
  | signaled (epoch : Ep)
  deriving DecidableEq, Repr

inductive ViableEpochDescriptor (H Slot : Type) where
  | unimportedGenesis (slot : Slot)
  | signaled (identifier : EpochIdentifier H) (header : EpochHeader Slot)
  deriving DecidableEq, Repr

def ViableEpoch.epoch {Ep : Type} : ViableEpoch Ep → Ep
  | .unimportedGenesis epoch => epoch
  | .signaled epoch => epoch

def ViableEpoch.modify {Ep : Type} (f : Ep → Option Ep) : ViableEpoch Ep → Option (ViableEpoch Ep)
  | .unimportedGenesis epoch => (f epoch).map .unimportedGenesis
  | .signaled epoch => (f epoch).map .signaled

def ViableEpochDescriptor.startSlot {H Slot : Type} : ViableEpochDescriptor H Slot → Slot
  | .unimportedGenesis slot => slot
  | .signaled _ header => header.startSlot

inductive PersistedEpoch (Ep : Type) where
  | genesis (epoch0 epoch1 : Ep)
  | regular (epochN : Ep)
  deriving DecidableEq, Repr

inductive PersistedEpochHeader (Slot : Type) where
  | genesis (epoch0 epoch1 : EpochHeader Slot)
  | regular (epochN : EpochHeader Slot)
  deriving DecidableEq, Repr

class HashBytes (H : Type) where
  modifyFirst : (UInt8 → UInt8) → H → H

instance : HashBytes (List ℕ) where
  modifyFirst f bytes := bytes.modify 0 fun byte => (f (UInt8.ofNat byte)).toNat

/-- A hash that no block of the chain has, made by flipping the first bit of a block's hash. -/
def fakeHeadHash {H : Type} [HashBytes H] (parentHash : H) : H :=
  HashBytes.modifyFirst (fun byte => byte ^^^ 0b10000000) parentHash

/-- From `(current, currentParent)`, a block that is not stored yet, a test of descent. -/
abbrev IsDescendentOfBuilder (H E : Type) := Option (H × H) → H → H → Except E Bool

/-- The builder of a client, over its search for the lowest common ancestor. -/
def descendentQuery {H E : Type} [DecidableEq H] (lowestCommonAncestor : H → H → Except E H) :
    IsDescendentOfBuilder H E := fun current base hash =>
  let search (hash : H) : Except E Bool := do
    let ancestor ← lowestCommonAncestor hash base
    .ok (decide (ancestor = base))
  if base = hash then .ok false
  else
    match current with
    | none => search hash
    | some (currentHash, currentParentHash) =>
      if base = currentHash then .ok false
      else if hash = currentHash then
        if base = currentParentHash then .ok true else search currentParentHash
      else search hash

structure EpochChanges (H Slot Ep : Type) [LinearOrder H] where
  inner : ForkTree H ℕ (PersistedEpochHeader Slot)
  epochs : ExtTreeMap (H ×ₗ ℕ) (PersistedEpoch Ep)

namespace EpochChanges

variable {H Slot Ep E : Type} [LinearOrder H] [LinearOrder Slot]

def lastStarted (slot : Slot) : PersistedEpochHeader Slot → Bool
  | .genesis _ epoch1 => epoch1.startSlot ≤ slot
  | .regular epochN => epochN.startSlot ≤ slot

def firstStarted (slot : Slot) : PersistedEpochHeader Slot → Bool
  | .genesis epoch0 _ => epoch0.startSlot ≤ slot
  | .regular epochN => epochN.startSlot ≤ slot

/-- Prune the epochs that no child of the finalized block can be under. -/
def pruneFinalized (changes : EpochChanges H Slot Ep) (builder : IsDescendentOfBuilder H E)
    (hash : H) (number : ℕ) (slot : Slot) : Outcome E (EpochChanges H Slot Ep) :=
  (changes.inner.prune hash number (builder none) (lastStarted slot)).bind
    fun (inner, removed) =>
      let keys := removed.map fun (hash, number, _) => toLex (hash, number)
      let epochs := keys.foldl (·.erase ·) changes.epochs
      some (.ok ⟨inner, epochs⟩)

def epoch (changes : EpochChanges H Slot Ep) (id : EpochIdentifier H) : Option Ep :=
  match changes.epochs[toLex (id.hash, id.number)]?, id.position with
  | some (.genesis epoch0 _), .genesis0 => some epoch0
  | some (.genesis _ epoch1), .genesis1 => some epoch1
  | some (.regular epochN), .regular => some epochN
  | _, _ => none

def viableEpoch (changes : EpochChanges H Slot Ep) (descriptor : ViableEpochDescriptor H Slot)
    (makeGenesis : Slot → Ep) : Option (ViableEpoch Ep) :=
  match descriptor with
  | .unimportedGenesis slot => some (.unimportedGenesis (makeGenesis slot))
  | .signaled identifier _ => (changes.epoch identifier).map .signaled

def describe (slot : Slot) (node : Node H ℕ (PersistedEpochHeader Slot)) :
    ViableEpochDescriptor H Slot :=
  let (position, header) : EpochIdentifierPosition × EpochHeader Slot :=
    match node.data with
    | .genesis epoch0 epoch1 =>
      if epoch1.startSlot ≤ slot then (.genesis1, epoch1) else (.genesis0, epoch0)
    | .regular epochN => (.regular, epochN)
  .signaled ⟨position, node.hash, node.number⟩ header

/-- The search is for strict ancestors, so it is made for a block below the parent that does not
exist. -/
def epochDescriptorForChildOf [HashBytes H] (changes : EpochChanges H Slot Ep)
    (builder : IsDescendentOfBuilder H E) (parentHash : H) (parentNumber : ℕ) (slot : Slot) :
    Outcome E (Option (ViableEpochDescriptor H Slot)) :=
  if parentNumber = 0 then some (.ok (some (.unimportedGenesis slot)))
  else
    let fake := fakeHeadHash parentHash
    (findNodeWhere fake (parentNumber + 1) (builder (some (fake, parentHash)))
      (firstStarted slot) changes.inner.roots).bind fun found =>
        some (.ok (found.map (describe slot)))

def header [Epoch Ep Slot] (epoch : Ep) : EpochHeader Slot :=
  ⟨Epoch.startSlot epoch, Epoch.endSlot epoch⟩

def persistedHeader [Epoch Ep Slot] : PersistedEpoch Ep → PersistedEpochHeader Slot
  | .genesis epoch0 epoch1 => .genesis (header epoch0) (header epoch1)
  | .regular epochN => .regular (header epochN)

def importEpoch [Epoch Ep Slot] (changes : EpochChanges H Slot Ep)
    (builder : IsDescendentOfBuilder H E) (hash : H) (number : ℕ) (parentHash : H)
    (epoch : PersistedEpoch Ep) : Outcome E (EpochChanges H Slot Ep) :=
  let epochs := changes.epochs.insert (toLex (hash, number)) epoch
  match changes.inner.importNode hash number (persistedHeader epoch)
    (builder (some (hash, parentHash))) with
  | none => none
  | some (.ok (inner, _)) => some (.ok ⟨inner, epochs⟩)
  | some (.error .duplicate) => some (.ok ⟨changes.inner, epochs⟩)
  | some (.error e) => some (.error e)

def reset [Epoch Ep Slot] (parentHash hash : H) (number : ℕ) (current next : Ep) :
    Option (EpochChanges H Slot Ep) := do
  let inner ← place ForkTree.new parentHash (number - 1) current false
  let inner ← place inner hash number next true
  let epochs : ExtTreeMap (H ×ₗ ℕ) (PersistedEpoch Ep) := ∅
  let epochs := epochs.insert (toLex (parentHash, number - 1)) (.regular current)
  some ⟨inner, epochs.insert (toLex (hash, number)) (.regular next)⟩
where
  /-- The result of the import is not looked at. -/
  place (tree : ForkTree H ℕ (PersistedEpochHeader Slot)) (hash : H) (number : ℕ) (epoch : Ep)
      (descends : Bool) : Option (ForkTree H ℕ (PersistedEpochHeader Slot)) :=
    match tree.importNode hash number (persistedHeader (.regular epoch))
      (fun _ _ => (.ok descends : Except Empty Bool)) with
    | none => none
    | some (.ok (tree, _)) => some tree
    | some (.error _) => some tree

end EpochChanges

end PolkadotSdk.Epochs
