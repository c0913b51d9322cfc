import Mathlib

/-! # BABE digest items

What a block header carries for BABE: the slot it claims, and what it announces about the next
epoch.
-/

namespace PolkadotSdk.Babe

structure PrimaryPreDigest (Vrf : Type) where
  authorityIndex : Nat
  slot : Nat
  vrfSignature : Vrf
  deriving DecidableEq, Repr

structure SecondaryPlainPreDigest where
  authorityIndex : Nat
  slot : Nat
  deriving DecidableEq, Repr

structure SecondaryVRFPreDigest (Vrf : Type) where
  authorityIndex : Nat
  slot : Nat
  vrfSignature : Vrf
  deriving DecidableEq, Repr

inductive PreDigest (Vrf : Type) where
  | primary (digest : PrimaryPreDigest Vrf)
  | secondaryPlain (digest : SecondaryPlainPreDigest)
  | secondaryVRF (digest : SecondaryVRFPreDigest Vrf)
  deriving DecidableEq, Repr

namespace PreDigest

variable {Vrf : Type}

def authorityIndex : PreDigest Vrf → Nat
  | primary digest => digest.authorityIndex
  | secondaryPlain digest => digest.authorityIndex
  | secondaryVRF digest => digest.authorityIndex

def slot : PreDigest Vrf → Nat
  | primary digest => digest.slot
  | secondaryPlain digest => digest.slot
  | secondaryVRF digest => digest.slot

def isPrimary : PreDigest Vrf → Bool
  | primary _ => true
  | _ => false

def addedWeight : PreDigest Vrf → Nat
  | primary _ => 1
  | secondaryPlain _ | secondaryVRF _ => 0

def vrfSignature : PreDigest Vrf → Option Vrf
  | primary digest => some digest.vrfSignature
  | secondaryVRF digest => some digest.vrfSignature
  | secondaryPlain _ => none

end PreDigest

inductive AllowedSlots where
  | primarySlots
  | primaryAndSecondaryPlainSlots
  | primaryAndSecondaryVRFSlots
  deriving DecidableEq, Repr

structure BabeEpochConfiguration where
  c : Nat × Nat
  allowedSlots : AllowedSlots
  deriving DecidableEq, Repr

inductive NextConfigDescriptor where
  | v1 (c : Nat × Nat) (allowedSlots : AllowedSlots)
  deriving DecidableEq, Repr

def NextConfigDescriptor.toConfiguration : NextConfigDescriptor → BabeEpochConfiguration
  | v1 c allowedSlots => ⟨c, allowedSlots⟩

structure NextEpochDescriptor (Id Rand : Type) where
  authorities : List (Id × Nat)
  randomness : Rand
  deriving DecidableEq, Repr

inductive ConsensusLog (Id Rand : Type) where
  | nextEpochData (next : NextEpochDescriptor Id Rand)
  | nextConfigData (next : NextConfigDescriptor)
  deriving DecidableEq, Repr

end PolkadotSdk.Babe
