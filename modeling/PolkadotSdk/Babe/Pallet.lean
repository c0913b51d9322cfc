import Mathlib
import PolkadotSdk.Babe.Digests
import PolkadotSdk.Lib.LittleEndian

/-! # The BABE pallet

The storage of the pallet and the operations that change it. `none` is a panic. Slots, epoch
indices and the other machine integers are natural numbers; sums are checked where the source
checks them and wrap where it does not.
-/

namespace PolkadotSdk.Babe

def underConstructionSegmentLength : Nat := 256

def maxSkippedEpochs : Nat := 100

/-- What the runtime is built with; `makeBytes` is the randomness that a VRF output gives. -/
structure Config (Id Rand Vrf : Type) where
  epochDuration : Nat
  bytes : Rand → List UInt8
  blake2256 : List UInt8 → Rand
  makeBytes : Id → (randomness : Rand) → (slot epoch : Nat) → Vrf → Option Rand

/-- A value that storage returns where nothing was put is the default of its type. -/
structure Pallet (Id Rand Vrf : Type) where
  epochIndex : Nat
  authorities : List (Id × Nat)
  genesisSlot : Nat
  currentSlot : Nat
  randomness : Rand
  pendingEpochConfigChange : Option NextConfigDescriptor
  nextRandomness : Rand
  nextAuthorities : List (Id × Nat)
  segmentIndex : Nat
  underConstruction : Nat → List Rand
  initialized : Option (Option (PreDigest Vrf))
  authorVrfRandomness : Option Rand
  epochStart : Nat × Nat
  lateness : Nat
  epochConfig : Option BabeEpochConfiguration
  nextEpochConfig : Option BabeEpochConfiguration
  skippedEpochs : List (Nat × Nat)
  /-- The logs of all blocks so far, the oldest first. -/
  digest : List (ConsensusLog Id Rand)

structure Epoch (Id Rand : Type) where
  epochIndex : Nat
  startSlot : Nat
  duration : Nat
  authorities : List (Id × Nat)
  randomness : Rand
  config : BabeEpochConfiguration
  deriving DecidableEq, Repr

/-- Returns `none` where the division panics. -/
def epochIndexOf (slot genesisSlot epochDuration : Nat) : Option Nat :=
  if epochDuration = 0 then none else some ((slot - genesisSlot) / epochDuration)

def checkedAdd (a b : Nat) : Option Nat := if a + b < 2 ^ 64 then some (a + b) else none

def epochStartSlot (epochIndex genesisSlot epochDuration : Nat) : Option Nat :=
  if epochIndex * epochDuration + genesisSlot < 2 ^ 64 then
    some (epochIndex * epochDuration + genesisSlot)
  else none

variable {Id Rand Vrf : Type}

def computeRandomness (config : Config Id Rand Vrf) (lastEpochRandomness : Rand)
    (epochIndex : Nat) (rho : List Rand) : Rand :=
  config.blake2256
    (config.bytes lastEpochRandomness ++ LittleEndian.leBytes 8 epochIndex ++
      rho.flatMap config.bytes)

namespace Pallet

def genesis (zero : Rand) (authorities : List (Id × Nat)) (epochConfig : BabeEpochConfiguration) :
    Pallet Id Rand Vrf where
  epochIndex := 0
  authorities := authorities
  genesisSlot := 0
  currentSlot := 0
  randomness := zero
  pendingEpochConfigChange := none
  nextRandomness := zero
  nextAuthorities := authorities
  segmentIndex := 0
  underConstruction := fun _ => []
  initialized := none
  authorVrfRandomness := none
  epochStart := (0, 0)
  lateness := 0
  epochConfig := some epochConfig
  nextEpochConfig := none
  skippedEpochs := []
  digest := []

variable (config : Config Id Rand Vrf) (pallet : Pallet Id Rand Vrf)

def depositConsensus (log : ConsensusLog Id Rand) :
    Pallet Id Rand Vrf :=
  { pallet with digest := pallet.digest ++ [log] }

def initializeGenesisEpoch (genesisSlot : Nat) :
    Pallet Id Rand Vrf :=
  { pallet with genesisSlot }.depositConsensus
    (.nextEpochData ⟨pallet.authorities, pallet.randomness⟩)

def enterSlot (currentSlot : Nat) : Pallet Id Rand Vrf :=
  let started :=
    if pallet.genesisSlot = 0 then pallet.initializeGenesisEpoch currentSlot else pallet
  { started with
    lateness := (currentSlot - (pallet.currentSlot + 1) % 2 ^ 64) % 2 ^ 32
    currentSlot }

/-- The first call in a block reads the slot of the block. An epoch change is then triggered
by the caller. -/
def initializeBlock (preDigest : Option (PreDigest Vrf)) :
    Pallet Id Rand Vrf :=
  match pallet.initialized, preDigest with
  | some _, _ => pallet
  | none, none => { pallet with initialized := some none }
  | none, some digest => { pallet.enterSlot digest.slot with initialized := some (some digest) }

def currentEpochStart (epochDuration : Nat) : Option Nat :=
  epochStartSlot pallet.epochIndex pallet.genesisSlot epochDuration

def currentEpoch :
    Option (Epoch Id Rand) := do
  let startSlot ← pallet.currentEpochStart config.epochDuration
  let epochConfig ← pallet.epochConfig
  some
    { epochIndex := pallet.epochIndex
      startSlot
      duration := config.epochDuration
      authorities := pallet.authorities
      randomness := pallet.randomness
      config := epochConfig }

def nextEpoch :
    Option (Epoch Id Rand) := do
  let nextEpochIndex ← checkedAdd pallet.epochIndex 1
  let startSlot ← epochStartSlot nextEpochIndex pallet.genesisSlot config.epochDuration
  let epochConfig ← pallet.nextEpochConfig.or pallet.epochConfig
  some
    { epochIndex := nextEpochIndex
      startSlot
      duration := config.epochDuration
      authorities := pallet.nextAuthorities
      randomness := pallet.nextRandomness
      config := epochConfig }

/-- Push to the current segment, or to a new one where it is full. -/
def depositRandomness (randomness : Rand) : Pallet Id Rand Vrf :=
  let segment := pallet.underConstruction pallet.segmentIndex
  if segment.length < underConstructionSegmentLength then
    { pallet with
      underConstruction :=
        Function.update pallet.underConstruction pallet.segmentIndex (segment ++ [randomness]) }
  else
    let segmentIndex := (pallet.segmentIndex + 1) % 2 ^ 32
    { pallet with
      underConstruction := Function.update pallet.underConstruction segmentIndex [randomness]
      segmentIndex }

def takeSegments (segments : Nat → List Rand) : Nat → List Rand × (Nat → List Rand)
  | 0 => ([], segments)
  | count + 1 =>
    let taken := takeSegments segments count
    (taken.1 ++ taken.2 count, Function.update taken.2 count [])

/-- The randomness of the epoch that begins is put by the caller; the one after it is
computed here. -/
def randomnessChangeEpoch (nextEpochIndex : Nat) : Rand × Pallet Id Rand Vrf :=
  let thisRandomness := pallet.nextRandomness
  let rho := takeSegments pallet.underConstruction pallet.segmentIndex
  (thisRandomness,
    { pallet with
      segmentIndex := 0
      underConstruction := rho.2
      nextRandomness := computeRandomness config thisRandomness nextEpochIndex rho.1 })

def recordSkipped (skipped : List (Nat × Nat)) (epochIndex sessionIndex : Nat) :
    List (Nat × Nat) :=
  if epochIndex < sessionIndex then skipped
  else (if maxSkippedEpochs ≤ skipped.length then skipped.drop 1 else skipped) ++
    [(epochIndex, sessionIndex)]

/-- The configuration that was announced last applies, and the one that is planned is taken
and announced. -/
def enactConfig : Pallet Id Rand Vrf :=
  let change := pallet.pendingEpochConfigChange
  { pallet with
    epochConfig := pallet.nextEpochConfig.or pallet.epochConfig
    nextEpochConfig := (change.map NextConfigDescriptor.toConfiguration).or pallet.nextEpochConfig
    pendingEpochConfigChange := none
    digest := pallet.digest ++ (change.map ConsensusLog.nextConfigData).toList }

def skippedTo (epochIndex : Nat) (sessionIndex : Option Nat) :
    List (Nat × Nat) :=
  if min (pallet.epochIndex + 1) (2 ^ 64 - 1) ≠ epochIndex then
    match sessionIndex with
    | some sessionIndex => recordSkipped pallet.skippedEpochs epochIndex sessionIndex
    | none => pallet.skippedEpochs
  else pallet.skippedEpochs

def enactEpoch (epochIndex : Nat)
    (authorities nextAuthorities : List (Id × Nat)) (sessionIndex : Option Nat)
    (blockNumber : Nat) : Pallet Id Rand Vrf :=
  let pallet :=
    { pallet with
      skippedEpochs := pallet.skippedTo epochIndex sessionIndex
      epochIndex
      authorities }
  let changed := pallet.randomnessChangeEpoch config (epochIndex + 1)
  let pallet :=
    { changed.2 with
      randomness := changed.1
      nextAuthorities
      epochStart := (changed.2.epochStart.2, blockNumber) }
  (pallet.depositConsensus (.nextEpochData ⟨nextAuthorities, pallet.nextRandomness⟩)).enactConfig

/-- `blockNumber` is that of the block in which the epoch changes. -/
def enactEpochChange (authorities nextAuthorities : List (Id × Nat)) (sessionIndex : Option Nat)
    (blockNumber : Nat) : Option (Pallet Id Rand Vrf) :=
  if authorities.isEmpty then some pallet
  else
    match epochIndexOf pallet.currentSlot pallet.genesisSlot config.epochDuration with
    | none => none
    | some epochIndex =>
      if epochIndex + 1 < 2 ^ 64 then
        some (pallet.enactEpoch config epochIndex authorities nextAuthorities sessionIndex
          blockNumber)
      else none

def planConfigChange (change : NextConfigDescriptor) :
    Except Unit (Pallet Id Rand Vrf) :=
  match change with
  | .v1 c allowedSlots =>
    if (c.1 ≠ 0 ∨ allowedSlots ≠ .primarySlots) ∧ c.2 ≠ 0 then
      .ok { pallet with pendingEpochConfigChange := some change }
    else .error ()

def vrfRandomness (preDigest : PreDigest Vrf) : Option Rand := do
  let signature ← preDigest.vrfSignature
  let (authority, _) ← pallet.authorities[preDigest.authorityIndex]?
  config.makeBytes authority pallet.randomness pallet.currentSlot pallet.epochIndex signature

def deposit : Option Rand :=
  match pallet.initialized with
  | some (some preDigest) =>
    if preDigest.isPrimary then vrfRandomness config pallet preDigest else none
  | _ => none

def onFinalize (isDisabled : Nat → Bool) : Option (Pallet Id Rand Vrf) :=
  match pallet.initialized with
  | some (some preDigest) =>
    if isDisabled preDigest.authorityIndex then none
    else
      let deposited :=
        match pallet.deposit config with
        | some randomness => pallet.depositRandomness randomness
        | none => pallet
      some
        { deposited with
          initialized := none
          authorVrfRandomness :=
            if preDigest.vrfSignature.isSome then vrfRandomness config pallet preDigest
            else pallet.authorVrfRandomness
          lateness := 0 }
  | _ => some { pallet with initialized := none, lateness := 0 }

theorem enactEpochChange_eq {config : Config Id Rand Vrf} {pallet after : Pallet Id Rand Vrf}
    {authorities nextAuthorities : List (Id × Nat)} {sessionIndex : Option Nat}
    {blockNumber : Nat} (hne : authorities ≠ [])
    (h : pallet.enactEpochChange config authorities nextAuthorities sessionIndex blockNumber =
      some after) :
    ∃ epochIndex,
      epochIndexOf pallet.currentSlot pallet.genesisSlot config.epochDuration = some epochIndex ∧
      epochIndex + 1 < 2 ^ 64 ∧
      after = pallet.enactEpoch config epochIndex authorities nextAuthorities sessionIndex
        blockNumber := by
  rw [enactEpochChange, if_neg (by simpa using hne)] at h
  split at h
  · cases h
  · rename_i epochIndex hindex
    split_ifs at h with hbound
    cases h
    exact ⟨epochIndex, hindex, hbound, rfl⟩

end Pallet

end PolkadotSdk.Babe
