import PolkadotSdk.Babe.Pallet
import PolkadotSdk.Epochs.Model

/-! # Headers and epochs on the client's side

What the client reads in a header: the slot it claims and the epoch it announces. The epoch that
a block belongs to is found in the epoch changes. Slots and epoch indices are natural numbers; sums
are checked where the source checks them and wrap where it does not.
-/

namespace PolkadotSdk.Babe.Client

open Epochs

/-- An item of a header's digest. The items of other engines, and those that do not decode, are
`other`. -/
inductive DigestItem (Id Rand Vrf Sig : Type) where
  | preRuntime (digest : PreDigest Vrf)
  | consensus (log : ConsensusLog Id Rand)
  | seal (signature : Sig)
  | other (item : List UInt8)
  deriving DecidableEq, Repr

structure Header (H Id Rand Vrf Sig : Type) where
  parentHash : H
  number : ℕ
  stateRoot : H
  extrinsicsRoot : H
  digest : List (DigestItem Id Rand Vrf Sig)
  deriving DecidableEq, Repr

/-- Why a header or a block is refused. Errors of the client are of type `E`. -/
inductive Error (H Id E : Type) where
  | multiplePreRuntimeDigests
  | noPreRuntimeDigest
  | multipleEpochChangeDigests
  | multipleConfigChangeDigests
  | fetchEpoch (hash : H)
  | tooFarInFuture (hash : H)
  | parentUnavailable (parentHash hash : H)
  | slotMustIncrease (parentSlot slot : ℕ)
  | headerBadSeal (hash : H)
  | headerUnsealed (hash : H)
  | slotAuthorNotFound
  | secondarySlotAssignmentsDisabled
  | badSignature (hash : H)
  | vrfVerificationFailed
  | vrfThresholdExceeded (threshold : ℕ)
  | noSecondaryAuthorExpected
  | invalidAuthor (expected author : Id)
  | expectedEpochChange (hash : H) (slot : ℕ)
  | unexpectedConfigChange
  | unexpectedEpochChange
  | parentBlockNoAssociatedWeight (hash : H)
  | client (e : E)
  | runtimeApi (e : E)
  | forkTree (e : ForkTree.Error E)
  deriving DecidableEq, Repr

variable {H Id Rand Vrf Sig E : Type}

namespace DigestItem

def asBabePreDigest : DigestItem Id Rand Vrf Sig → Option (PreDigest Vrf)
  | .preRuntime digest => some digest
  | _ => none

def asBabeSeal : DigestItem Id Rand Vrf Sig → Option Sig
  | .seal signature => some signature
  | _ => none

def asNextEpochData : DigestItem Id Rand Vrf Sig → Option (NextEpochDescriptor Id Rand)
  | .consensus (.nextEpochData next) => some next
  | _ => none

def asNextConfigData : DigestItem Id Rand Vrf Sig → Option NextConfigDescriptor
  | .consensus (.nextConfigData next) => some next
  | _ => none

end DigestItem

/-- The item of a kind that the logs hold. A second one is an error. -/
def findOnly {α : Type} (read : DigestItem Id Rand Vrf Sig → Option α) (multiple : Error H Id E) :
    List (DigestItem Id Rand Vrf Sig) → Option α → Except (Error H Id E) (Option α)
  | [], found => .ok found
  | log :: logs, found =>
    match read log, found with
    | some _, some _ => .error multiple
    | none, found => findOnly read multiple logs found
    | some item, none => findOnly read multiple logs (some item)

/-- The genesis block claims no slot; it is given slot 0. -/
def findPreDigest (header : Header H Id Rand Vrf Sig) :
    Except (Error H Id E) (PreDigest Vrf) :=
  if header.number = 0 then .ok (.secondaryPlain ⟨0, 0⟩)
  else
    match findOnly DigestItem.asBabePreDigest .multiplePreRuntimeDigests header.digest none with
    | .error e => .error e
    | .ok none => .error .noPreRuntimeDigest
    | .ok (some digest) => .ok digest

def findNextEpochDigest (header : Header H Id Rand Vrf Sig) :
    Except (Error H Id E) (Option (NextEpochDescriptor Id Rand)) :=
  findOnly DigestItem.asNextEpochData .multipleEpochChangeDigests header.digest none

def findNextConfigDigest (header : Header H Id Rand Vrf Sig) :
    Except (Error H Id E) (Option NextConfigDescriptor) :=
  findOnly DigestItem.asNextConfigData .multipleConfigChangeDigests header.digest none

theorem findOnly_append_none {α : Type} {read : DigestItem Id Rand Vrf Sig → Option α}
    {multiple : Error H Id E} (logs : List (DigestItem Id Rand Vrf Sig))
    {item : DigestItem Id Rand Vrf Sig} (hitem : read item = none) (found : Option α) :
    findOnly read multiple (logs ++ [item]) found = findOnly read multiple logs found := by
  induction logs generalizing found with
  | nil => cases found <;> simp [findOnly, hitem]
  | cons log logs ih =>
    rw [List.cons_append]
    unfold findOnly
    split
    · rfl
    · exact ih _
    · exact ih _

theorem findOnly_eq_findSome {α : Type} {read : DigestItem Id Rand Vrf Sig → Option α}
    {multiple : Error H Id E} {logs : List (DigestItem Id Rand Vrf Sig)} {found result : Option α}
    (h : findOnly read multiple logs found = .ok result) :
    result = found.or (logs.findSome? read) := by
  induction logs generalizing found with
  | nil =>
    cases h
    simp
  | cons log logs ih =>
    unfold findOnly at h
    split at h
    · cases h
    · next hread =>
        rw [List.findSome?_cons, hread]
        exact ih h
    · next hread =>
        rw [List.findSome?_cons, hread]
        exact ih h

/-! ## Epochs -/

instance : Epochs.Epoch (Babe.Epoch Id Rand) ℕ where
  startSlot epoch := epoch.startSlot
  endSlot epoch := (epoch.startSlot + epoch.duration) % 2 ^ 64

structure BabeConfiguration (Id Rand : Type) where
  epochLength : ℕ
  c : ℕ × ℕ
  authorities : List (Id × ℕ)
  randomness : Rand
  allowedSlots : AllowedSlots
  deriving DecidableEq, Repr

/-- The genesis epoch starts at the slot of the first block. -/
def genesisEpoch (config : BabeConfiguration Id Rand) (slot : ℕ) : Babe.Epoch Id Rand where
  epochIndex := 0
  startSlot := slot
  duration := config.epochLength
  authorities := config.authorities
  randomness := config.randomness
  config := ⟨config.c, config.allowedSlots⟩

def incrementEpoch (epoch : Babe.Epoch Id Rand) (next : NextEpochDescriptor Id Rand)
    (config : BabeEpochConfiguration) : Babe.Epoch Id Rand where
  epochIndex := (epoch.epochIndex + 1) % 2 ^ 64
  startSlot := (epoch.startSlot + epoch.duration) % 2 ^ 64
  duration := epoch.duration
  authorities := next.authorities
  randomness := next.randomness
  config := config

/-- The epoch moved on by those that were skipped up to the slot. `none` is a panic. -/
def cloneForSlot (epoch : Babe.Epoch Id Rand) (slot : ℕ) : Option (Babe.Epoch Id Rand) := do
  let skippedEpochs ← epochIndexOf slot epoch.startSlot epoch.duration
  let epochIndex ← checkedAdd epoch.epochIndex skippedEpochs
  let startSlot ← epochStartSlot skippedEpochs epoch.startSlot epoch.duration
  some { epoch with epochIndex, startSlot }

def increment (viable : ViableEpoch (Babe.Epoch Id Rand)) (next : NextEpochDescriptor Id Rand)
    (config : BabeEpochConfiguration) : PersistedEpoch (Babe.Epoch Id Rand) :=
  match viable with
  | .unimportedGenesis epoch0 => .genesis epoch0 (incrementEpoch epoch0 next config)
  | .signaled epoch => .regular (incrementEpoch epoch next config)

/-- There is no block below number 0 to look the epoch up for. -/
def queryEpochChanges [LinearOrder H] [HashBytes H]
    (changes : EpochChanges H ℕ (Babe.Epoch Id Rand)) (builder : IsDescendentOfBuilder H E)
    (config : BabeConfiguration Id Rand) (blockNumber slot : ℕ) (parentHash : H) :
    Option (Except (Error H Id E)
      (ViableEpochDescriptor H ℕ × ViableEpoch (Babe.Epoch Id Rand))) :=
  if blockNumber = 0 then none
  else
    match changes.epochDescriptorForChildOf builder parentHash (blockNumber - 1) slot with
    | none => none
    | some (.error e) => some (.error (.forkTree e))
    | some (.ok none) => some (.error (.fetchEpoch parentHash))
    | some (.ok (some descriptor)) =>
      match changes.viableEpoch descriptor (genesisEpoch config) with
      | none => some (.error (.fetchEpoch parentHash))
      | some viable => some (.ok (descriptor, viable))

end PolkadotSdk.Babe.Client
