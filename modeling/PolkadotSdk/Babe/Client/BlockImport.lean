import PolkadotSdk.Babe.Client.Headers
import PolkadotSdk.Lib.Program

/-! # Importing a block

The BABE block import: equivocations are looked for, the epoch that the block announces is put
into the shared epoch changes, and the block is handed on to the import that stores it. The node
keeps the epoch changes, the headers that were seen for each slot, the equivocations that were
reported and the blocks that were handed on. What the client, the runtime and the inner import
answer is a parameter.
-/

namespace PolkadotSdk.Babe.Client

open Epochs

inductive BlockOrigin where
  | genesis
  | networkInitialSync
  | networkBroadcast
  | consensusBroadcast
  | own
  | file
  | warpSync
  | gapSync
  deriving DecidableEq, Repr

/-- Storage changes of the block, or the whole state as it was downloaded. -/
inductive StorageChanges where
  | changes
  | importState
  deriving DecidableEq, Repr

inductive StateAction where
  | applyChanges (storageChanges : StorageChanges)
  | execute
  | executeIfPossible
  | skip
  deriving DecidableEq, Repr

def StateAction.skipExecutionChecks : StateAction → Bool
  | skip => true
  | _ => false

inductive AuxEntry (H Id Rand : Type) [LinearOrder H] where
  | epochChanges (changes : EpochChanges H ℕ (Babe.Epoch Id Rand))
  | blockWeight (hash : H) (weight : ℕ)
  | other (key : List UInt8) (value : Option (List UInt8))

structure BlockImportParams (H Id Rand Vrf Sig : Type) [LinearOrder H] where
  origin : BlockOrigin
  header : Header H Id Rand Vrf Sig
  postDigests : List (DigestItem Id Rand Vrf Sig)
  body : Option (List (List UInt8))
  stateAction : StateAction
  /-- What the verifier left for the import, and whether it is of the type that is expected. -/
  intermediate : Option (Option (ViableEpochDescriptor H ℕ))
  auxiliary : List (AuxEntry H Id Rand)
  forkChoice : Option Bool
  postHash : Option H

structure ImportedAux where
  headerOnly : Bool
  clearJustificationRequests : Bool
  needsJustification : Bool
  badJustification : Bool
  isNewBest : Bool
  deriving DecidableEq, Repr

inductive ImportResult where
  | imported (aux : ImportedAux)
  | alreadyInChain
  | knownBad
  | unknownParent
  | missingState
  deriving DecidableEq, Repr

inductive BlockStatus where
  | inChain
  | unknown
  deriving DecidableEq, Repr

structure Info (H : Type) where
  bestHash : H
  bestNumber : ℕ
  finalizedHash : H
  finalizedNumber : ℕ
  blockGap : Option (ℕ × ℕ)
  deriving DecidableEq, Repr

structure EquivocationProof (H Id Rand Vrf Sig : Type) where
  slot : ℕ
  offender : Id
  firstHeader : Header H Id Rand Vrf Sig
  secondHeader : Header H Id Rand Vrf Sig
  deriving DecidableEq, Repr

inductive Cause (H Id E : Type) where
  | babe (e : Error H Id E)
  | client (e : E)
  | importingEpochChanges (e : ForkTree.Error E)
  | text (message : String)
  | unexpectedImportResult (result : ImportResult)
  deriving DecidableEq, Repr

inductive ConsensusError (H Id E : Type) where
  | clientImport (cause : Cause H Id E)
  | chainLookup (cause : Cause H Id E)
  | other (cause : Cause H Id E)
  | noIntermediate
  | invalidIntermediate
  | inner (e : E)
  deriving DecidableEq, Repr

/-- The headers that were seen, by slot, each with its author, and the first slot that is kept. -/
structure SlotHeaders (H Id Rand Vrf Sig : Type) where
  headers : ℕ → List (Header H Id Rand Vrf Sig × Id)
  start : Option ℕ

structure Node (H Id Rand Vrf Sig : Type) [LinearOrder H] where
  epochChanges : EpochChanges H ℕ (Babe.Epoch Id Rand)
  slotHeaders : SlotHeaders H Id Rand Vrf Sig
  /-- The proofs that were handed to the runtime. -/
  reports : List (EquivocationProof H Id Rand Vrf Sig)
  /-- The blocks that were handed to the inner import. -/
  handed : List (BlockImportParams H Id Rand Vrf Sig)

structure Services (H Id Rand Vrf Sig E : Type) [LinearOrder H] where
  hash : Header H Id Rand Vrf Sig → H
  config : BabeConfiguration Id Rand
  info : Info H
  status : H → Except E BlockStatus
  header : H → Except E (Option (Header H Id Rand Vrf Sig))
  lowestCommonAncestor : H → H → Except E H
  loadBlockWeight : H → Except E (Option ℕ)
  importInner : BlockImportParams H Id Rand Vrf Sig → Except E ImportResult
  currentEpoch : H → Except E (Babe.Epoch Id Rand)
  nextEpoch : H → Except E (Babe.Epoch Id Rand)
  insertEpochChanges : EpochChanges H ℕ (Babe.Epoch Id Rand) → Except E Unit
  /-- The current slot, as the inherent data providers give it. -/
  slotNow : Except E ℕ
  checkInherents : Header H Id Rand Vrf Sig → List (List UInt8) → (slot : ℕ) → Except E Unit
  bestChain : Except E H
  generateKeyOwnershipProof : H → (slot : ℕ) → Id → Except E (Option (List UInt8))
  submitReport : H → EquivocationProof H Id Rand Vrf Sig → List UInt8 → Except E Unit

variable {H Id Rand Vrf Sig E : Type} [LinearOrder H]

namespace BlockImportParams

variable (block : BlockImportParams H Id Rand Vrf Sig)

def withState : Bool :=
  block.stateAction = .applyChanges .importState

def postHeader : Header H Id Rand Vrf Sig :=
  { block.header with digest := block.header.digest ++ block.postDigests }

def fullHash (hash : Header H Id Rand Vrf Sig → H) (block : BlockImportParams H Id Rand Vrf Sig) :
    H :=
  block.postHash.getD (hash block.postHeader)

def takeIntermediate :
    Except (ConsensusError H Id E) (ViableEpochDescriptor H ℕ) :=
  match block.intermediate with
  | none => .error .noIntermediate
  | some none => .error .invalidIntermediate
  | some (some descriptor) => .ok descriptor

def withoutIntermediate :
    BlockImportParams H Id Rand Vrf Sig :=
  { block with intermediate := block.intermediate.filter Option.isNone }

end BlockImportParams

def inGap (info : Info H) (number : ℕ) : Bool :=
  info.blockGap.any fun gap => gap.1 ≤ number && number ≤ gap.2

def shouldSkipVerification (info : Info H) (block : BlockImportParams H Id Rand Vrf Sig) : Bool :=
  block.origin = .warpSync || block.withState || inGap info block.header.number

variable (services : Services H Id Rand Vrf Sig E) (block : BlockImportParams H Id Rand Vrf Sig)

def Services.builder : IsDescendentOfBuilder H E :=
  descendentQuery services.lowestCommonAncestor

/-! ## Equivocations -/

def maxSlotCapacity : ℕ := 1000

def pruningBound : ℕ := 2 * maxSlotCapacity

namespace SlotHeaders

variable (store : SlotHeaders H Id Rand Vrf Sig)

def forget (first last : ℕ) :
    SlotHeaders H Id Rand Vrf Sig :=
  { store with headers := fun slot => if first ≤ slot ∧ slot < last then [] else store.headers slot }

def push (slot : ℕ) (header : Header H Id Rand Vrf Sig)
    (signer : Id) (firstSavedSlot : ℕ) : SlotHeaders H Id Rand Vrf Sig where
  headers := Function.update store.headers slot (store.headers slot ++ [(header, signer)])
  start := some firstSavedSlot

def record (slotNow slot firstSavedSlot : ℕ)
    (header : Header H Id Rand Vrf Sig) (signer : Id) : SlotHeaders H Id Rand Vrf Sig :=
  if pruningBound ≤ slotNow - firstSavedSlot then
    (store.push slot header signer (slotNow - maxSlotCapacity)).forget firstSavedSlot
      (slotNow - maxSlotCapacity)
  else store.push slot header signer firstSavedSlot

/-- Is the header an equivocation? The first header of its author for the slot is the one that
decides. -/
def checkEquivocation [DecidableEq Id] (hash : Header H Id Rand Vrf Sig → H)
    (store : SlotHeaders H Id Rand Vrf Sig) (slotNow slot : ℕ)
    (header : Header H Id Rand Vrf Sig) (signer : Id) :
    Option (EquivocationProof H Id Rand Vrf Sig) × SlotHeaders H Id Rand Vrf Sig :=
  if maxSlotCapacity < slotNow - slot then (none, store)
  else if slotNow < store.start.getD slot then (none, store)
  else
    match (store.headers slot).find? (fun entry => entry.2 = signer) with
    | some (prevHeader, _) =>
      if hash header ≠ hash prevHeader then (some ⟨slot, signer, prevHeader, header⟩, store)
      else (none, store)
    | none => (none, store.record slotNow slot (store.start.getD slot) header signer)

end SlotHeaders

/-- A proof that the offender's key was in use, from the state of the parent or else from that of
the best block. -/
def keyOwnerProof (parentHash bestHash : H) (slot : ℕ)
    (offender : Id) : Except (Error H Id E) (Option (List UInt8)) :=
  match services.generateKeyOwnershipProof parentHash slot offender with
  | .error e => .error (.runtimeApi e)
  | .ok (some proof) => .ok (some proof)
  | .ok none => (services.generateKeyOwnershipProof bestHash slot offender).mapError .runtimeApi

def reportEquivocation (parentHash : H) (slot : ℕ)
    (proof : EquivocationProof H Id Rand Vrf Sig) :
    Program (Error H Id E) (Node H Id Rand Vrf Sig) PUnit := do
  let bestHash ← Program.ofExcept (services.bestChain.mapError .client)
  let owner ← Program.ofExcept (keyOwnerProof services parentHash bestHash slot proof.offender)
  match owner with
  | none => pure ⟨⟩
  | some owner => do
    modify fun node => { node with reports := node.reports ++ [proof] }
    let _ ← Program.ofExcept ((services.submitReport bestHash proof owner).mapError .runtimeApi)

variable [DecidableEq Id]

def checkAndReportEquivocation (services : Services H Id Rand Vrf Sig E) (slotNow slot : ℕ)
    (header : Header H Id Rand Vrf Sig) (author : Id) (origin : BlockOrigin) :
    Program (Error H Id E) (Node H Id Rand Vrf Sig) PUnit := do
  if origin = .networkInitialSync then pure ⟨⟩
  else
    let node ← get
    let checked := node.slotHeaders.checkEquivocation services.hash slotNow slot header author
    modify fun node => { node with slotHeaders := checked.2 }
    match checked.1 with
    | none => pure ⟨⟩
    | some proof => reportEquivocation services header.parentHash slot proof

def blockAuthor [HashBytes H] (services : Services H Id Rand Vrf Sig E)
    (changes : EpochChanges H ℕ (Babe.Epoch Id Rand)) (header : Header H Id Rand Vrf Sig)
    (preDigest : PreDigest Vrf) : Option (Except (ConsensusError H Id E) Id) :=
  match queryEpochChanges changes services.builder services.config header.number preDigest.slot
    header.parentHash with
  | none => none
  | some (.error e) => some (.error (.other (.babe e)))
  | some (.ok (_, viable)) =>
    match viable.epoch.authorities[preDigest.authorityIndex]? with
    | none => some (.error (.other (.babe .slotAuthorNotFound)))
    | some author => some (.ok author.1)

def checkInherents (slot : ℕ) : Except
    (ConsensusError H Id E) Unit :=
  if block.stateAction.skipExecutionChecks then .ok ()
  else
    match block.body with
    | none => .ok ()
    | some body =>
      (services.checkInherents block.header body slot).mapError fun e => .other (.client e)

def checkInherentsAndEquivocations [HashBytes H] (services : Services H Id Rand Vrf Sig E)
    (block : BlockImportParams H Id Rand Vrf Sig) :
    Program (ConsensusError H Id E) (Node H Id Rand Vrf Sig) PUnit := do
  if shouldSkipVerification services.info block then pure ⟨⟩
  else
    let slotNow ← Program.ofExcept (services.slotNow.mapError .inner)
    let preDigest ← Program.ofExcept
      ((findPreDigest block.header).mapError fun e => .other (.babe e))
    Program.ofExcept (checkInherents services block preDigest.slot)
    let node ← get
    let author ← Program.ofOutcome
      (blockAuthor services node.epochChanges block.header preDigest)
    Program.ignoreError
      (checkAndReportEquivocation services slotNow preDigest.slot block.header author block.origin)

/-! ## The import -/

def importInner :
    Program (ConsensusError H Id E) (Node H Id Rand Vrf Sig) ImportResult := do
  modify fun node => { node with handed := node.handed ++ [block] }
  Program.ofExcept ((services.importInner block).mapError .inner)

/-- Import a block with its whole state. The epochs are read from that state. -/
def importState :
    Program (ConsensusError H Id E) (Node H Id Rand Vrf Sig) ImportResult := do
  let hash := block.fullHash services.hash
  let result ← importInner services
    { block with
      forkChoice := some true
      auxiliary := block.auxiliary ++ [.blockWeight hash 0] }
  match result with
  | .imported aux => do
    let current ← Program.ofExcept
      ((services.currentEpoch hash).mapError fun e => .clientImport (.babe (.runtimeApi e)))
    let next ← Program.ofExcept
      ((services.nextEpoch hash).mapError fun e => .clientImport (.babe (.runtimeApi e)))
    let changes ← Program.ofOption
      (EpochChanges.reset block.header.parentHash hash block.header.number current next)
    modify fun node => { node with epochChanges := changes }
    Program.ofExcept
      ((services.insertEpochChanges changes).mapError fun e => .clientImport (.client e))
    pure (.imported aux)
  | result => throw (.error (.clientImport (.unexpectedImportResult result)))

structure Prepared (H Id Rand : Type) where
  slot : ℕ
  parentWeight : ℕ
  totalWeight : ℕ
  epochDescriptor : ViableEpochDescriptor H ℕ
  nextEpochDigest : Option (NextEpochDescriptor Id Rand)
  nextConfigDigest : Option NextConfigDescriptor

def parentWeight (parentHeader : Header H Id Rand Vrf Sig) (parentHash hash : H) :
    Except (ConsensusError H Id E) ℕ :=
  if parentHeader.number = 0 then .ok 0
  else
    match services.loadBlockWeight parentHash with
    | .error e => .error (.clientImport (.client e))
    | .ok none => .error (.clientImport (.babe (.parentBlockNoAssociatedWeight hash)))
    | .ok (some weight) => .ok weight

/-- An epoch is announced by the first block of an epoch, and by no other. -/
def checkAnnouncement (firstInEpoch : Bool) (nextEpoch nextConfig : Bool) (hash : H) (slot : ℕ) :
    Except (ConsensusError H Id E) Unit :=
  match firstInEpoch, nextEpoch, nextConfig with
  | true, true, _ => .ok ()
  | false, false, false => .ok ()
  | false, false, true => .error (.clientImport (.babe .unexpectedConfigChange))
  | true, false, _ => .error (.clientImport (.babe (.expectedEpochChange hash slot)))
  | false, true, _ => .error (.clientImport (.babe .unexpectedEpochChange))

def prepareChecked (preDigest : PreDigest Vrf)
    (parentHeader : Header H Id Rand Vrf Sig) (parentSlot : ℕ) :
    Except (ConsensusError H Id E) (Prepared H Id Rand) := do
  let hash := block.fullHash services.hash
  let slot := preDigest.slot
  if slot ≤ parentSlot then
    .error (.clientImport (.babe (.slotMustIncrease parentSlot slot)))
  else
    let parentWeight ← parentWeight services parentHeader block.header.parentHash hash
    let epochDescriptor ← block.takeIntermediate
    let nextEpochDigest ← (findNextEpochDigest block.header).mapError fun e =>
      .clientImport (.babe e)
    let nextConfigDigest ← (findNextConfigDigest block.header).mapError fun e =>
      .clientImport (.babe e)
    checkAnnouncement (parentSlot < epochDescriptor.startSlot)
      nextEpochDigest.isSome nextConfigDigest.isSome hash slot
    pure ⟨slot, parentWeight, parentWeight + preDigest.addedWeight, epochDescriptor,
      nextEpochDigest, nextConfigDigest⟩

/-- `none` is a panic: the parent was imported, so it has a slot claim. -/
def prepare (preDigest : PreDigest Vrf) :
    Option (Except (ConsensusError H Id E) (Prepared H Id Rand)) :=
  match services.header block.header.parentHash with
  | .error e => some (.error (.chainLookup (.client e)))
  | .ok none =>
    some (.error (.chainLookup (.babe
      (.parentUnavailable block.header.parentHash (block.fullHash services.hash)))))
  | .ok (some parentHeader) =>
    match (findPreDigest parentHeader : Except (Error H Id E) _) with
    | .error _ => none
    | .ok parentDigest =>
      some (prepareChecked services block preDigest parentHeader parentDigest.slot)

def finalizedSlot :
    Option (Except (ConsensusError H Id E) ℕ) :=
  match services.header services.info.finalizedHash with
  | .error e => some (.error (.clientImport (.client e)))
  | .ok none => none
  | .ok (some finalizedHeader) =>
    match (findPreDigest finalizedHeader : Except (Error H Id E) _) with
    | .error _ => none
    | .ok digest => some (.ok digest.slot)

def pruneFinalized :
    Program (ConsensusError H Id E) (Node H Id Rand Vrf Sig) PUnit := do
  let slot ← Program.ofOutcome (finalizedSlot services)
  let node ← get
  let changes ← Program.ofOutcome
    ((node.epochChanges.pruneFinalized services.builder services.info.finalizedHash
      services.info.finalizedNumber slot).map
        fun result => result.mapError fun e => .clientImport (.babe (.forkTree e)))
  modify fun node => { node with epochChanges := changes }

def pruneAndImport (hash : H) (number : ℕ)
    (parentHash : H) (nextEpoch : PersistedEpoch (Babe.Epoch Id Rand)) :
    Program (ConsensusError H Id E) (Node H Id Rand Vrf Sig) PUnit := do
  pruneFinalized services
  let node ← get
  let changes ← Program.ofOutcome
    ((node.epochChanges.importEpoch services.builder hash number parentHash nextEpoch).map
      fun result => result.mapError fun e => .clientImport (.importingEpochChanges e))
  modify fun node => { node with epochChanges := changes }

/-- The entry for the announced epoch, which follows the epochs that were skipped. -/
def nextEpochEntry (changes : EpochChanges H ℕ (Babe.Epoch Id Rand)) (parentHash : H)
    (prepared : Prepared H Id Rand) (next : NextEpochDescriptor Id Rand) :
    Option (Except (ConsensusError H Id E) (PersistedEpoch (Babe.Epoch Id Rand))) :=
  match changes.viableEpoch prepared.epochDescriptor (genesisEpoch services.config) with
  | none => some (.error (.clientImport (.babe (.fetchEpoch parentHash))))
  | some viable =>
    let config := (prepared.nextConfigDigest.map NextConfigDescriptor.toConfiguration).getD
      viable.epoch.config
    let viable :=
      if Epochs.Epoch.endSlot viable.epoch ≤ prepared.slot then
        viable.modify (fun epoch => cloneForSlot epoch prepared.slot)
      else some viable
    viable.map fun viable => .ok (increment viable next config)

/-- The shared epoch changes, with the old ones, which come back when this fails. -/
def launchEpoch (prepared : Prepared H Id Rand)
    (next : NextEpochDescriptor Id Rand) :
    Program (ConsensusError H Id E) (Node H Id Rand Vrf Sig)
      (EpochChanges H ℕ (Babe.Epoch Id Rand) × AuxEntry H Id Rand) := do
  let node ← get
  let oldEpochChanges := node.epochChanges
  let nextEpoch ← Program.ofOutcome
    (nextEpochEntry services oldEpochChanges block.header.parentHash prepared next)
  Program.onError
    (pruneAndImport services (block.fullHash services.hash) block.header.number
      block.header.parentHash nextEpoch)
    fun e => do
      modify fun node => { node with epochChanges := oldEpochChanges }
      throw (.error e)
  let node ← get
  pure (oldEpochChanges, .epochChanges node.epochChanges)

def lastBestWeight (parentHash : H) (parentWeight : ℕ) :
    Except (ConsensusError H Id E) ℕ :=
  if services.info.bestHash = parentHash then .ok parentWeight
  else
    match services.loadBlockWeight services.info.bestHash with
    | .error e => .error (.chainLookup (.client e))
    | .ok none => .error (.chainLookup (.text "No block weight for parent header."))
    | .ok (some weight) => .ok weight

def isBest (info : Info H) (totalWeight lastBestWeight number : ℕ) : Bool :=
  if totalWeight > lastBestWeight then true
  else if totalWeight = lastBestWeight then number > info.bestNumber
  else false

def finished (prepared : Prepared H Id Rand)
    (entries : List (AuxEntry H Id Rand)) (lastBestWeight : ℕ) :
    BlockImportParams H Id Rand Vrf Sig :=
  let weight := AuxEntry.blockWeight (block.fullHash services.hash) prepared.totalWeight
  { block.withoutIntermediate with
    auxiliary := block.auxiliary ++ (entries ++ [weight])
    forkChoice :=
      some (isBest services.info prepared.totalWeight lastBestWeight block.header.number) }

/-- An error of the inner import brings back the old epoch changes. -/
def importPrepared (prepared : Prepared H Id Rand)
    (launched : Option (EpochChanges H ℕ (Babe.Epoch Id Rand) × AuxEntry H Id Rand)) :
    Program (ConsensusError H Id E) (Node H Id Rand Vrf Sig) ImportResult := do
  let entries := launched.toList.map Prod.snd
  let lastBestWeight ← Program.ofExcept
    (lastBestWeight services block.header.parentHash prepared.parentWeight)
  Program.onError
    (importInner services (finished services block prepared entries lastBestWeight))
    fun e => do
      modify fun node =>
        { node with epochChanges := (launched.map Prod.fst).getD node.epochChanges }
      throw (.error e)

def importVerified (preDigest : PreDigest Vrf) :
    Program (ConsensusError H Id E) (Node H Id Rand Vrf Sig) ImportResult := do
  let prepared ← Program.ofOutcome (prepare services block preDigest)
  match prepared.nextEpochDigest with
  | none => importPrepared services block prepared none
  | some next => do
    let launched ← launchEpoch services block prepared next
    importPrepared services block prepared (some launched)

def importChecked :
    Program (ConsensusError H Id E) (Node H Id Rand Vrf Sig) ImportResult := do
  let status ← Program.ofExcept
    ((services.status (block.fullHash services.hash)).mapError fun e => .clientImport (.client e))
  if inGap services.info block.header.number || status = .inChain then
    -- a block that is in the chain, or below a gap, has no part in the epoch changes
    importInner services { block.withoutIntermediate with forkChoice := some false }
  else if block.withState then importState services block
  else
    match (findPreDigest block.header : Except (Error H Id E) _) with
    | .error _ => throw .panic
    | .ok preDigest =>
      if block.origin = .warpSync then
        importInner services { block with forkChoice := some false }
      else importVerified services block preDigest

def importBlock [HashBytes H] (services : Services H Id Rand Vrf Sig E)
    (block : BlockImportParams H Id Rand Vrf Sig) :
    Program (ConsensusError H Id E) (Node H Id Rand Vrf Sig) ImportResult := do
  checkInherentsAndEquivocations services block
  importChecked services block

end PolkadotSdk.Babe.Client
