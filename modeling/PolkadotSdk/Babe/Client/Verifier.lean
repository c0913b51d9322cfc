import PolkadotSdk.Babe.Client.BlockImport

/-! # Verifying a header

A header that comes from another node ends in a seal, the signature of its author over the
header without it. The verifier takes the seal off and passes it on beside the header. A block
of one's own is handed to the import in the same form. The signatures and the random numbers
are a parameter.
-/

namespace PolkadotSdk.Babe.Client

open Epochs

structure Crypto (H Id Rand Vrf Sig : Type) where
  verify : Sig → H → Id → Bool
  vrfVerify : Id → Rand → (slot epochIndex : ℕ) → Vrf → Bool
  /-- The number that decides whether a slot is won. -/
  score : Id → Rand → (slot epochIndex : ℕ) → Vrf → Option ℕ
  calculatePrimaryThreshold : (c : ℕ × ℕ) → List (Id × ℕ) → (authorityIndex : ℕ) → ℕ
  /-- The hash of the randomness and the slot, as a number. -/
  blake2256 : Rand → (slot : ℕ) → ℕ

inductive CheckedHeader (H Id Rand Vrf Sig : Type) where
  | deferred (header : Header H Id Rand Vrf Sig) (slot : ℕ)
  | checked (preHeader : Header H Id Rand Vrf Sig) (sealItem : DigestItem Id Rand Vrf Sig)

variable {H Id Rand Vrf Sig E : Type}

def Header.popped (header : Header H Id Rand Vrf Sig) : Header H Id Rand Vrf Sig :=
  { header with digest := header.digest.dropLast }

def secondarySlotAuthor (crypto : Crypto H Id Rand Vrf Sig) (slot : ℕ)
    (authorities : List (Id × ℕ)) (randomness : Rand) : Option Id :=
  if authorities.isEmpty then none
  else
    (authorities[crypto.blake2256 randomness slot % authorities.length]?).map Prod.fst

/-- The index of the epoch that the slot falls into. `none` is a panic. -/
def epochIndexAt (epoch : Babe.Epoch Id Rand) (slot : ℕ) : Option ℕ :=
  if Epochs.Epoch.endSlot epoch ≤ slot then (cloneForSlot epoch slot).map (·.epochIndex)
  else some epoch.epochIndex

def checkPrimaryHeader (crypto : Crypto H Id Rand Vrf Sig) (preHash : H)
    (preDigest : PrimaryPreDigest Vrf) (signature : Sig) (epoch : Babe.Epoch Id Rand) :
    Option (Except (Error H Id E) Unit) :=
  match epoch.authorities[preDigest.authorityIndex]? with
  | none => some (.error .slotAuthorNotFound)
  | some (authorityId, _) =>
    (epochIndexAt epoch preDigest.slot).map fun epochIndex =>
      if !crypto.verify signature preHash authorityId then .error (.badSignature preHash)
      else if !crypto.vrfVerify authorityId epoch.randomness preDigest.slot epochIndex
          preDigest.vrfSignature then
        .error .vrfVerificationFailed
      else
        let threshold := crypto.calculatePrimaryThreshold epoch.config.c epoch.authorities
          preDigest.authorityIndex
        match crypto.score authorityId epoch.randomness preDigest.slot epochIndex
          preDigest.vrfSignature with
        | none => .error .vrfVerificationFailed
        | some score =>
          if score ≥ threshold then .error (.vrfThresholdExceeded threshold) else .ok ()

def secondaryAuthor [DecidableEq Id] (crypto : Crypto H Id Rand Vrf Sig) (slot authorityIndex : ℕ)
    (epoch : Babe.Epoch Id Rand) : Except (Error H Id E) Id :=
  match secondarySlotAuthor crypto slot epoch.authorities epoch.randomness with
  | none => .error .noSecondaryAuthorExpected
  | some expectedAuthor =>
    match epoch.authorities[authorityIndex]? with
    | none => .error .slotAuthorNotFound
    | some (author, _) =>
      if expectedAuthor ≠ author then .error (.invalidAuthor expectedAuthor author)
      else .ok author

def checkSecondaryPlainHeader [DecidableEq Id] (crypto : Crypto H Id Rand Vrf Sig) (preHash : H)
    (preDigest : SecondaryPlainPreDigest) (signature : Sig) (epoch : Babe.Epoch Id Rand) :
    Except (Error H Id E) Unit := do
  let author ← secondaryAuthor crypto preDigest.slot preDigest.authorityIndex epoch
  if !crypto.verify signature preHash author then .error (.badSignature preHash) else .ok ()

def checkSecondaryVRFHeader [DecidableEq Id] (crypto : Crypto H Id Rand Vrf Sig) (preHash : H)
    (preDigest : SecondaryVRFPreDigest Vrf) (signature : Sig) (epoch : Babe.Epoch Id Rand) :
    Option (Except (Error H Id E) Unit) :=
  match (secondaryAuthor crypto preDigest.slot preDigest.authorityIndex epoch :
    Except (Error H Id E) Id) with
  | .error e => some (.error e)
  | .ok author =>
    (epochIndexAt epoch preDigest.slot).map fun epochIndex =>
      if !crypto.verify signature preHash author then .error (.badSignature preHash)
      else if !crypto.vrfVerify author epoch.randomness preDigest.slot epochIndex
          preDigest.vrfSignature then
        .error .vrfVerificationFailed
      else .ok ()

/-- Does the author of the slot claim sign for it, and is the slot theirs? -/
def checkClaim [DecidableEq Id] (crypto : Crypto H Id Rand Vrf Sig) (preHash : H)
    (preDigest : PreDigest Vrf) (signature : Sig) (epoch : Babe.Epoch Id Rand) :
    Option (Except (Error H Id E) Unit) :=
  match preDigest with
  | .primary primary => checkPrimaryHeader crypto preHash primary signature epoch
  | .secondaryPlain secondary =>
    if epoch.config.allowedSlots = .primaryAndSecondaryPlainSlots then
      some (checkSecondaryPlainHeader crypto preHash secondary signature epoch)
    else some (.error .secondarySlotAssignmentsDisabled)
  | .secondaryVRF secondary =>
    if epoch.config.allowedSlots = .primaryAndSecondaryVRFSlots then
      checkSecondaryVRFHeader crypto preHash secondary signature epoch
    else some (.error .secondarySlotAssignmentsDisabled)

def checkHeader [DecidableEq Id] (crypto : Crypto H Id Rand Vrf Sig)
    (hash : Header H Id Rand Vrf Sig → H) (header : Header H Id Rand Vrf Sig)
    (preDigest : PreDigest Vrf) (slotNow : ℕ) (epoch : Babe.Epoch Id Rand) :
    Option (Except (Error H Id E) (CheckedHeader H Id Rand Vrf Sig)) :=
  match header.digest.getLast? with
  | none => some (.error (.headerUnsealed (hash header)))
  | some item =>
    match item.asBabeSeal with
    | none => some (.error (.headerBadSeal (hash header.popped)))
    | some signature =>
      if preDigest.slot > slotNow then some (.ok (.deferred header preDigest.slot))
      else
        (checkClaim crypto (hash header.popped) preDigest signature epoch).map fun result =>
          result.map fun _ => .checked header.popped item

variable [LinearOrder H]

/-- One slot of drift is allowed for. `none` is a panic. -/
def verify [DecidableEq Id] [HashBytes H] (crypto : Crypto H Id Rand Vrf Sig)
    (services : Services H Id Rand Vrf Sig E) (changes : EpochChanges H ℕ (Babe.Epoch Id Rand))
    (slotNow : ℕ) (block : BlockImportParams H Id Rand Vrf Sig) :
    Option (Except (Error H Id E) (BlockImportParams H Id Rand Vrf Sig)) :=
  if shouldSkipVerification services.info block then some (.ok block)
  else
    match (findPreDigest block.header : Except (Error H Id E) _) with
    | .error e => some (.error e)
    | .ok preDigest =>
      match queryEpochChanges changes services.builder services.config block.header.number
        preDigest.slot block.header.parentHash with
      | none => none
      | some (.error e) => some (.error e)
      | some (.ok (descriptor, viable)) =>
        match (checkHeader crypto services.hash block.header preDigest (slotNow + 1)
          viable.epoch : Option (Except (Error H Id E) _)) with
        | none => none
        | some (.error e) => some (.error e)
        | some (.ok (.deferred _ _)) =>
          some (.error (.tooFarInFuture (services.hash block.header)))
        | some (.ok (.checked preHeader sealItem)) =>
          some (.ok { block with
            header := preHeader
            postDigests := block.postDigests ++ [sealItem]
            intermediate := some (some descriptor)
            postHash := some (services.hash block.header) })

def blockImportParams (header : Header H Id Rand Vrf Sig) (signature : Sig)
    (body : List (List UInt8)) (descriptor : ViableEpochDescriptor H ℕ) :
    BlockImportParams H Id Rand Vrf Sig where
  origin := .own
  header := header
  postDigests := [.seal signature]
  body := some body
  stateAction := .applyChanges .changes
  intermediate := some (some descriptor)
  auxiliary := []
  forkChoice := none
  postHash := none

/-! ## What the verifier passes on -/

structure Sealed (header : Header H Id Rand Vrf Sig) (preDigest : PreDigest Vrf) (signature : Sig) :
    Prop where
  number : header.number ≠ 0
  digest : header.digest = header.popped.digest ++ [.seal signature]
  found : header.popped.digest.findSome? DigestItem.asBabePreDigest = some preDigest
  only : (findPreDigest header.popped : Except (Error H Id E) _) = .ok preDigest

omit [LinearOrder H] in
theorem asBabeSeal_eq_some {item : DigestItem Id Rand Vrf Sig} {signature : Sig}
    (h : item.asBabeSeal = some signature) : item = .seal signature := by
  unfold DigestItem.asBabeSeal at h
  split at h
  · cases h
    rfl
  · cases h

omit [LinearOrder H] in
theorem sealed_of_findPreDigest {header : Header H Id Rand Vrf Sig} {preDigest : PreDigest Vrf}
    {signature : Sig} (hnumber : header.number ≠ 0)
    (hdigest : header.digest.getLast? = some (.seal signature))
    (hfound : (findPreDigest header : Except (Error H Id E) _) = .ok preDigest) :
    Sealed (E := E) header preDigest signature := by
  have hsplit : header.digest = header.popped.digest ++ [.seal signature] :=
    (List.dropLast_append_getLast? _ hdigest).symm
  have hpopped : (findPreDigest header.popped : Except (Error H Id E) _) = .ok preDigest := by
    unfold findPreDigest at hfound ⊢
    rw [if_neg hnumber, hsplit, findOnly_append_none _ rfl] at hfound
    rw [if_neg (show header.popped.number ≠ 0 from hnumber)]
    exact hfound
  refine ⟨hnumber, hsplit, ?_, hpopped⟩
  unfold findPreDigest at hpopped
  rw [if_neg (show header.popped.number ≠ 0 from hnumber)] at hpopped
  split at hpopped
  · cases hpopped
  · cases hpopped
  · next hfind =>
      cases hpopped
      exact (findOnly_eq_findSome hfind).symm

variable {crypto : Crypto H Id Rand Vrf Sig}

omit [LinearOrder H] in
theorem checkHeader_checked [DecidableEq Id] {hash : Header H Id Rand Vrf Sig → H}
    {header preHeader : Header H Id Rand Vrf Sig} {preDigest : PreDigest Vrf} {slotNow : ℕ}
    {epoch : Babe.Epoch Id Rand} {item : DigestItem Id Rand Vrf Sig}
    (h : (checkHeader crypto hash header preDigest slotNow epoch :
      Option (Except (Error H Id E) _)) = some (.ok (.checked preHeader item))) :
    preHeader = header.popped ∧ ∃ signature, header.digest.getLast? = some (.seal signature) := by
  unfold checkHeader at h
  split at h
  · cases h
  · next last hlast =>
      split at h
      · cases h
      · next signature hsig =>
          split at h
          · cases h
          · obtain ⟨result, -, hresult⟩ := Option.map_eq_some_iff.mp h
            cases result with
            | error e => cases hresult
            | ok u =>
              cases hresult
              exact ⟨rfl, signature, by rw [hlast, asBabeSeal_eq_some hsig]⟩

theorem verify_accepts [DecidableEq Id] [HashBytes H] {services : Services H Id Rand Vrf Sig E}
    {changes : EpochChanges H ℕ (Babe.Epoch Id Rand)} {slotNow : ℕ}
    {block verified : BlockImportParams H Id Rand Vrf Sig}
    (hskip : shouldSkipVerification services.info block = false)
    (h : verify crypto services changes slotNow block = some (.ok verified)) :
    verified.header = block.header.popped ∧
      ∃ preDigest signature, Sealed (E := E) block.header preDigest signature := by
  unfold verify at h
  rw [hskip, if_neg (by simp)] at h
  split at h
  · cases h
  · next preDigest hfound =>
      have hnumber : block.header.number ≠ 0 := by
        intro hzero
        unfold queryEpochChanges at h
        rw [if_pos hzero] at h
        cases h
      split at h
      · cases h
      · cases h
      · split at h
        · cases h
        · cases h
        · cases h
        · next hchecked =>
            cases h
            obtain ⟨hpre, signature, hlast⟩ := checkHeader_checked hchecked
            exact ⟨hpre, preDigest, signature, sealed_of_findPreDigest hnumber hlast hfound⟩

/-- A block as the import is given it: received and verified, or authored by the node. -/
inductive Presented [DecidableEq Id] [HashBytes H] (crypto : Crypto H Id Rand Vrf Sig) (E : Type)
    (header : Header H Id Rand Vrf Sig) : BlockImportParams H Id Rand Vrf Sig → Prop
  | received {services : Services H Id Rand Vrf Sig E}
      {changes : EpochChanges H ℕ (Babe.Epoch Id Rand)} {slotNow : ℕ}
      {block verified : BlockImportParams H Id Rand Vrf Sig} (hheader : block.header = header)
      (hskip : shouldSkipVerification services.info block = false)
      (hverify : verify crypto services changes slotNow block = some (.ok verified)) :
      Presented crypto E header verified
  | authored {services : Services H Id Rand Vrf Sig E}
      {changes : EpochChanges H ℕ (Babe.Epoch Id Rand)} {slotNow : ℕ}
      {block verified : BlockImportParams H Id Rand Vrf Sig} (hheader : block.header = header)
      (hskip : shouldSkipVerification services.info block = false)
      (hverify : verify crypto services changes slotNow block = some (.ok verified))
      {preHeader : Header H Id Rand Vrf Sig} {signature : Sig}
      (hseal : header = { preHeader with digest := preHeader.digest ++ [.seal signature] })
      (body : List (List UInt8)) (descriptor : ViableEpochDescriptor H ℕ) :
      Presented crypto E header (blockImportParams preHeader signature body descriptor)

theorem Presented.sealed [DecidableEq Id] [HashBytes H] {header : Header H Id Rand Vrf Sig}
    {block : BlockImportParams H Id Rand Vrf Sig} (h : Presented crypto E header block) :
    block.header = header.popped ∧
      ∃ preDigest signature, Sealed (E := E) header preDigest signature := by
  cases h with
  | received hheader hskip hverify =>
    subst hheader
    exact verify_accepts hskip hverify
  | authored hheader hskip hverify hseal body descriptor =>
    subst hheader
    obtain ⟨-, hsealed⟩ := verify_accepts hskip hverify
    refine ⟨?_, hsealed⟩
    rw [hseal]
    simp [blockImportParams, Header.popped]

end PolkadotSdk.Babe.Client
