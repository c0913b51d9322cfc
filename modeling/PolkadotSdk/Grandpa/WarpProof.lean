import PolkadotSdk.Blockchain.HeaderTree
import PolkadotSdk.Grandpa.SetChanges
import PolkadotSdk.Lib.Program

/-! # Warp sync proofs

A warp sync proof leads from one authority set to the next: each fragment is the last block of a
set, justified by that set, with the digest that signals the next authorities. A proof ends
where its size reaches the limit; the last one ends with the best justification that is known.
-/

namespace PolkadotSdk.Grandpa

/-! ## Digests -/

structure ScheduledChange (A : Type) where
  nextAuthorities : AuthorityList A
  delay : Nat
  deriving DecidableEq, Repr

inductive ConsensusLog (A : Type) where
  | scheduledChange (change : ScheduledChange A)
  | forcedChange (medianLastFinalized : Nat) (change : ScheduledChange A)
  | onDisabled (index : Nat)
  | pause (delay : Nat)
  | resume (delay : Nat)
  deriving DecidableEq, Repr

structure DigestHeader (H A : Type) extends Blockchain.Header H where
  digest : List (ConsensusLog A)
  deriving DecidableEq, Repr

variable {H A J : Type}

def findScheduledChange (header : DigestHeader H A) : Option (ScheduledChange A) :=
  header.digest.findSome? fun log =>
    match log with
    | .scheduledChange change => some change
    | _ => none

/-! ## Model -/

structure WarpSyncFragment (H A J : Type) where
  header : DigestHeader H A
  justification : J

structure WarpSyncProof (H A J : Type) where
  proofs : List (WarpSyncFragment H A J)
  isFinished : Bool

inductive WarpError where
  | invalidRequest (message : String)
  | invalidProof (message : String)
  | missingData
  | emptyProof
  deriving DecidableEq, Repr

structure JustificationScheme (H A J : Type) where
  target : J → Nat × H
  verify : J → Nat → AuthorityList A → Except String Unit
  encodedSize : WarpSyncFragment H A J → Nat

structure WarpBackend (H A J : Type) where
  blockNumber : H → Option Nat
  finalizedNumber : Nat
  hash : Nat → Option H
  header : H → Option (DigestHeader H A)
  justification : H → Option J
  bestJustification : Option J

def maxWarpSyncProofSize : Nat := 8 * 1024 * 1024

structure Collected (H A J : Type) where
  proofs : List (WarpSyncFragment H A J)
  encodedLen : Nat
  limitReached : Bool

section Generate

variable (scheme : JustificationScheme H A J) (backend : WarpBackend H A J)

def collectProofs : AuthoritySetChanges → List (WarpSyncFragment H A J) → Nat →
    Except (Fault WarpError) (Collected H A J)
  | [], proofs, encodedLen => .ok ⟨proofs, encodedLen, false⟩
  | (_, lastBlock) :: rest, proofs, encodedLen =>
    match backend.hash lastBlock with
    | none => .error .panic
    | some hash =>
      match backend.header hash with
      | none => .error .panic
      | some header =>
        match findScheduledChange header with
        | none => .ok ⟨proofs, encodedLen, false⟩
        | some _ =>
          match backend.justification header.hash with
          | none => .error (.error .missingData)
          | some justification =>
            let proof := ⟨header, justification⟩
            let size := scheme.encodedSize proof
            if maxWarpSyncProofSize - 50 ≤ encodedLen + size then
              .ok ⟨proofs, encodedLen, true⟩
            else collectProofs rest (proofs ++ [proof]) (encodedLen + size)

def justificationLimit (beginNumber : Nat) (proofs : List (WarpSyncFragment H A J)) : Nat :=
  match proofs.getLast? with
  | some proof => (scheme.target proof.justification).1 + 1
  | none => beginNumber

def addJustification (beginNumber : Nat) (collected : Collected H A J) :
    Except (Fault WarpError) (WarpSyncProof H A J) :=
  if collected.limitReached then .ok ⟨collected.proofs, false⟩
  else
    let limit := justificationLimit scheme beginNumber collected.proofs
    match backend.bestJustification.filter fun justification =>
        decide (limit ≤ (scheme.target justification).1) with
    | none => .ok ⟨collected.proofs, true⟩
    | some justification =>
      match backend.header (scheme.target justification).2 with
      | none => .error .panic
      | some header =>
        let proof := ⟨header, justification⟩
        if maxWarpSyncProofSize - 50 ≤ collected.encodedLen + scheme.encodedSize proof then
          .ok ⟨collected.proofs, false⟩
        else .ok ⟨collected.proofs ++ [proof], true⟩

def generate [DecidableEq H] (search : BinarySearch Nat) (setChanges : AuthoritySetChanges)
    (start : H) : Except (Fault WarpError) (WarpSyncProof H A J) :=
  match backend.blockNumber start with
  | none => .error (.error (.invalidRequest "Missing start block"))
  | some beginNumber =>
    if backend.finalizedNumber < beginNumber then
      .error (.error (.invalidRequest "Start block is not finalized"))
    else
      match backend.hash beginNumber with
      | none => .error .panic
      | some canonHash =>
        if canonHash ≠ start then
          .error (.error (.invalidRequest "Start block is not in the finalized chain"))
        else
          match setChanges.iterFrom search beginNumber with
          | none => .error (.error .missingData)
          | some setChanges => do
            let collected ← collectProofs scheme backend setChanges [] 0
            addJustification scheme backend beginNumber collected

end Generate

section Verify

variable [DecidableEq H] (scheme : JustificationScheme H A J)
  (hardForks : H × Nat → Option (Nat × AuthorityList A))

/-- The set after one fragment; `last` is the last fragment of the last proof. -/
def verifyFragment (last : Bool) (proof : WarpSyncFragment H A J)
    (current : Nat × AuthorityList A) : Except (Fault WarpError) (Nat × AuthorityList A) :=
  match hardForks (proof.header.hash, proof.header.number) with
  | some forked => .ok forked
  | none =>
    match scheme.verify proof.justification current.1 current.2 with
    | .error message => .error (.error (.invalidProof message))
    | .ok () =>
      if (scheme.target proof.justification).2 ≠ proof.header.hash then
        .error (.error (.invalidProof "Mismatch between header and justification"))
      else
        match findScheduledChange proof.header with
        | some change => .ok (current.1 + 1, change.nextAuthorities)
        | none =>
          if last then .ok current
          else .error (.error
            (.invalidProof "Header is missing authority set change digest"))

def verifyFragments (isFinished : Bool) : List (WarpSyncFragment H A J) →
    Nat × AuthorityList A → Except (Fault WarpError) (Nat × AuthorityList A)
  | [], current => .ok current
  | proof :: rest, current => do
    let next ← verifyFragment scheme hardForks (rest.isEmpty && isFinished) proof current
    verifyFragments isFinished rest next

structure GrandpaVerifier (H A : Type) where
  setId : Nat
  authorities : AuthorityList A
  nextProofContext : H
  erasSynced : Nat

inductive VerificationResult (H A J : Type) where
  | complete (header : DigestHeader H A) (justifications : List (DigestHeader H A × J))
  | incomplete (justifications : List (DigestHeader H A × J))

def GrandpaVerifier.verify (verifier : GrandpaVerifier H A) (proof : WarpSyncProof H A J) :
    Except (Fault WarpError) (GrandpaVerifier H A × VerificationResult H A J) :=
  match proof.proofs.getLast? with
  | none => .error (.error .emptyProof)
  | some last => do
    let (setId, authorities) ← verifyFragments scheme hardForks proof.isFinished proof.proofs
      (verifier.setId, verifier.authorities)
    let verifier := ⟨setId, authorities, last.header.hash,
      verifier.erasSynced + proof.proofs.length⟩
    let justifications := proof.proofs.map fun p => (p.header, p.justification)
    .ok (verifier, if proof.isFinished then .complete last.header justifications
      else .incomplete justifications)

/-- Ask for proofs and verify them until one is complete, in at most so many rounds. The header
is the last one verified. -/
def warpSync (backend : WarpBackend H A J) (search : BinarySearch Nat)
    (setChanges : AuthoritySetChanges) :
    Nat → GrandpaVerifier H A → Except (Fault WarpError) (GrandpaVerifier H A × DigestHeader H A)
  | 0, _ => .error .diverge
  | rounds + 1, verifier => do
    let proof ← generate scheme backend search setChanges verifier.nextProofContext
    match ← verifier.verify scheme hardForks proof with
    | (verifier, .complete header _) => .ok (verifier, header)
    | (verifier, .incomplete _) => warpSync backend search setChanges rounds verifier

end Verify

end PolkadotSdk.Grandpa
