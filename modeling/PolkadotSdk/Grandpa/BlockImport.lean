import PolkadotSdk.Grandpa.WarpProof

/-! # Block import

A block may announce a change of the authority set or make one due. The set is changed in place
before the block is written, under a lock, and a guard keeps the set from before: it is put back
unless the block is imported. The changed set is written with the block. A block that comes with
its state resets the set to the one in the state. The lock keeps other users out until the block
is written, so a call is one step; `none` is a panic.
-/

namespace PolkadotSdk.Grandpa

variable {H A E J : Type}

/-! ## Blocks and the client -/

def findForcedChange (header : DigestHeader H A) : Option (Nat × ScheduledChange A) :=
  header.digest.findSome? fun log =>
    match log with
    | .forcedChange medianLastFinalized change => some (medianLastFinalized, change)
    | _ => none

structure NewAuthoritySet (H A : Type) where
  canonNumber : Nat
  canonHash : H
  setId : Nat
  authorities : AuthorityList A
  deriving DecidableEq, Repr

inductive AuxWrite (H A : Type) where
  | authoritySet (set : AuthoritySet H A)
  | setState (setId : Nat) (set : AuthoritySet H A) (base : H × Nat)

inductive BlockOrigin where
  | warpSync
  | networkInitialSync
  | other
  deriving DecidableEq, Repr

def grandpaEngineId : String := "FRNK"

structure BlockImportParams (H A J : Type) where
  header : DigestHeader H A
  postHash : H
  origin : BlockOrigin
  withState : Bool
  finalized : Bool
  justifications : Option (List (String × J))
  auxiliary : List (AuxWrite H A)

structure ImportedAux where
  clearJustificationRequests : Bool
  needsJustification : Bool
  badJustification : Bool
  deriving DecidableEq, Repr

inductive ImportResult where
  | imported (aux : ImportedAux)
  | alreadyInChain
  | knownBad
  | unknownParent
  | missingState
  deriving DecidableEq, Repr

inductive BlockStatus where
  | inChain
  | unknown
  deriving DecidableEq, Repr

inductive ImportError (E : Type) where
  | client (error : E)
  | authoritySet (error : Error E)
  | setIdConflict (setId : Nat)
  | message (text : String)
  deriving DecidableEq, Repr

inductive VoterCommand (H A : Type) where
  | pause (reason : String)
  | changeAuthorities (new : NewAuthoritySet H A)
  deriving DecidableEq, Repr

/-- The client's answers during the import. `importJustification` gives the set that it leaves. -/
structure Client (H A E J : Type) where
  status : H → Except E BlockStatus
  finalizedNumber : Nat
  hash : Nat → Except E (Option H)
  isDescendentOf : Option (H × H) → H → H → Except E Bool
  importBlock : BlockImportParams H A J → Except E ImportResult
  grandpaAuthorities : H → Except E (AuthorityList A)
  currentSetId : H → Except E Nat
  insertAux : List (AuxWrite H A) → Except E Unit
  shouldProcessJustification : Nat → Bool → Bool
  importJustification : AuthoritySet H A → H → Nat → J → Bool →
    Option (AuthoritySet H A × Except E Unit)

structure GrandpaBlockImport (H A : Type) where
  authoritySet : AuthoritySet H A
  authoritySetHardForks : H → Option (PendingChange H A)
  voterCommands : List (VoterCommand H A)

/-! ## The guards -/

structure InnerGuard (H A : Type) where
  old : Option (AuthoritySet H A)
  guard : AuthoritySet H A

namespace InnerGuard

def setOld (g : InnerGuard H A) (old : AuthoritySet H A) : InnerGuard H A :=
  match g.old with
  | none => { g with old := some old }
  | some _ => g

def drop (g : InnerGuard H A) : AuthoritySet H A := g.old.getD g.guard

def consume (g : InnerGuard H A) : Option (AuthoritySet H A × AuthoritySet H A) :=
  g.old.map fun old => (old, g.guard)

end InnerGuard

inductive AppliedChanges (H A : Type) where
  | standard (root : Bool)
  | forced (new : NewAuthoritySet H A)
  | none
  deriving DecidableEq, Repr

namespace AppliedChanges

def needsJustification : AppliedChanges H A → Bool
  | .standard _ => true
  | .forced _ => false
  | .none => false

def forced? : AppliedChanges H A → Option (NewAuthoritySet H A)
  | .forced new => some new
  | _ => Option.none

end AppliedChanges

structure PendingSetChanges (H A : Type) where
  justInCase : Option (AuthoritySet H A)
  appliedChanges : AppliedChanges H A
  doPause : Bool

def PendingSetChanges.revert (pending : PendingSetChanges H A) (set : AuthoritySet H A) :
    AuthoritySet H A :=
  pending.justInCase.getD set

def updateAuthoritySet (set : AuthoritySet H A) :
    Option (NewAuthoritySet H A) → List (AuxWrite H A)
  | some new => [.authoritySet set, .setState new.setId set (new.canonHash, new.canonNumber)]
  | none => [.authoritySet set]

def AuthoritySet.new (authorities : AuthorityList A) (setId : Nat) : Option (AuthoritySet H A) :=
  if invalidAuthorityList authorities then none else some ⟨authorities, setId, .new, [], []⟩

/-! ## Import -/

structure ImportOutcome (H A E : Type) where
  importer : GrandpaBlockImport H A
  auxiliary : List (AuxWrite H A)
  result : Except (ImportError E) ImportResult

namespace GrandpaBlockImport

section

variable [DecidableEq H] (client : Client H A E J) (search : BinarySearch Nat)
variable (searchForced : BinarySearch (Nat ×ₗ Nat))
-- what a failed addition leaves of the set
variable (spoiled : AuthoritySet H A → PendingChange H A → AuthoritySet H A)

omit [DecidableEq H] in
def checkNewChange (s : GrandpaBlockImport H A) (block : BlockImportParams H A J) :
    Option (PendingChange H A) :=
  match s.authoritySetHardForks block.postHash with
  | some change => some change
  | none =>
    match findForcedChange block.header with
    | some (medianLastFinalized, change) =>
      some ⟨change.nextAuthorities, change.delay, block.header.number, block.postHash,
        .best medianLastFinalized⟩
    | none =>
      (findScheduledChange block.header).map fun change =>
        ⟨change.nextAuthorities, change.delay, block.header.number, block.postHash, .finalized⟩

def addNewChange (block : BlockImportParams H A J) (g : InnerGuard H A) :
    Option (PendingChange H A) → Option (InnerGuard H A × Except (ImportError E) Bool)
  | none => some (g, .ok false)
  | some change =>
    let g := g.setOld g.guard
    let doPause := match change.delayKind with
      | .best _ => true
      | .finalized => false
    match g.guard.addPendingChange
        (client.isDescendentOf (some (block.postHash, block.header.parentHash))) searchForced
        change with
    | none => none
    | some (.error error) =>
      some ({ g with guard := spoiled g.guard change }, .error (.authoritySet error))
    | some (.ok set) => some ({ g with guard := set }, .ok doPause)

def applyChanges (block : BlockImportParams H A J) (g : InnerGuard H A) :
    Option (InnerGuard H A × Except (ImportError E) (AppliedChanges H A)) :=
  let isDescendentOf := client.isDescendentOf (some (block.postHash, block.header.parentHash))
  match g.guard.applyForcedChanges isDescendentOf block.postHash block.header.number with
  | none => none
  | some (.error error) => some (g, .error (.authoritySet error))
  | some (.ok (some (medianLastFinalized, newSet))) =>
    let canonNumber := min client.finalizedNumber medianLastFinalized
    match client.hash canonNumber with
    | .error error => some (g, .error (.client error))
    | .ok none => none
    | .ok (some canonHash) =>
      some (InnerGuard.setOld { g with guard := newSet } g.guard,
        .ok (.forced ⟨canonNumber, canonHash, newSet.setId, newSet.currentAuthorities⟩))
  | some (.ok none) =>
    match g.guard.enactsStandardChange isDescendentOf block.postHash block.header.number with
    | .error error => some (g, .error (.authoritySet error))
    | .ok (some root) => some (g, .ok (.standard root))
    | .ok none => some (g, .ok .none)

/-- The set, the block and the changes; an early return drops the guard. -/
def makeAuthoritiesChanges (s : GrandpaBlockImport H A) (block : BlockImportParams H A J) :
    Option (AuthoritySet H A × BlockImportParams H A J ×
      Except (ImportError E) (PendingSetChanges H A)) :=
  if block.origin = .warpSync then some (s.authoritySet, block, .ok ⟨none, .none, false⟩)
  else
    match addNewChange client searchForced spoiled block ⟨none, s.authoritySet⟩
        (s.checkNewChange block) with
    | none => none
    | some (g, .error error) => some (g.drop, block, .error error)
    | some (g, .ok doPause) =>
      match applyChanges client block g with
      | none => none
      | some (g, .error error) => some (g.drop, block, .error error)
      | some (g, .ok applied) =>
        match g.consume with
        | none => some (g.drop, block, .ok ⟨none, applied, doPause⟩)
        | some (old, set) =>
          let auxiliary := block.auxiliary ++ updateAuthoritySet set applied.forced?
          some (set, { block with auxiliary }, .ok ⟨some old, applied, doPause⟩)

omit [DecidableEq H] in
def importState (s : GrandpaBlockImport H A) (block : BlockImportParams H A J) :
    ImportOutcome H A E :=
  match client.importBlock { block with finalized := true } with
  | .ok (.imported aux) =>
    let s := { s with authoritySetHardForks := fun _ => none }
    match client.grandpaAuthorities block.postHash with
    | .error error => ⟨s, block.auxiliary, .error (.client error)⟩
    | .ok authorities =>
      match client.currentSetId block.postHash with
      | .error error => ⟨s, block.auxiliary, .error (.client error)⟩
      | .ok setId =>
        match AuthoritySet.new authorities setId with
        | none => ⟨s, block.auxiliary, .error (.message "Invalid authority list")⟩
        | some authoritySet =>
          let s := { s with authoritySet }
          match client.insertAux (updateAuthoritySet authoritySet none) with
          | .error error => ⟨s, block.auxiliary, .error (.client error)⟩
          | .ok () =>
            let new := ⟨block.header.number, block.postHash, setId, authorities⟩
            ⟨{ s with voterCommands := s.voterCommands ++ [.changeAuthorities new] },
              block.auxiliary, .ok (.imported aux)⟩
  | .ok result => ⟨s, block.auxiliary, .ok result⟩
  | .error error => ⟨s, block.auxiliary, .error (.client error)⟩

omit [DecidableEq H] in
def importOldWith (s : GrandpaBlockImport H A) (block : BlockImportParams H A J)
    (pending : Option (PendingSetChanges H A)) : ImportOutcome H A E :=
  let set := (pending.map fun p => p.revert s.authoritySet).getD s.authoritySet
  match client.importBlock block with
  | .ok (.imported aux) => ⟨s, block.auxiliary, .ok (.imported aux)⟩
  | .ok result => ⟨{ s with authoritySet := set }, block.auxiliary, .ok result⟩
  | .error error => ⟨{ s with authoritySet := set }, block.auxiliary, .error (.client error)⟩

omit [DecidableEq H] in
def importOld (s : GrandpaBlockImport H A) (block : BlockImportParams H A J) :
    Option (ImportOutcome H A E) :=
  match s.checkNewChange block with
  | none => some (s.importOldWith client block none)
  | some _ =>
    match block.justifications with
    | none => some ⟨s, block.auxiliary, .error (.message
        "Justification required when importing an old block with authority set change.")⟩
    | some _ =>
      match s.authoritySet.authoritySetChanges.insert search block.header.number with
      | none => none
      | some (.error setId) => some ⟨s, block.auxiliary, .error (.setIdConflict setId)⟩
      | some (.ok authoritySetChanges) =>
        let set := { s.authoritySet with authoritySetChanges }
        let auxiliary := block.auxiliary ++ updateAuthoritySet set none
        some (importOldWith client { s with authoritySet := set } { block with auxiliary }
          (some ⟨some s.authoritySet, .none, false⟩))

omit [DecidableEq H] in
def announce (s : GrandpaBlockImport H A) (pending : PendingSetChanges H A) (aux : ImportedAux)
    (justifications : Option (List (String × J))) :
    GrandpaBlockImport H A × ImportedAux × Option (List (String × J)) :=
  let paused := if pending.doPause then
    s.voterCommands ++ [.pause "Forced change scheduled after inactivity"] else s.voterCommands
  match pending.appliedChanges with
  | .forced new =>
    ({ s with voterCommands := paused ++ [.changeAuthorities new] },
      { aux with clearJustificationRequests := true }, justifications)
  -- other changes have to be applied first
  | .standard false => ({ s with voterCommands := paused }, aux, none)
  | _ => ({ s with voterCommands := paused }, aux, justifications)

omit [DecidableEq H] in
def justify (s : GrandpaBlockImport H A) (block : BlockImportParams H A J)
    (needsJustification : Bool) (aux : ImportedAux)
    (justifications : Option (List (String × J))) :
    Option (GrandpaBlockImport H A × ImportedAux) :=
  match justifications.bind fun justs => justs.lookup grandpaEngineId with
  | none => some (s, if needsJustification then { aux with needsJustification := true } else aux)
  | some justification =>
    if client.shouldProcessJustification block.header.number needsJustification then
      match client.importJustification s.authoritySet block.postHash block.header.number
          justification needsJustification with
      | none => none
      | some (authoritySet, .ok ()) => some ({ s with authoritySet }, aux)
      | some (authoritySet, .error _) =>
        some ({ s with authoritySet }, if needsJustification then
          { aux with badJustification := true, needsJustification := true } else aux)
    else some (s, aux)

def importNew (s : GrandpaBlockImport H A) (block : BlockImportParams H A J) :
    Option (ImportOutcome H A E) :=
  match s.makeAuthoritiesChanges client searchForced spoiled block with
  | none => none
  | some (authoritySet, block, .error error) =>
    some ⟨{ s with authoritySet }, block.auxiliary, .error error⟩
  | some (authoritySet, changed, .ok pending) =>
    let reverted := { s with authoritySet := pending.revert authoritySet }
    match client.importBlock { changed with justifications := none } with
    | .ok (.imported aux) =>
      let announced := announce { s with authoritySet } pending aux block.justifications
      match justify client announced.1 block pending.appliedChanges.needsJustification
          announced.2.1 announced.2.2 with
      | none => none
      | some (s, aux) => some ⟨s, changed.auxiliary, .ok (.imported aux)⟩
    | .ok result => some ⟨reverted, changed.auxiliary, .ok result⟩
    | .error error => some ⟨reverted, changed.auxiliary, .error (.client error)⟩

def importBlock (s : GrandpaBlockImport H A) (block : BlockImportParams H A J) :
    Option (ImportOutcome H A E) :=
  match client.status block.postHash with
  | .ok .inChain =>
    some ⟨s, block.auxiliary, (client.importBlock { block with justifications := none }).mapError
      ImportError.client⟩
  | .error error => some ⟨s, block.auxiliary, .error (.client error)⟩
  | .ok .unknown =>
    if block.withState then some (s.importState client block)
    else if block.header.number ≤ client.finalizedNumber then s.importOld client search block
    else s.importNew client searchForced spoiled block

end

/-! ## The set after an import -/

def writtenSet : List (AuxWrite H A) → Option (AuthoritySet H A)
  | [] => none
  | .authoritySet set :: _ => some set
  | .setState _ _ _ :: writes => writtenSet writes

@[simp] theorem writtenSet_update (set : AuthoritySet H A) (new : Option (NewAuthoritySet H A)) :
    writtenSet (updateAuthoritySet set new) = some set := by
  cases new <;> rfl

/-- The import resets the set to one that it reads from the block's state. -/
structure Resets (client : Client H A E J) (block : BlockImportParams H A J)
    (set : AuthoritySet H A) : Prop where
  unknown : client.status block.postHash = .ok .unknown
  withState : block.withState = true
  imported : ∃ aux, client.importBlock { block with finalized := true } = .ok (.imported aux)
  state : ∃ authorities setId, client.grandpaAuthorities block.postHash = .ok authorities ∧
    client.currentSetId block.postHash = .ok setId ∧ AuthoritySet.new authorities setId = some set

/-- Where the block is not imported the set is the one from before. Where it is, and no
justification is, it is the one written with the block, or else the one from before. -/
structure Settled (client : Client H A E J) (s : GrandpaBlockImport H A)
    (block : BlockImportParams H A J) (outcome : ImportOutcome H A E) : Prop where
  restored : (∀ aux, outcome.result ≠ .ok (.imported aux)) →
    outcome.importer.authoritySet = s.authoritySet
  written : ∀ aux, outcome.result = .ok (.imported aux) →
    (block.justifications.bind fun justs => justs.lookup grandpaEngineId) = none ∨
      block.header.number ≤ client.finalizedNumber →
    ∃ added, outcome.auxiliary = block.auxiliary ++ added ∧
      outcome.importer.authoritySet = (writtenSet added).getD s.authoritySet

variable {client : Client H A E J} {s : GrandpaBlockImport H A} {block : BlockImportParams H A J}
variable {outcome : ImportOutcome H A E}

theorem settled_of_same (hset : outcome.importer.authoritySet = s.authoritySet)
    (haux : outcome.auxiliary = block.auxiliary) : Settled client s block outcome :=
  ⟨fun _ => hset, fun _ _ _ => ⟨[], by rw [haux, List.append_nil], hset⟩⟩

/-- What allows a reset to this set: it is no change, or it succeeds and a justification is imported
after it. -/
def MayReset (client : Client H A E J) (s : GrandpaBlockImport H A)
    (block : BlockImportParams H A J) (set : AuthoritySet H A) : Prop :=
  set = s.authoritySet ∨
    client.insertAux (updateAuthoritySet set none) = .ok () ∧
      (block.justifications.bind fun justs => justs.lookup grandpaEngineId) ≠ none ∧
      client.finalizedNumber < block.header.number

theorem importState_settled (hstatus : client.status block.postHash = .ok .unknown)
    (hwith : block.withState = true)
    (hstate : ∀ set, Resets client block set → MayReset client s block set) :
    Settled client s block (s.importState client block) := by
  unfold importState
  split
  · rename_i aux himport
    split
    · exact settled_of_same rfl rfl
    · rename_i authorities hauthorities
      split
      · exact settled_of_same rfl rfl
      · rename_i setId hsetId
        split
        · exact settled_of_same rfl rfl
        · rename_i set hset
          have hmay := hstate set
            ⟨hstatus, hwith, ⟨aux, himport⟩, authorities, setId, hauthorities, hsetId, hset⟩
          dsimp only
          rcases hmay with hsame | ⟨hinsert, hjustified, habove⟩
          · split <;> exact settled_of_same hsame rfl
          · rw [hinsert]
            refine ⟨fun hnot => absurd rfl (hnot _), fun _ _ hnone => ?_⟩
            exact (hnone.elim hjustified (by omega)).elim
  · exact settled_of_same rfl rfl
  · exact settled_of_same rfl rfl

theorem mayReset_of_settled (hsettled : Settled client s block (s.importState client block))
    {set : AuthoritySet H A} (hresets : Resets client block set) :
    MayReset client s block set := by
  obtain ⟨-, -, ⟨aux, himport⟩, authorities, setId, hauthorities, hsetId, hset⟩ := hresets
  simp only [importState, himport, hauthorities, hsetId, hset] at hsettled
  by_contra hmay
  obtain ⟨hother, hunjustified⟩ := not_or.mp hmay
  cases hinsert : client.insertAux (updateAuthoritySet set none) with
  | error error =>
    rw [hinsert] at hsettled
    exact hother (hsettled.restored nofun)
  | ok _ =>
    rw [hinsert] at hsettled hunjustified
    obtain ⟨added, hadded, hsame⟩ := hsettled.written aux rfl (by
      by_contra hnone
      rw [not_or, not_le] at hnone
      exact hunjustified ⟨rfl, hnone⟩)
    rw [List.self_eq_append_right.mp hadded] at hsame
    exact hother hsame

theorem importOldWith_settled {set : AuthoritySet H A} :
    Settled client s block (importOldWith client { s with authoritySet := set }
      { block with auxiliary := block.auxiliary ++ updateAuthoritySet set none }
      (some ⟨some s.authoritySet, .none, false⟩)) := by
  unfold importOldWith
  split
  · exact ⟨fun hnot => absurd rfl (hnot _), fun _ _ _ => ⟨_, rfl, rfl⟩⟩
  · rename_i result hnot himport
    exact ⟨fun _ => rfl, fun aux heq => by cases heq; exact absurd rfl (hnot aux)⟩
  · exact ⟨fun _ => rfl, nofun⟩

theorem importOld_settled {search : BinarySearch Nat}
    (h : s.importOld client search block = some outcome) : Settled client s block outcome := by
  unfold importOld at h
  split at h
  · cases h
    unfold importOldWith
    split <;> exact settled_of_same rfl rfl
  · split at h
    · cases h
      exact settled_of_same rfl rfl
    · split at h
      · cases h
      · cases h
        exact settled_of_same rfl rfl
      · cases h
        exact importOldWith_settled

/-! ## The guards keep the old set -/

theorem setOld_old (g : InnerGuard H A) (old : AuthoritySet H A) :
    (g.setOld old).old = some (g.old.getD old) := by
  unfold InnerGuard.setOld
  cases hold : g.old with
  | none => rfl
  | some _ => exact hold

variable [DecidableEq H] {search : BinarySearch Nat} {searchForced : BinarySearch (Nat ×ₗ Nat)}
variable {spoiled : AuthoritySet H A → PendingChange H A → AuthoritySet H A}

theorem addNewChange_drop {g g' : InnerGuard H A} {change : Option (PendingChange H A)}
    {result : Except (ImportError E) Bool}
    (h : addNewChange client searchForced spoiled block g change = some (g', result)) :
    g'.drop = g.drop := by
  unfold addNewChange at h
  split at h
  · cases h
    rfl
  · dsimp only at h
    split at h
    · cases h
    · cases h
      rw [InnerGuard.drop, setOld_old]
      rfl
    · cases h
      rw [InnerGuard.drop, setOld_old]
      rfl

theorem applyChanges_drop {g g' : InnerGuard H A}
    {result : Except (ImportError E) (AppliedChanges H A)}
    (h : applyChanges client block g = some (g', result)) : g'.drop = g.drop := by
  unfold applyChanges at h
  dsimp only at h
  split at h
  · cases h
  · cases h
    rfl
  · split at h
    · cases h
      rfl
    · cases h
    · cases h
      rw [InnerGuard.drop, setOld_old]
      rfl
  · split at h <;> cases h <;> rfl

/-- After an error the set is the one from before, else the one written with the block. -/
theorem makeAuthoritiesChanges_spec {set : AuthoritySet H A} {changed : BlockImportParams H A J}
    {result : Except (ImportError E) (PendingSetChanges H A)}
    (h : s.makeAuthoritiesChanges client searchForced spoiled block =
      some (set, changed, result)) :
    match result with
    | .error _ => set = s.authoritySet
    | .ok pending => pending.revert set = s.authoritySet ∧
        ∃ added, changed.auxiliary = block.auxiliary ++ added ∧
          set = (writtenSet added).getD s.authoritySet := by
  unfold makeAuthoritiesChanges at h
  split at h
  · cases h
    exact ⟨rfl, [], (List.append_nil _).symm, rfl⟩
  split at h
  · cases h
  · rename_i hadd
    cases h
    exact addNewChange_drop hadd
  · rename_i hadd
    have hdrop := addNewChange_drop hadd
    split at h
    · cases h
    · rename_i happly
      cases h
      exact (applyChanges_drop happly).trans hdrop
    · rename_i g applied happly
      have hset : g.drop = s.authoritySet := (applyChanges_drop happly).trans hdrop
      cases hold : g.old with
      | none =>
        rw [InnerGuard.consume, hold] at h
        cases h
        exact ⟨hset, [], (List.append_nil _).symm, hset⟩
      | some old =>
        rw [InnerGuard.consume, hold] at h
        cases h
        rw [InnerGuard.drop, hold] at hset
        refine ⟨hset, _, rfl, ?_⟩
        rw [writtenSet_update]
        rfl

omit [DecidableEq H] in
theorem justify_authoritySet {needs : Bool} {aux : ImportedAux}
    {justifications : Option (List (String × J))}
    (hnone : (justifications.bind fun justs => justs.lookup grandpaEngineId) = none)
    {next : GrandpaBlockImport H A × ImportedAux}
    (h : justify client s block needs aux justifications = some next) :
    next.1.authoritySet = s.authoritySet := by
  rw [justify, hnone] at h
  cases h
  rfl

omit [DecidableEq H] in
theorem announce_spec (pending : PendingSetChanges H A) (aux : ImportedAux)
    (justifications : Option (List (String × J))) :
    (announce s pending aux justifications).1.authoritySet = s.authoritySet ∧
      ((announce s pending aux justifications).2.2 = justifications ∨
        (announce s pending aux justifications).2.2 = none) := by
  unfold announce
  dsimp only
  split
  · exact ⟨rfl, .inl rfl⟩
  · exact ⟨rfl, .inr rfl⟩
  · exact ⟨rfl, .inl rfl⟩

theorem importNew_settled (hnew : client.finalizedNumber < block.header.number)
    (h : s.importNew client searchForced spoiled block = some outcome) :
    Settled client s block outcome := by
  unfold importNew at h
  split at h
  · cases h
  · rename_i hmake
    cases h
    exact ⟨fun _ => makeAuthoritiesChanges_spec hmake, nofun⟩
  · rename_i set changed pending hmake
    obtain ⟨hrevert, added, hadded, hset⟩ := makeAuthoritiesChanges_spec hmake
    dsimp only at h
    split at h
    · rename_i aux himport
      obtain ⟨hsame, hjustifications⟩ := announce_spec (s := { s with authoritySet := set })
        pending aux block.justifications
      split at h
      · cases h
      · rename_i next aux' hjustify
        cases h
        refine ⟨fun hnot => absurd rfl (hnot _), fun _ _ hnone => ⟨added, hadded, ?_⟩⟩
        have hbind : ((announce { s with authoritySet := set } pending aux
            block.justifications).2.2.bind fun justs => justs.lookup grandpaEngineId) = none := by
          rcases hjustifications with heq | heq
          · rw [heq]
            exact hnone.resolve_right (by omega)
          · rw [heq]
            rfl
        exact ((justify_authoritySet hbind hjustify).trans hsame).trans hset
    · rename_i result hnot himport
      cases h
      exact ⟨fun _ => hrevert, fun aux heq => by cases heq; exact absurd rfl (hnot aux)⟩
    · cases h
      exact ⟨fun _ => hrevert, nofun⟩

/-- An import settles the set exactly where it may reset it, if it does. -/
theorem importBlock_settled {s : GrandpaBlockImport H A} {block : BlockImportParams H A J}
    {outcome : ImportOutcome H A E}
    (h : s.importBlock client search searchForced spoiled block = some outcome) :
    Settled client s block outcome ↔
      ∀ set, Resets client block set → MayReset client s block set := by
  constructor
  · intro hsettled set hresets
    rw [importBlock, hresets.unknown] at h
    dsimp only at h
    rw [if_pos hresets.withState] at h
    cases h
    exact mayReset_of_settled hsettled hresets
  · intro hstate
    unfold importBlock at h
    split at h
    · cases h
      exact settled_of_same rfl rfl
    · cases h
      exact settled_of_same rfl rfl
    · rename_i hstatus
      split_ifs at h with hwith hold
      · cases h
        exact importState_settled hstatus hwith hstate
      · exact importOld_settled h
      · exact importNew_settled (by omega) h

def answering (importResult : Except Unit ImportResult) (insertAux : Except Unit Unit) :
    Client Nat Nat Unit Unit where
  status _ := .ok .unknown
  finalizedNumber := 0
  hash _ := .ok (some 0)
  isDescendentOf _ _ _ := .ok false
  importBlock _ := importResult
  grandpaAuthorities _ := .ok [(9, 1)]
  currentSetId _ := .ok 5
  insertAux _ := insertAux
  shouldProcessJustification _ _ := false
  importJustification set _ _ _ _ := some (set, .ok ())

def genesisImporter : GrandpaBlockImport Nat Nat := ⟨⟨[(1, 1)], 0, .new, [], []⟩, fun _ => none, []⟩

def changeBlock (withState : Bool) : BlockImportParams Nat Nat Unit :=
  ⟨⟨⟨7, 1, 0⟩, [.scheduledChange ⟨[(8, 1)], 0⟩]⟩, 7, .other, withState, false, none, []⟩

/-- The change is added to the set and to the block, and gone again when the block is not
imported. -/
theorem importBlock_settled_knownBad :
    ∃ outcome, genesisImporter.importBlock (answering (.ok .knownBad) (.ok ())) (.scan _) (.scan _)
        (fun set _ => set) (changeBlock false) = some outcome ∧
      (∃ set, writtenSet outcome.auxiliary = some set ∧
        set.pendingStandardChanges.roots.length = 1) ∧
      outcome.importer.authoritySet = genesisImporter.authoritySet := by
  refine ⟨_, rfl, ⟨_, rfl, rfl⟩, ?_⟩
  have hsettled := (@importBlock_settled Nat Nat Unit Unit (answering (.ok .knownBad) (.ok ())) _
    (.scan _) (.scan _) (fun set _ => set) genesisImporter (changeBlock false) _ rfl).mpr
    (fun set h => absurd h.withState (by decide))
  exact hsettled.restored nofun

/-- The block and its state are imported, the auxiliary write fails: the import fails, but the set
stays the one of the state. -/
theorem importBlock_keeps_reset :
    ∃ outcome, genesisImporter.importBlock
        (answering (.ok (.imported ⟨false, false, false⟩)) (.error ())) (.scan _) (.scan _)
        (fun set _ => set) (changeBlock true) = some outcome ∧
      outcome.result = .error (.client ()) ∧
      outcome.importer.authoritySet.setId = 5 ∧ genesisImporter.authoritySet.setId = 0 :=
  ⟨_, rfl, rfl, rfl, rfl⟩

end GrandpaBlockImport

end PolkadotSdk.Grandpa
