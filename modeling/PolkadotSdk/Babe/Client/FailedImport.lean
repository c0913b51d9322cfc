import Mathlib
import PolkadotSdk.Babe.Client.BlockImport

/-! # Epoch changes of blocks that are not imported

The shared epoch changes are changed before the block is stored. An import that fails has to
leave them as they were, and one that succeeds has to store what it leaves. Once an epoch is
launched only an error of the inner import brings the old epoch changes back.
-/

namespace PolkadotSdk.Babe.Client

open Epochs

variable {H Id Rand Vrf Sig E : Type} [LinearOrder H]

structure Untouched (node after : Node H Id Rand Vrf Sig) : Prop where
  epochChanges : after.epochChanges = node.epochChanges
  handed : after.handed = node.handed

variable (services : Services H Id Rand Vrf Sig E) (block : BlockImportParams H Id Rand Vrf Sig)
  (prepared : Prepared H Id Rand) (node : Node H Id Rand Vrf Sig)

theorem untouched_refl : Untouched node node := ⟨rfl, rfl⟩

theorem Untouched.trans {a b c : Node H Id Rand Vrf Sig} (hab : Untouched a b)
    (hbc : Untouched b c) : Untouched a c :=
  ⟨hbc.epochChanges.trans hab.epochChanges, hbc.handed.trans hab.handed⟩

abbrev Spares {ε α : Type} (program : Program ε (Node H Id Rand Vrf Sig) α)
    (node : Node H Id Rand Vrf Sig) : Prop :=
  Program.Leaves program node (fun _ after => Untouched node after)
    (fun _ after => Untouched node after)

theorem spares_bind {ε α β : Type} {program : Program ε (Node H Id Rand Vrf Sig) α}
    {rest : α → Program ε (Node H Id Rand Vrf Sig) β} {node : Node H Id Rand Vrf Sig}
    (h : Spares program node) (hrest : ∀ a after, Spares (rest a) after) :
    Spares (program >>= rest) node := by
  refine .bind h (fun _ _ hafter => hafter) fun a after hafter => ?_
  exact (hrest a after).mono (fun _ _ => hafter.trans) fun _ _ => hafter.trans

theorem spares_ofExcept {ε α : Type} (result : Except ε α) (node : Node H Id Rand Vrf Sig) :
    Spares (Program.ofExcept result) node :=
  Program.Leaves.ofExcept (fun _ _ => untouched_refl node) fun _ _ => untouched_refl node

theorem spares_ofOutcome {ε α : Type} (outcome : Option (Except ε α))
    (node : Node H Id Rand Vrf Sig) : Spares (Program.ofOutcome outcome) node :=
  Program.Leaves.ofOutcome (fun _ _ => untouched_refl node) fun _ _ => untouched_refl node

theorem reportEquivocation_spares (parentHash : H) (slot : ℕ)
    (proof : EquivocationProof H Id Rand Vrf Sig) (node : Node H Id Rand Vrf Sig) :
    Spares (reportEquivocation services parentHash slot proof) node := by
  unfold reportEquivocation
  refine spares_bind (spares_ofExcept _ _) fun bestHash _ => ?_
  refine spares_bind (spares_ofExcept _ _) fun owner after => ?_
  split
  · exact .pure (untouched_refl after)
  · refine spares_bind (.modify ⟨rfl, rfl⟩) fun _ _ => ?_
    exact spares_bind (spares_ofExcept _ _) fun _ last => .pure (untouched_refl last)

section

variable [DecidableEq Id]

theorem checkAndReportEquivocation_spares (services : Services H Id Rand Vrf Sig E)
    (slotNow slot : ℕ) (header : Header H Id Rand Vrf Sig) (author : Id) (origin : BlockOrigin)
    (node : Node H Id Rand Vrf Sig) :
    Spares (checkAndReportEquivocation services slotNow slot header author origin) node := by
  unfold checkAndReportEquivocation
  split
  · exact untouched_refl node
  · refine .get_bind ?_
    refine spares_bind (show Spares (modify _) node from ⟨rfl, rfl⟩) fun _ after => ?_
    split
    · exact untouched_refl after
    · exact reportEquivocation_spares services header.parentHash slot _ after

theorem checkInherentsAndEquivocations_spares [HashBytes H]
    (services : Services H Id Rand Vrf Sig E) (block : BlockImportParams H Id Rand Vrf Sig)
    (node : Node H Id Rand Vrf Sig) :
    Spares (checkInherentsAndEquivocations services block) node := by
  unfold checkInherentsAndEquivocations
  split
  · exact untouched_refl node
  · refine spares_bind (spares_ofExcept _ _) fun slotNow _ => ?_
    refine spares_bind (spares_ofExcept _ _) fun preDigest _ => ?_
    refine spares_bind (spares_ofExcept _ _) fun _ after => ?_
    refine .get_bind ?_
    refine spares_bind (spares_ofOutcome _ _) fun author after => ?_
    exact .ignoreError
      (checkAndReportEquivocation_spares services slotNow preDigest.slot block.header author
        block.origin after) fun _ _ hafter => hafter

end

/-! ## Launching an epoch -/

theorem pruneFinalized_handed :
    Program.Leaves (pruneFinalized services) node (fun _ after => after.handed = node.handed)
      (fun _ after => after.handed = node.handed) := by
  unfold pruneFinalized
  refine .bind (spares_ofOutcome _ _) (fun _ _ h => h.handed) fun slot after h => ?_
  refine .get_bind ?_
  refine .bind (spares_ofOutcome _ _) (fun _ _ h' => (h.trans h').handed) ?_
  intro changes last h'
  exact .modify (h.trans h').handed

theorem pruneAndImport_handed (hash : H) (number : ℕ) (parentHash : H)
    (nextEpoch : PersistedEpoch (Babe.Epoch Id Rand)) (node : Node H Id Rand Vrf Sig) :
    Program.Leaves (pruneAndImport services hash number parentHash nextEpoch) node
      (fun _ after => after.handed = node.handed) (fun _ after => after.handed = node.handed) := by
  unfold pruneAndImport
  refine .bind (pruneFinalized_handed services node) (fun _ _ h => h) ?_
  intro _ after h
  refine .get_bind ?_
  refine .bind (spares_ofOutcome _ _) (fun _ _ h' => h'.handed.trans h) ?_
  intro changes last h'
  exact .modify (h'.handed.trans h)

theorem launchEpoch_leaves (next : NextEpochDescriptor Id Rand) (node : Node H Id Rand Vrf Sig) :
    Program.Leaves (launchEpoch services block prepared next) node
      (fun launched after => launched = (node.epochChanges, .epochChanges after.epochChanges) ∧
        after.handed = node.handed)
      (fun _ after => after.epochChanges = node.epochChanges) := by
  unfold launchEpoch
  refine .get_bind ?_
  refine .bind (spares_ofOutcome _ _) (fun _ _ h => h.epochChanges) ?_
  intro nextEpoch after h
  have hrun := pruneAndImport_handed services (block.fullHash services.hash) block.header.number
    block.header.parentHash nextEpoch after
  refine .bind (.onError hrun fun e _ _ => ?_) (fun _ _ h => h) ?_
  · exact .modify_bind (.throw rfl)
  · intro _ last hlast
    exact .get_bind (.pure ⟨rfl, hlast.trans h.handed⟩)

/-! ## The import as a whole -/

def AuxEntry.changes : AuxEntry H Id Rand → Option (EpochChanges H ℕ (Babe.Epoch Id Rand))
  | .epochChanges changes => some changes
  | _ => none

/-- The epoch changes are as they were, or the block was imported with the ones there are now. -/
def Kept (block : BlockImportParams H Id Rand Vrf Sig) (node : Node H Id Rand Vrf Sig)
    (result : ImportResult) (after : Node H Id Rand Vrf Sig) : Prop :=
  match result with
  | .imported _ => ∃ handed added, after.handed = node.handed ++ [handed] ∧
      handed.auxiliary = block.auxiliary ++ added ∧
      after.epochChanges = (added.findSome? AuxEntry.changes).getD node.epochChanges
  | _ => after.epochChanges = node.epochChanges

theorem Untouched.kept_iff {block : BlockImportParams H Id Rand Vrf Sig}
    {node middle after : Node H Id Rand Vrf Sig} {result : ImportResult}
    (h : Untouched node middle) :
    Kept block middle result after ↔ Kept block node result after := by
  unfold Kept
  rw [h.handed, h.epochChanges]

theorem importInner_kept {block handed : BlockImportParams H Id Rand Vrf Sig}
    {added : List (AuxEntry H Id Rand)} (haux : handed.auxiliary = block.auxiliary ++ added)
    (hadded : added.findSome? AuxEntry.changes = none) (node : Node H Id Rand Vrf Sig) :
    Program.Leaves (importInner services handed) node (Kept block node)
      (fun _ after => after.epochChanges = node.epochChanges) := by
  unfold importInner
  refine .modify_bind (.ofExcept ?_ fun _ _ => rfl)
  intro result _
  cases result with
  | imported aux => exact ⟨handed, added, rfl, haux, by rw [hadded]; rfl⟩
  | alreadyInChain => rfl
  | knownBad => rfl
  | unknownParent => rfl
  | missingState => rfl

theorem importPrepared_plain :
    Program.Leaves (importPrepared services block prepared none) node (Kept block node)
      (fun _ after => after.epochChanges = node.epochChanges) := by
  unfold importPrepared
  refine .bind (spares_ofExcept _ _) (fun _ _ h => h.epochChanges) ?_
  intro lastBestWeight after h
  have hinner : Program.Leaves
      (importInner services (finished services block prepared [] lastBestWeight)) after
      (Kept block after) (fun _ last => last.epochChanges = after.epochChanges) :=
    importInner_kept services rfl (by rfl) after
  refine .onError (hinner.mono (fun _ _ => h.kept_iff.mp) fun _ _ h' => h') ?_
  intro e last hlast
  exact .modify_bind (.throw (hlast.trans h.epochChanges))

theorem run_importInner :
    (importInner services block).run node =
      match services.importInner block with
      | .ok result => .ok result { node with handed := node.handed ++ [block] }
      | .error e => .error (.error (.inner e)) { node with handed := node.handed ++ [block] } := by
  unfold importInner
  cases services.importInner block <;> rfl

/-- The weight of the best chain is known, and the inner import does not decline the block with
these epoch changes. -/
def Concludes (services : Services H Id Rand Vrf Sig E)
    (block : BlockImportParams H Id Rand Vrf Sig) (prepared : Prepared H Id Rand)
    (changes : EpochChanges H ℕ (Babe.Epoch Id Rand)) : Prop :=
  ∃ weight, lastBestWeight services block.header.parentHash prepared.parentWeight = .ok weight ∧
    ∀ result, services.importInner
        (finished services block prepared [.epochChanges changes] weight) = .ok result →
      ∃ aux, result = .imported aux

theorem importPrepared_launched (old : EpochChanges H ℕ (Babe.Epoch Id Rand))
    (node : Node H Id Rand Vrf Sig) :
    Program.Leaves
      (importPrepared services block prepared (some (old, .epochChanges node.epochChanges))) node
      (Kept block { node with epochChanges := old }) (fun _ after => after.epochChanges = old) ↔
    node.epochChanges = old ∨ Concludes services block prepared node.epochChanges := by
  unfold importPrepared Concludes Program.Leaves
  cases hweight : lastBestWeight services block.header.parentHash prepared.parentWeight with
  | error e =>
    simp only [reduceCtorEq, false_and, exists_false, or_false]
    exact Iff.rfl
  | ok weight =>
    rw [Program.run_ofExcept_bind _ rfl, Program.run_onError, run_importInner]
    simp only [Option.toList_some, List.map_cons, List.map_nil]
    cases hinner : services.importInner (finished services block prepared
        [.epochChanges node.epochChanges] weight) with
    | error e => exact iff_of_true rfl (.inr ⟨weight, rfl, by simp [hinner]⟩)
    | ok result =>
      have hconcludes : (∃ other, (.ok weight : Except (ConsensusError H Id E) ℕ) = .ok other ∧
          ∀ result, services.importInner (finished services block prepared
            [.epochChanges node.epochChanges] other) = .ok result →
              ∃ aux, result = .imported aux) ↔ ∃ aux, result = .imported aux := by
        simp [hinner]
      rw [hconcludes]
      cases result with
      | imported aux => exact iff_of_true ⟨_, _, rfl, rfl, rfl⟩ (.inr ⟨aux, rfl⟩)
      | alreadyInChain => simp [Kept]
      | knownBad => simp [Kept]
      | unknownParent => simp [Kept]
      | missingState => simp [Kept]

/-- The import comes to launch the epoch that the block announces, and does so. -/
inductive Launches [HashBytes H] [DecidableEq Id] (services : Services H Id Rand Vrf Sig E)
    (block : BlockImportParams H Id Rand Vrf Sig) (node : Node H Id Rand Vrf Sig)
    (prepared : Prepared H Id Rand) (after : Node H Id Rand Vrf Sig) : Prop
  | intro {checked : Node H Id Rand Vrf Sig} {status : BlockStatus} {preDigest : PreDigest Vrf}
      {next : NextEpochDescriptor Id Rand}
      {launched : EpochChanges H ℕ (Babe.Epoch Id Rand) × AuxEntry H Id Rand}
      (hchecked : (checkInherentsAndEquivocations services block).run node = .ok ⟨⟩ checked)
      (hstatus : services.status (block.fullHash services.hash) = .ok status)
      (hnew : ¬ (inGap services.info block.header.number || status = .inChain))
      (hdigest : (findPreDigest block.header : Except (Error H Id E) _) = .ok preDigest)
      (horigin : block.origin ≠ .warpSync)
      (hprepared : prepare services block preDigest = some (.ok prepared))
      (hnext : prepared.nextEpochDigest = some next)
      (hlaunched : (launchEpoch services block prepared next).run checked = .ok launched after)

section

variable [HashBytes H] [DecidableEq Id] {services : Services H Id Rand Vrf Sig E}
  {block : BlockImportParams H Id Rand Vrf Sig} {node after : Node H Id Rand Vrf Sig}
  {prepared : Prepared H Id Rand}

theorem Launches.run (h : Launches services block node prepared after)
    (hstate : block.withState = false) :
    Untouched node { after with epochChanges := node.epochChanges } ∧
      (importBlock services block).run node = (importPrepared services block prepared
        (some (node.epochChanges, .epochChanges after.epochChanges))).run after := by
  obtain @⟨checked, _, _, next, _, hchecked, hstatus, hnew, hdigest, horigin, hprepared, hnext,
    hlaunched⟩ := h
  have hspares := checkInherentsAndEquivocations_spares services block node
  unfold Spares Program.Leaves at hspares
  rw [hchecked] at hspares
  have hleaves := launchEpoch_leaves services block prepared next checked
  unfold Program.Leaves at hleaves
  rw [hlaunched] at hleaves
  obtain ⟨rfl, hhanded⟩ := hleaves
  refine ⟨⟨rfl, hhanded.trans hspares.handed⟩, ?_⟩
  unfold importBlock importChecked
  rw [Program.run_bind_of_ok hchecked,
    Program.run_ofExcept_bind _ (Program.mapError_eq_ok.mpr hstatus), if_neg hnew,
    if_neg (by simp [hstate]), hdigest]
  dsimp only
  rw [if_neg horigin, importVerified, Program.run_ofOutcome_bind _ hprepared, hnext]
  dsimp only
  rw [Program.run_bind_of_ok hlaunched, hspares.epochChanges]

theorem Launches.leaves_iff (h : Launches services block node prepared after)
    (hstate : block.withState = false) :
    Program.Leaves (importBlock services block) node (Kept block node)
      (fun _ after => after.epochChanges = node.epochChanges) ↔
    after.epochChanges = node.epochChanges ∨
      Concludes services block prepared after.epochChanges := by
  obtain ⟨huntouched, hrun⟩ := h.run hstate
  have hkept : Kept block node = Kept block { after with epochChanges := node.epochChanges } :=
    funext fun _ => funext fun _ => propext huntouched.kept_iff.symm
  rw [← importPrepared_launched, ← hkept]
  unfold Program.Leaves
  rw [hrun]

theorem importBlock_unlaunched (hstate : block.withState = false)
    (hnone : ∀ prepared after, ¬ Launches services block node prepared after) :
    Program.Leaves (importBlock services block) node (Kept block node)
      (fun _ after => after.epochChanges = node.epochChanges) := by
  unfold importBlock
  refine .bind (checkInherentsAndEquivocations_spares services block node).run_eq
    (fun _ _ h => h.epochChanges) fun _ checked hchecked => ?_
  obtain ⟨hspares, hchecked⟩ := hchecked
  unfold importChecked
  refine .bind (Q := fun status after => after = checked ∧
      services.status (block.fullHash services.hash) = .ok status)
    (.ofExcept (E := fun _ after => Untouched node after)
      (fun _ h => ⟨rfl, Program.mapError_eq_ok.mp h⟩) fun _ _ => hspares)
    (fun _ _ h => h.epochChanges) ?_
  rintro status middle ⟨rfl, hstatus⟩
  suffices h : Program.Leaves _ _ (Kept block middle)
      (fun _ after => after.epochChanges = middle.epochChanges) from
    h.mono (fun _ _ => hspares.kept_iff.mp) fun _ _ h => h.trans hspares.epochChanges
  split
  · exact importInner_kept services (List.append_nil _).symm rfl _
  · next hnew =>
    rw [if_neg (by simp [hstate])]
    split
    · exact .panic
    · next preDigest hdigest =>
      split
      · exact importInner_kept services (List.append_nil _).symm rfl _
      · next horigin =>
        unfold importVerified
        refine .bind (Q := fun prepared after => after = middle ∧
            prepare services block preDigest = some (.ok prepared))
          (.ofOutcome (E := fun _ after => after.epochChanges = middle.epochChanges)
            (fun _ h => ⟨rfl, h⟩) fun _ _ => rfl) (fun _ _ h => h) ?_
        rintro prepared _ ⟨rfl, hprepared⟩
        split
        · exact importPrepared_plain services block prepared _
        · next next hnext =>
          refine .bind (launchEpoch_leaves services block prepared next _).run_eq
            (fun _ _ h => h) fun launched last hlast => ?_
          exact (hnone prepared last (.intro hchecked hstatus hnew hdigest horigin hprepared hnext
            hlast.2)).elim

/-- However the import of a block without state ends, the epoch changes are those of before, or
the block was imported and they are those that were stored with it, exactly if an import that
launches an epoch leaves the epoch changes the same or concludes. -/
theorem importBlock_keeps_epochChanges (services : Services H Id Rand Vrf Sig E)
    (block : BlockImportParams H Id Rand Vrf Sig) (node : Node H Id Rand Vrf Sig)
    (hstate : block.withState = false) :
    Program.Leaves (importBlock services block) node (Kept block node)
      (fun _ after => after.epochChanges = node.epochChanges) ↔
    ∀ prepared after, Launches services block node prepared after →
      after.epochChanges = node.epochChanges ∨
        Concludes services block prepared after.epochChanges := by
  refine ⟨fun hleaves prepared after h => (h.leaves_iff hstate).mp hleaves, fun hall => ?_⟩
  by_cases hany : ∃ prepared after, Launches services block node prepared after
  · obtain ⟨prepared, after, h⟩ := hany
    exact (h.leaves_iff hstate).mpr (hall prepared after h)
  · exact importBlock_unlaunched hstate fun prepared after h => hany ⟨prepared, after, h⟩

end

/-! ## The first block of a chain -/

def freshServices (weight : Option ℕ) (result : ImportResult) :
    Services (List ℕ) ℕ ℕ ℕ ℕ Unit where
  hash header := [header.number]
  config := ⟨10, (1, 4), [(7, 1)], 0, .primarySlots⟩
  info := ⟨[8], 0, [0], 0, none⟩
  status _ := .ok .unknown
  header hash := .ok (if hash = [0] then some ⟨[], 0, [], [], []⟩ else none)
  lowestCommonAncestor _ _ := .ok [0]
  loadBlockWeight _ := .ok weight
  importInner _ := .ok result
  currentEpoch _ := .error ()
  nextEpoch _ := .error ()
  insertEpochChanges _ := .error ()
  slotNow := .ok 5
  checkInherents _ _ _ := .ok ()
  bestChain := .ok [0]
  generateKeyOwnershipProof _ _ _ := .ok none
  submitReport _ _ _ := .ok ()

def firstBlock : BlockImportParams (List ℕ) ℕ ℕ ℕ ℕ where
  origin := .networkBroadcast
  header := ⟨[0], 1, [], [], [.preRuntime (.primary ⟨0, 5, 0⟩),
    .consensus (.nextEpochData ⟨[(7, 1)], 1⟩)]⟩
  postDigests := [.seal 3]
  body := none
  stateAction := .execute
  intermediate := some (some (.unimportedGenesis 5))
  auxiliary := []
  forkChoice := none
  postHash := none

def freshNode : Node (List ℕ) ℕ ℕ ℕ ℕ where
  epochChanges := ⟨ForkTree.new, ∅⟩
  slotHeaders := ⟨fun _ => [], none⟩
  reports := []
  handed := []

def rootsAfter (services : Services (List ℕ) ℕ ℕ ℕ ℕ Unit) :
    Option (Except (ConsensusError (List ℕ) ℕ Unit) ImportResult × ℕ) :=
  match (importBlock services firstBlock).run freshNode with
  | .ok result after => some (.ok result, after.epochChanges.inner.roots.length)
  | .error (.error e) after => some (.error e, after.epochChanges.inner.roots.length)
  | _ => none

def newBest : ImportedAux := ⟨false, false, false, false, true⟩

theorem importBlock_keeps_epochChanges_first :
    rootsAfter (freshServices (some 0) (.imported newBest)) =
        some (.ok (.imported newBest), 1) ∧
      Program.Leaves (importBlock (freshServices (some 0) (.imported newBest)) firstBlock) freshNode
        (Kept firstBlock freshNode)
        (fun _ after => after.epochChanges = freshNode.epochChanges) := by
  refine ⟨by decide +kernel, (importBlock_keeps_epochChanges _ _ _ rfl).mpr fun _ _ _ => .inr ?_⟩
  exact ⟨0, rfl, fun _ h => ⟨newBest, (Except.ok.inj h).symm⟩⟩

/-- The inner import declines the block, or the best block has no weight: the block is not
imported, and the epoch it announced stays. -/
theorem epoch_of_refused_block_stays :
    freshNode.epochChanges.inner.roots.length = 0 ∧
      firstBlock.withState = false ∧
      rootsAfter (freshServices (some 0) .missingState) = some (.ok .missingState, 1) ∧
      rootsAfter (freshServices none (.imported newBest)) =
        some (.error (.chainLookup (.text "No block weight for parent header.")), 1) := by
  refine ⟨rfl, rfl, ?_, ?_⟩
  · decide +kernel
  · decide +kernel

end PolkadotSdk.Babe.Client
