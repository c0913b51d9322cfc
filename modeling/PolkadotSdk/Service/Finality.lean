import Mathlib
import PolkadotSdk.Blockchain.DisplacedLeaves
import PolkadotSdk.Blockchain.Headers

/-! # Finality notifications

A block is finalized on its own, or when it is imported as finalized, after its parent. The
notification tells the blocks that were finalized and the blocks that became stale. The import
of a block first finalizes its parent, with a summary of its own if the origin of the block asks
for notifications, and then adds to that summary.
-/

namespace PolkadotSdk.Service

open Blockchain

variable {H : Type}

/-! ## Model -/

inductive BlockOrigin where
  | genesis
  | networkInitialSync
  | networkBroadcast
  | consensusBroadcast
  | own
  | file
  | warpSync
  | gapSync
  deriving DecidableEq, Repr

/-- Notifications are made when the node is synced and gets a new head. -/
def BlockOrigin.makeNotifications : BlockOrigin → Bool
  | .networkBroadcast | .own | .consensusBroadcast => true
  | .genesis | .networkInitialSync | .file | .warpSync | .gapSync => false

inductive ForkChoiceStrategy where
  | longestChain
  | custom (isNewBest : Bool)
  deriving DecidableEq, Repr

/-- `blockGap` is the number of the first block that is missing. -/
structure Info (H : Type) where
  bestHash : H
  bestNumber : Nat
  genesisHash : H
  finalizedHash : H
  finalizedNumber : Nat
  blockGap : Option Nat
  deriving DecidableEq, Repr

structure StaleBlock (H : Type) where
  hash : H
  isHead : Bool
  deriving DecidableEq, Repr

structure FinalizeSummary (H : Type) where
  header : Header H
  finalized : List H
  staleBlocks : List (StaleBlock H)
  deriving DecidableEq, Repr

structure FinalityNotification (H : Type) where
  hash : H
  header : Header H
  treeRoute : List H
  staleBlocks : List (StaleBlock H)
  deriving DecidableEq, Repr

def FinalityNotification.fromSummary [Inhabited H] (summary : FinalizeSummary H) :
    FinalityNotification H :=
  { hash := summary.finalized.getLast?.getD default
    header := summary.header
    treeRoute := summary.finalized.dropLast
    staleBlocks := summary.staleBlocks }

inductive ImportNotificationAction where
  | recentBlock
  | everyBlock
  | both
  deriving DecidableEq, Repr

structure ImportSummary (H : Type) where
  hash : H
  origin : BlockOrigin
  header : Header H
  isNewBest : Bool
  treeRoute : Option (TreeRoute H)
  action : ImportNotificationAction

structure ClientImportOperation (H : Type) where
  head : Option H
  finalized : List H
  blockData : Option (Header H × NewBlockState × Bool)
  notifyImported : Option (ImportSummary H)
  notifyFinalized : Option (FinalizeSummary H)

def ClientImportOperation.begin : ClientImportOperation H := ⟨none, [], none, none, none⟩

structure Backend (H : Type) where
  tree : HeaderTree H
  leaves : List H
  info : Info H
  leaves_known : ∀ leaf ∈ leaves, ∃ x, tree.header leaf = some x
  best_known : ∃ x, tree.header info.bestHash = some x
  finalized_known : ∃ x, tree.header info.finalizedHash = some x
  genesis_known : ∃ x, tree.header info.genesisHash = some x ∧ x.number = 0

inductive ServiceError (H : Type) where
  | client (error : ClientError H)
  | notInFinalizedChain
  | missingHeader (hash : H)
  deriving DecidableEq, Repr

abbrev Call (H α : Type) : Type := Program (ServiceError H) (HeaderMetadataCache H) α

inductive ImportResult where
  | alreadyInChain
  | imported (isNewBest : Bool)
  deriving DecidableEq, Repr

namespace Backend

variable [LinearOrder H] (backend : Backend H)

def treeRoute (fromHash toHash : H) : Call H (TreeRoute H) :=
  Program.mapError .client (Blockchain.treeRoute backend.tree fromHash toHash)

def displacedLeavesAfterFinalizing (finalized : Header H) :
    Call H (DisplacedLeavesAfterFinalization H) :=
  Program.mapError .client (Blockchain.displacedLeavesAfterFinalizing backend.tree
    backend.info.genesisHash backend.leaves finalized)

def staleBlocks (displaced : DisplacedLeavesAfterFinalization H) : List (StaleBlock H) :=
  displaced.displacedBlocks.map fun block =>
    { hash := block
      isHead := displaced.displacedLeaves.any fun leaf => decide (leaf.2 = block) }

def coerceBest (operation : ClientImportOperation H) (header : Header H) :
    Call H (ClientImportOperation H) :=
  if 1 < backend.leaves.length ∨ backend.info.bestNumber < header.number then do
    let routeFromBest ← backend.treeRoute backend.info.bestHash header.hash
    if routeFromBest.commonBlock.1 ≠ header.hash then
      pure { operation with head := some header.hash }
    else pure operation
  else pure operation

def summarize (operation : ClientImportOperation H) (header : Header H) (finalized : List H)
    (notify : Bool) : Call H (ClientImportOperation H) :=
  if notify then do
    let displaced ← backend.displacedLeavesAfterFinalizing header
    pure
      { operation with
        notifyFinalized := some { header, finalized, staleBlocks := staleBlocks displaced } }
  else pure operation

/-- The blocks of the route are finalized, of which there is one at least. -/
def markFinalized (operation : ClientImportOperation H) (header : Header H) (finalized : List H)
    (notify : Bool) : Call H (ClientImportOperation H) :=
  if finalized.getLast? = some header.hash then
    backend.summarize { operation with finalized := operation.finalized ++ finalized } header
      finalized notify
  else throw .panic

def applyFinalityWithBlockHash (operation : ClientImportOperation H) (hash : H) (notify : Bool) :
    Call H (ClientImportOperation H) :=
  if hash = backend.info.finalizedHash then pure operation
  else do
    let routeFromFinalized ← backend.treeRoute backend.info.finalizedHash hash
    match routeFromFinalized.retracted, backend.tree.header hash with
    | _ :: _, _ => throw (.error .notInFinalizedChain)
    | [], none => throw (.error (.missingHeader hash))
    | [], some header => do
      let operation ← backend.coerceBest operation header
      backend.markFinalized operation header (routeFromFinalized.enacted.map Prod.fst) notify

def isGapBlock (header : Header H) : Bool :=
  match backend.info.blockGap with
  | none => false
  | some start => decide (header.number = start)

def isNewBest (header : Header H) (finalized : Bool) (forkChoice : ForkChoiceStrategy) : Bool :=
  !backend.isGapBlock header && (finalized ||
    match forkChoice with
    | .longestChain => decide (backend.info.bestNumber < header.number)
    | .custom isNewBest => isNewBest)

def finalizeParent (operation : ClientImportOperation H) (header : Header H) (finalized : Bool)
    (origin : BlockOrigin) : Call H (ClientImportOperation H) :=
  if finalized ∧ (backend.tree.header header.parentHash).isSome ∧
      backend.info.finalizedHash ≠ header.parentHash then
    backend.applyFinalityWithBlockHash operation header.parentHash origin.makeNotifications
  else pure operation

/-- The route from the best block, if the new one is best and on another branch. -/
def reorganization (header : Header H) (isNewBest : Bool) : Call H (Option (TreeRoute H)) :=
  if isNewBest ∧ backend.info.bestHash ≠ header.parentHash ∧
      (backend.tree.header header.parentHash).isSome then do
    let routeFromBest ← backend.treeRoute backend.info.bestHash header.parentHash
    pure (some routeFromBest)
  else pure none

/-- The new block is added to the summary that its parent has left, if it has one. -/
def extendSummary (header : Header H) : Option (FinalizeSummary H) → FinalizeSummary H
  | some summary => { summary with header, finalized := summary.finalized ++ [header.hash] }
  | none => { header, finalized := [header.hash], staleBlocks := [] }

def summarizeImport (operation : ClientImportOperation H) (header : Header H) :
    Call H (ClientImportOperation H) :=
  let summary := extendSummary header operation.notifyFinalized
  if (backend.tree.header header.parentHash).isSome then do
    let displaced ← backend.displacedLeavesAfterFinalizing header
    pure
      { operation with
        notifyFinalized := some
          { summary with staleBlocks := summary.staleBlocks ++ staleBlocks displaced } }
  else pure { operation with notifyFinalized := some summary }

def notificationAction (everyBlock recentBlock : Bool) : ImportNotificationAction :=
  if everyBlock then if recentBlock then .both else .everyBlock else .recentBlock

/-- `everyBlock` tells that somebody listens to all imports. -/
def notifyImport (operation : ClientImportOperation H) (origin : BlockOrigin) (header : Header H)
    (finalized isNewBest everyBlock : Bool) (treeRoute : Option (TreeRoute H)) :
    Call H (ClientImportOperation H) :=
  let recentBlock := origin.makeNotifications || treeRoute.isSome
  let summary : ImportSummary H :=
    ⟨header.hash, origin, header, isNewBest, treeRoute,
      notificationAction everyBlock recentBlock⟩
  if everyBlock || recentBlock then
    if finalized && recentBlock then do
      let operation ← backend.summarizeImport operation header
      pure { operation with notifyImported := some summary }
    else pure { operation with notifyImported := some summary }
  else pure operation

/-- Import a block whose changes of the state are already part of the operation. -/
def executeAndImportBlock (operation : ClientImportOperation H) (origin : BlockOrigin)
    (header : Header H) (finalized : Bool) (forkChoice : ForkChoiceStrategy)
    (importExisting everyBlock : Bool) : Call H (ImportResult × ClientImportOperation H) :=
  let known := (backend.tree.header header.hash).isSome
  if known && !importExisting then pure (.alreadyInChain, operation)
  else if !known && decide (header.number ≤ backend.info.finalizedNumber) &&
      !backend.isGapBlock header then
    throw (.error .notInFinalizedChain)
  else do
    let operation ← backend.finalizeParent operation header finalized origin
    let isNewBest := backend.isNewBest header finalized forkChoice
    let leafState : NewBlockState :=
      if finalized then .final else if isNewBest then .best else .normal
    let treeRoute ← backend.reorganization header isNewBest
    let operation : ClientImportOperation H :=
      { operation with blockData := some (header, leafState, decide (origin ≠ .warpSync)) }
    let operation ← backend.notifyImport operation origin header finalized isNewBest everyBlock
      treeRoute
    pure (.imported isNewBest, operation)

end Backend

/-! ## The calls that finalize blocks -/

inductive FinalityCall (H : Type) where
  | applyFinality (hash : H)
  | importFinalized (origin : BlockOrigin) (header : Header H)
      (forkChoice : ForkChoiceStrategy) (importExisting everyBlock : Bool)

namespace FinalityCall

variable [LinearOrder H]

def run (backend : Backend H) : FinalityCall H → Call H (ClientImportOperation H)
  | .applyFinality hash => backend.applyFinalityWithBlockHash .begin hash true
  | .importFinalized origin header forkChoice importExisting everyBlock => do
    let (_, operation) ← backend.executeAndImportBlock .begin origin header true forkChoice
      importExisting everyBlock
    pure operation

/-- The block that is to be finalized is this one: a known block, or a new child of one. -/
def Finalizes (backend : Backend H) (block : Header H) : FinalityCall H → Prop
  | .applyFinality hash => backend.tree.header hash = some block
  | .importFinalized _ header _ _ _ =>
    header = block ∧ backend.tree.header header.hash = none ∧
      ∃ parent, backend.tree.header header.parentHash = some parent ∧
        parent.number + 1 = header.number

/-- An import whose parent is not the last finalized block makes no notifications, or every leaf is
on the branch of the parent. -/
def Regular (backend : Backend H) : FinalityCall H → Prop
  | .applyFinality _ => True
  | .importFinalized origin header _ _ _ =>
    header.parentHash = backend.info.finalizedHash ∨
      if origin.makeNotifications then
        ∀ leaf ∈ backend.leaves, backend.tree.Extends header.parentHash leaf ∨
          backend.tree.Extends leaf header.parentHash
      else backend.info.bestHash = header.parentHash ∨ backend.isGapBlock header = true

end FinalityCall

/-! ## Exact notifications -/

/-- The blocks from the first one, which is left out, up to the second. -/
def IsPath (tree : BlockTree H) (base : H) (block : Header H) (path : List H) : Prop :=
  ∃ below, Descent tree block.parentHash base below ∧
    path = (below.map Prod.fst).reverse ++ [block.hash]

def Displaced (backend : Backend H) (block : Header H) (leaf : H) : Prop :=
  leaf ∈ backend.leaves ∧ ¬ backend.tree.Extends block.hash leaf

/-- On the branch of a displaced leaf, and not on the finalized chain. -/
def Stale (backend : Backend H) (block : Header H) (other : H) : Prop :=
  (∃ leaf, Displaced backend block leaf ∧ backend.tree.Extends other leaf) ∧
    ¬ OnChain backend.tree block other

structure Exact (backend : Backend H) (block : Header H)
    (notification : FinalityNotification H) : Prop where
  header : notification.header = block
  path : IsPath backend.tree backend.info.finalizedHash block
    (notification.treeRoute ++ [notification.hash])
  stale : ∀ other isHead, ⟨other, isHead⟩ ∈ notification.staleBlocks ↔
    Stale backend block other ∧ (isHead = true ↔ Displaced backend block other)
  once : (notification.staleBlocks.map StaleBlock.hash).Nodup

structure Summarizes (backend : Backend H) (block : Header H) (summary : FinalizeSummary H) :
    Prop where
  header : summary.header = block
  path : IsPath backend.tree backend.info.finalizedHash block summary.finalized
  stale : ∀ other isHead, ⟨other, isHead⟩ ∈ summary.staleBlocks ↔
    Stale backend block other ∧ (isHead = true ↔ Displaced backend block other)
  once : (summary.staleBlocks.map StaleBlock.hash).Nodup

section Proofs

variable {backend : Backend H} {block : Header H}

theorem Summarizes.exact [Inhabited H] {summary : FinalizeSummary H}
    (h : Summarizes backend block summary) : Exact backend block (.fromSummary summary) := by
  refine ⟨h.header, ?_, h.stale, h.once⟩
  obtain ⟨below, hbelow, hfinalized⟩ := h.path
  refine ⟨below, hbelow, ?_⟩
  unfold FinalityNotification.fromSummary
  simp [hfinalized]

variable [LinearOrder H] {cache : HeaderMetadataCache H}

theorem Backend.displacedLeavesAfterFinalizing_returns
    (hsound : Sound backend.tree cache) (hblock : Attachable backend.tree block) :
    Program.Returns (backend.displacedLeavesAfterFinalizing block) cache fun displaced t =>
      IsDisplaced backend.tree backend.leaves block displaced ∧
        Sound backend.tree t := by
  obtain ⟨genesis, hgenesis, hzero⟩ := backend.genesis_known
  exact ((Blockchain.displacedLeavesAfterFinalizing_returns hsound hblock hgenesis hzero
    backend.leaves_known).mono fun _ _ h => ⟨h.1, h.2.2⟩).mapError

theorem Backend.treeRoute_returns {fromHash toHash : H} {x y : Header H}
    (hsound : Sound backend.tree cache)
    (hx : backend.tree.header fromHash = some x) (hy : backend.tree.header toHash = some y) :
    Program.Returns (backend.treeRoute fromHash toHash) cache fun route t =>
      IsRoute backend.tree fromHash toHash route ∧
        Sound backend.tree t :=
  (Blockchain.treeRoute_returns hsound hx hy).mapError

theorem mem_staleBlocks {displaced : DisplacedLeavesAfterFinalization H}
    (h : IsDisplaced backend.tree backend.leaves block displaced) (other : H) (isHead : Bool) :
    ⟨other, isHead⟩ ∈ Backend.staleBlocks displaced ↔
      Stale backend block other ∧ (isHead = true ↔ Displaced backend block other) := by
  have hblocks : other ∈ displaced.displacedBlocks ↔ Stale backend block other := by
    rw [h.displacedBlocks]
    constructor
    · rintro ⟨leaf, hleaf, hnot, hextends, hoff⟩
      exact ⟨⟨leaf, ⟨hleaf, hnot⟩, hextends⟩, hoff⟩
    · rintro ⟨⟨leaf, ⟨hleaf, hnot⟩, hextends⟩, hoff⟩
      exact ⟨leaf, hleaf, hnot, hextends, hoff⟩
  have hhead : (displaced.displacedLeaves.any fun leaf => decide (leaf.2 = other)) = true ↔
      Displaced backend block other := by
    unfold Displaced
    rw [← h.displacedLeaves, List.any_eq_true]
    constructor
    · rintro ⟨⟨number, leaf⟩, hleaf, heq⟩
      exact ⟨number, of_decide_eq_true heq ▸ hleaf⟩
    · rintro ⟨number, hleaf⟩
      exact ⟨(number, other), hleaf, decide_eq_true rfl⟩
  rw [← hblocks, ← hhead]
  unfold Backend.staleBlocks
  rw [List.mem_map]
  constructor
  · rintro ⟨_, hmem, heq⟩
    cases heq
    exact ⟨hmem, Iff.rfl⟩
  · rintro ⟨hmem, hiff⟩
    refine ⟨other, hmem, ?_⟩
    simp only [StaleBlock.mk.injEq, true_and]
    exact Bool.eq_iff_iff.mpr hiff.symm

theorem nodup_staleBlocks {displaced : DisplacedLeavesAfterFinalization H}
    (h : IsDisplaced backend.tree backend.leaves block displaced) :
    ((Backend.staleBlocks displaced).map StaleBlock.hash).Nodup := by
  have heq : (Backend.staleBlocks displaced).map StaleBlock.hash =
      displaced.displacedBlocks := by
    simp [Backend.staleBlocks, Function.comp_def]
  rw [heq]
  exact h.nodup

/-! ## Finalizing a known block -/

omit [LinearOrder H] in
theorem isPath_of_isRoute {base : H} {route : TreeRoute H}
    (hroute : IsRoute backend.tree base block.hash route)
    (hretracted : route.retracted = []) (hne : block.hash ≠ base)
    (hblock : backend.tree.header block.hash = some block) :
    backend.tree.Extends base block.hash ∧
      IsPath backend.tree base block (route.enacted.map Prod.fst) := by
  obtain ⟨common, hcommon, -⟩ := hroute.number
  have hbase : route.commonBlock.1 = base := by
    have hdown := hroute.retracted
    rw [hretracted] at hdown
    cases hdown
    rfl
  have hup := hroute.enacted
  have hextends := hup.extends hcommon
  rw [hbase] at hup hextends
  refine ⟨hextends, ?_⟩
  generalize hbelow : route.enacted.reverse = below at hup
  cases hup with
  | nil => exact absurd rfl hne
  | cons known hrest =>
    rename_i x rest
    rw [hblock] at known
    cases known
    refine ⟨rest, hrest, ?_⟩
    rw [← List.reverse_reverse route.enacted, hbelow]
    simp

def Notifies (backend : Backend H) (block : Header H) (notify : Bool)
    (before after : ClientImportOperation H) : Prop :=
  if notify then
    ∃ summary, after.notifyFinalized = some summary ∧ Summarizes backend block summary
  else after.notifyFinalized = before.notifyFinalized

variable (operation : ClientImportOperation H)

theorem Backend.coerceBest_returns (hsound : Sound backend.tree cache)
    (hblock : backend.tree.header block.hash = some block) :
    Program.Returns (backend.coerceBest operation block) cache fun next t =>
      next.notifyFinalized = operation.notifyFinalized ∧ Sound backend.tree t := by
  obtain ⟨best, hbest⟩ := backend.best_known
  unfold Backend.coerceBest
  split_ifs
  · refine .bind (Backend.treeRoute_returns hsound hbest hblock)
      fun route t hpost => ?_
    split_ifs
    · exact .pure ⟨rfl, hpost.2⟩
    · exact .pure ⟨rfl, hpost.2⟩
  · exact .pure ⟨rfl, hsound⟩

theorem Backend.markFinalized_returns (notify : Bool) (hsound : Sound backend.tree cache)
    (hblock : Attachable backend.tree block) {finalized : List H}
    (hpath : IsPath backend.tree backend.info.finalizedHash block finalized) :
    Program.Returns (backend.markFinalized operation block finalized notify) cache fun next t =>
      Notifies backend block notify operation next ∧ Sound backend.tree t := by
  have hgetLast : finalized.getLast? = some block.hash := by
    obtain ⟨below, -, hfinalized⟩ := hpath
    simp [hfinalized]
  unfold Backend.markFinalized Backend.summarize Notifies
  rw [if_pos hgetLast]
  split_ifs
  · refine .bind (Backend.displacedLeavesAfterFinalizing_returns hsound hblock)
      fun displaced t hpost => ?_
    obtain ⟨hdisplaced, hsound⟩ := hpost
    exact .pure ⟨⟨_, rfl, rfl, hpath, mem_staleBlocks hdisplaced,
      nodup_staleBlocks hdisplaced⟩, hsound⟩
  · exact .pure ⟨rfl, hsound⟩

/-- A known block that is not the last finalized one is finalized if it is above that one. -/
theorem Backend.applyFinalityWithBlockHash_ends (notify : Bool) (hsound : Sound backend.tree cache)
    (hblock : backend.tree.header block.hash = some block)
    (hne : block.hash ≠ backend.info.finalizedHash) :
    Program.Ends (backend.applyFinalityWithBlockHash operation block.hash notify) cache
      (fun next t => Notifies backend block notify operation next ∧
        Sound backend.tree t)
      fun error _ => error = .notInFinalizedChain := by
  obtain ⟨last, hlast⟩ := backend.finalized_known
  unfold Backend.applyFinalityWithBlockHash
  rw [if_neg hne]
  refine .seq (Backend.treeRoute_returns hsound hlast hblock).ends fun route t hpost => ?_
  obtain ⟨hroute, hsound⟩ := hpost
  rw [hblock]
  cases hretracted : route.retracted with
  | cons first rest => exact .throw rfl
  | nil =>
    obtain ⟨hextends, hpath⟩ := isPath_of_isRoute hroute hretracted hne hblock
    have hattachable : Attachable backend.tree block := by
      refine attachable_of_known hblock fun hzero => ?_
      have hnumber := hextends.number_le hlast hblock
      exact hne (hnumber.2 (by omega)).symm
    refine .seq (Backend.coerceBest_returns operation hsound hblock).ends fun coerced t hpost => ?_
    obtain ⟨hcoerced, hsound⟩ := hpost
    have hmark := Backend.markFinalized_returns coerced notify hsound hattachable hpath
    unfold Notifies at hmark ⊢
    rw [hcoerced] at hmark
    exact hmark.ends

/-! ## Importing a block as finalized -/

variable {parent : Header H}

omit [LinearOrder H] in
theorem IsPath.child {base : H} {path : List H} (h : IsPath backend.tree base parent path)
    (hparent : backend.tree.header block.parentHash = some parent) :
    IsPath backend.tree base block (path ++ [block.hash]) := by
  obtain ⟨below, hbelow, rfl⟩ := h
  have hself := backend.tree.hash_eq hparent
  refine ⟨(block.parentHash, parent.number) :: below, .cons hparent hbelow, ?_⟩
  simp [hself]

omit [LinearOrder H] in
theorem inline_iff_not_stale (hblock : backend.tree.header block.hash = some block) :
    (∀ leaf ∈ backend.leaves, backend.tree.Extends block.hash leaf ∨
      backend.tree.Extends leaf block.hash) ↔ ∀ other, ¬ Stale backend block other := by
  constructor
  · rintro hinline other ⟨⟨leaf, ⟨hleaf, hnot⟩, hextends⟩, hoff⟩
    have hbelow := hextends.trans ((hinline leaf hleaf).resolve_left hnot)
    by_cases heq : other = block.hash
    · exact hoff (.inl heq)
    · exact hoff (.inr (hbelow.parent hblock heq))
  · intro hnone leaf hleaf
    obtain ⟨x, hx⟩ := backend.leaves_known leaf hleaf
    by_contra hoff
    obtain ⟨hnot, hnot'⟩ := not_or.mp hoff
    refine hnone leaf ⟨⟨leaf, ⟨hleaf, hnot⟩, .refl hx⟩, ?_⟩
    rintro (rfl | hbelow)
    · exact hnot (.refl hblock)
    · exact hnot' (.step hblock hbelow)

omit [LinearOrder H] in
theorem Stale.child {other : H} (hunknown : backend.tree.header block.hash = none)
    (hparent : backend.tree.header block.parentHash = some parent)
    (h : Stale backend parent other) : Stale backend block other := by
  have hnew : ∀ leaf, ¬ backend.tree.Extends block.hash leaf := by
    intro leaf hextends
    obtain ⟨x, hx⟩ := hextends.base_known
    rw [hunknown] at hx
    cases hx
  obtain ⟨⟨leaf, ⟨hleaf, -⟩, hextends⟩, hoff⟩ := h
  refine ⟨⟨leaf, ⟨hleaf, hnew leaf⟩, hextends⟩, ?_⟩
  rintro (rfl | hbelow)
  · exact hnew leaf hextends
  · by_cases heq : other = block.parentHash
    · exact hoff (.inl (heq.trans (backend.tree.hash_eq hparent).symm))
    · exact hoff (.inr (hbelow.parent hparent heq))

/-- The summary that the import of a block makes of the one that its parent has left. -/
def Reported (backend : Backend H) (block : Header H)
    (before after : Option (FinalizeSummary H)) : Prop :=
  ∃ displaced, IsDisplaced backend.tree backend.leaves block displaced ∧
    after = some
      { Backend.extendSummary block before with
        staleBlocks := (Backend.extendSummary block before).staleBlocks ++
          Backend.staleBlocks displaced }

section

variable [Inhabited H] {after : Option (FinalizeSummary H)}

theorem exact_alone_iff (hreported : Reported backend block none after) :
    (∀ summary, after = some summary → Exact backend block (.fromSummary summary)) ↔
      block.parentHash = backend.info.finalizedHash := by
  obtain ⟨displaced, hdisplaced, rfl⟩ := hreported
  simp only [Option.some.injEq, forall_eq']
  constructor
  · intro hexact
    obtain ⟨below, hbelow, hpath⟩ := hexact.path
    have hnone : below = [] := by
      simpa [FinalityNotification.fromSummary, Backend.extendSummary] using hpath
    subst hnone
    generalize block.parentHash = parentHash at hbelow ⊢
    cases hbelow
    rfl
  · intro hlast
    refine Summarizes.exact ⟨rfl, ⟨[], hlast ▸ .nil _, rfl⟩, ?_, ?_⟩
    · exact mem_staleBlocks hdisplaced
    · exact nodup_staleBlocks hdisplaced

theorem exact_child_iff (hunknown : backend.tree.header block.hash = none)
    (hparent : backend.tree.header block.parentHash = some parent)
    {left : FinalizeSummary H} (hleft : Summarizes backend parent left)
    (hreported : Reported backend block (some left) after) :
    (∀ summary, after = some summary → Exact backend block (.fromSummary summary)) ↔
      ∀ leaf ∈ backend.leaves, backend.tree.Extends block.parentHash leaf ∨
        backend.tree.Extends leaf block.parentHash := by
  have hinline := inline_iff_not_stale (BlockTree.header_self hparent)
  rw [backend.tree.hash_eq hparent] at hinline
  rw [hinline]
  obtain ⟨displaced, hdisplaced, rfl⟩ := hreported
  simp only [Option.some.injEq, forall_eq']
  constructor
  · intro hexact other hstale
    obtain ⟨first, hfirst⟩ : ∃ isHead : Bool, isHead = true ↔ Displaced backend parent other := by
      classical exact ⟨decide _, decide_eq_true_iff⟩
    obtain ⟨second, hsecond⟩ : ∃ isHead : Bool, isHead = true ↔ Displaced backend block other := by
      classical exact ⟨decide _, decide_eq_true_iff⟩
    have hnodup := hexact.once
    rw [FinalityNotification.fromSummary, Backend.extendSummary, List.map_append,
      List.nodup_append] at hnodup
    exact hnodup.2.2 other
      (List.mem_map.mpr ⟨_, (hleft.stale other first).mpr ⟨hstale, hfirst⟩, rfl⟩) other
      (List.mem_map.mpr ⟨_, (mem_staleBlocks hdisplaced other second).mpr
        ⟨hstale.child hunknown hparent, hsecond⟩, rfl⟩) rfl
  · intro hnone
    have hempty : left.staleBlocks = [] := List.eq_nil_iff_forall_not_mem.mpr fun stale hstale =>
      hnone stale.hash ((hleft.stale stale.hash stale.isHead).mp hstale).1
    refine Summarizes.exact ⟨rfl, hleft.path.child hparent, ?_, ?_⟩
    · simp only [Backend.extendSummary, hempty, List.nil_append]
      exact mem_staleBlocks hdisplaced
    · simp only [Backend.extendSummary, hempty, List.nil_append]
      exact nodup_staleBlocks hdisplaced

end

variable {origin : BlockOrigin}

theorem notified_exact_iff [Inhabited H] (hunknown : backend.tree.header block.hash = none)
    (hparent : backend.tree.header block.parentHash = some parent)
    {before after : Option (FinalizeSummary H)} {reorganizes : Bool}
    (hbefore : if block.parentHash ≠ backend.info.finalizedHash ∧
        origin.makeNotifications = true then
      ∃ left, before = some left ∧ Summarizes backend parent left else before = none)
    (hafter : if origin.makeNotifications || reorganizes then
      Reported backend block before after else after = before) :
    (∀ summary, after = some summary → Exact backend block (.fromSummary summary)) ↔
      block.parentHash = backend.info.finalizedHash ∨
        if origin.makeNotifications = true then
          ∀ leaf ∈ backend.leaves, backend.tree.Extends block.parentHash leaf ∨
            backend.tree.Extends leaf block.parentHash
        else reorganizes = false := by
  by_cases hlast : block.parentHash = backend.info.finalizedHash
  · -- nothing is finalized but the block
    rw [if_neg (fun h => h.1 hlast)] at hbefore
    refine iff_of_true ?_ (.inl hlast)
    split_ifs at hafter
    · exact (exact_alone_iff (hbefore ▸ hafter)).mpr hlast
    · simp [hafter.trans hbefore]
  · rw [or_iff_right hlast]
    cases hloud : origin.makeNotifications with
    | true =>
      obtain ⟨left, hsome, hsummarizes⟩ := if_pos (⟨hlast, hloud⟩ : _ ∧ _) ▸ hbefore
      rw [hloud, Bool.true_or, if_pos rfl] at hafter
      rw [if_pos rfl]
      exact exact_child_iff hunknown hparent hsummarizes (hsome ▸ hafter)
    | false =>
      rw [if_neg (fun h => by simp [hloud] at h)] at hbefore
      rw [if_neg (by simp)]
      rw [hloud, Bool.false_or] at hafter
      cases reorganizes with
      | false =>
        rw [if_neg (by simp)] at hafter
        simp [hafter.trans hbefore]
      | true =>
        rw [if_pos rfl] at hafter
        rw [exact_alone_iff (hbefore ▸ hafter)]
        exact iff_of_false hlast (by simp)

section

variable (hsound : Sound backend.tree cache)
include hsound

theorem Backend.finalizeParent_ends
    (hparent : backend.tree.header block.parentHash = some parent) :
    Program.Ends (backend.finalizeParent .begin block true origin) cache
      (fun next t =>
        (if block.parentHash ≠ backend.info.finalizedHash ∧ origin.makeNotifications = true then
          ∃ left, next.notifyFinalized = some left ∧ Summarizes backend parent left
        else next.notifyFinalized = none) ∧ Sound backend.tree t)
      fun error _ => error = .notInFinalizedChain := by
  have hself := backend.tree.hash_eq hparent
  have hknown := BlockTree.header_self hparent
  unfold Backend.finalizeParent
  by_cases heq : block.parentHash = backend.info.finalizedHash
  · rw [if_neg (fun h => h.2.2 heq.symm)]
    refine .pure ⟨?_, hsound⟩
    rw [if_neg (fun h => h.1 heq)]
    rfl
  · rw [if_pos ⟨rfl, by rw [hparent]; rfl, fun h => heq h.symm⟩]
    rw [← hself] at heq ⊢
    refine (Backend.applyFinalityWithBlockHash_ends .begin origin.makeNotifications hsound hknown
      heq).imp fun next t hpost => ?_
    obtain ⟨hnotifies, hsound⟩ := hpost
    unfold Notifies at hnotifies
    refine ⟨?_, hsound⟩
    simpa [heq, ClientImportOperation.begin] using hnotifies

theorem Backend.summarizeImport_returns {operation : ClientImportOperation H}
    (hblock : Attachable backend.tree block) :
    Program.Returns (backend.summarizeImport operation block) cache fun next _ =>
      Reported backend block operation.notifyFinalized next.notifyFinalized := by
  obtain ⟨parent, hparent, -⟩ := hblock.parent
  unfold Backend.summarizeImport
  rw [if_pos (by rw [hparent]; rfl)]
  exact .bind (Backend.displacedLeavesAfterFinalizing_returns hsound hblock)
    fun displaced t hpost => .pure ⟨displaced, hpost.1, rfl⟩

theorem Backend.reorganization_returns {isNewBest : Bool}
    (hparent : backend.tree.header block.parentHash = some parent) :
    Program.Returns (backend.reorganization block isNewBest) cache fun route t =>
      (route.isSome = false ↔ backend.info.bestHash = block.parentHash ∨ isNewBest = false) ∧
        Sound backend.tree t := by
  obtain ⟨best, hbest⟩ := backend.best_known
  unfold Backend.reorganization
  split_ifs with hreorganizes
  · refine .bind (Backend.treeRoute_returns hsound hbest hparent)
      fun route t hpost => ?_
    refine .pure ⟨iff_of_false (by simp) ?_, hpost.2⟩
    rintro (heq | hold)
    · exact hreorganizes.2.1 heq
    · simp [hold] at hreorganizes
  · refine .pure ⟨iff_of_true rfl ?_, hsound⟩
    simpa [hparent, or_comm, imp_iff_not_or] using hreorganizes

theorem Backend.notifyImport_returns {operation : ClientImportOperation H}
    {isNewBest everyBlock : Bool} {treeRoute : Option (TreeRoute H)}
    (hblock : Attachable backend.tree block) :
    Program.Returns (backend.notifyImport operation origin block true isNewBest everyBlock
        treeRoute) cache fun next _ =>
      if origin.makeNotifications || treeRoute.isSome then
        Reported backend block operation.notifyFinalized next.notifyFinalized
      else next.notifyFinalized = operation.notifyFinalized := by
  unfold Backend.notifyImport
  cases hrecent : origin.makeNotifications || treeRoute.isSome with
  | true =>
    simp only [Bool.or_true, Bool.and_self, if_true]
    exact .bind (Backend.summarizeImport_returns hsound hblock) fun next t hpost => .pure hpost
  | false =>
    simp only [Bool.or_false, Bool.and_false]
    cases everyBlock <;> exact .pure rfl

theorem Backend.executeAndImportBlock_ends [Inhabited H] {forkChoice : ForkChoiceStrategy}
    {importExisting everyBlock : Bool}
    (hunknown : backend.tree.header block.hash = none)
    (hparent : backend.tree.header block.parentHash = some parent)
    (hnumber : parent.number + 1 = block.number) :
    Program.Ends (backend.executeAndImportBlock .begin origin block true forkChoice
        importExisting everyBlock) cache
      (fun result _ => (∀ summary, result.2.notifyFinalized = some summary →
          Exact backend block (.fromSummary summary)) ↔
        (FinalityCall.importFinalized origin block forkChoice importExisting
          everyBlock).Regular backend)
      fun error _ => error = .notInFinalizedChain := by
  have hattachable : Attachable backend.tree block := by
    refine ⟨⟨parent, hparent, hnumber⟩, fun hknown => ?_⟩
    rw [hunknown] at hknown
    cases hknown
  unfold Backend.executeAndImportBlock
  rw [hunknown]
  simp only [Option.isSome_none, Bool.false_and, Bool.false_eq_true, if_false, Bool.not_false,
    Bool.true_and]
  split_ifs
  · exact .throw rfl
  · refine .seq (Backend.finalizeParent_ends hsound hparent) fun operation t hpost => ?_
    obtain ⟨hleft, hsound⟩ := hpost
    refine .seq (Backend.reorganization_returns hsound hparent).ends fun route t hpost => ?_
    obtain ⟨hroute, hsound⟩ := hpost
    refine .seq (Backend.notifyImport_returns hsound hattachable).ends fun next t hpost => .pure ?_
    have hgap : backend.isNewBest block true forkChoice = false ↔
        backend.isGapBlock block = true := by simp [Backend.isNewBest]
    rw [hgap] at hroute
    dsimp only [FinalityCall.Regular] at hpost ⊢
    rw [notified_exact_iff hunknown hparent hleft hpost, hroute]

end

/-- Every call that finalizes a block stops at a block that is not above the last finalized one,
or its notification tells exactly what was finalized and what became stale if and only if the call
is regular. -/
theorem FinalityCall.run_exact [Inhabited H] {call : FinalityCall H}
    (hsound : Sound backend.tree cache) (hcall : call.Finalizes backend block) :
    Program.Ends (call.run backend) cache
      (fun operation _ => (∀ summary, operation.notifyFinalized = some summary →
        Exact backend block (.fromSummary summary)) ↔ call.Regular backend)
      fun error _ => error = .notInFinalizedChain := by
  cases call with
  | applyFinality hash =>
    have hself := backend.tree.hash_eq hcall
    have hknown := BlockTree.header_self hcall
    subst hself
    by_cases heq : block.hash = backend.info.finalizedHash
    · show Program.Ends (backend.applyFinalityWithBlockHash _ _ _) _ _ _
      unfold Backend.applyFinalityWithBlockHash
      rw [if_pos heq]
      exact .pure (iff_of_true nofun trivial)
    · refine (Backend.applyFinalityWithBlockHash_ends .begin true hsound hknown heq).imp
        fun operation t hpost => ?_
      obtain ⟨summary, hsummary, hsummarizes⟩ := hpost.1
      refine iff_of_true (fun other hother => ?_) trivial
      rw [hsummary] at hother
      cases hother
      exact hsummarizes.exact
  | importFinalized origin header forkChoice importExisting everyBlock =>
    obtain ⟨rfl, hunknown, parent, hparent, hnumber⟩ := hcall
    exact .seq (Backend.executeAndImportBlock_ends hsound hunknown hparent hnumber)
      fun result t hpost => .pure hpost

end Proofs

/-! ## Blocks on two branches -/

def forkTree : HeaderTree Nat :=
  .ofHeaders [⟨1, 0, 0⟩, ⟨2, 1, 1⟩, ⟨3, 1, 1⟩, ⟨4, 2, 2⟩, ⟨6, 3, 4⟩]
    (by decide) (by decide) (by decide)

def forkBackend (bestHash : Nat) (leaves : List Nat)
    (hbest : (forkTree.header bestHash).isSome)
    (hleaves : ∀ leaf ∈ leaves, (forkTree.header leaf).isSome) : Backend Nat where
  tree := forkTree
  leaves := leaves
  info := ⟨bestHash, 3, 1, 1, 0, none⟩
  leaves_known leaf hleaf := Option.isSome_iff_exists.mp (hleaves leaf hleaf)
  best_known := Option.isSome_iff_exists.mp hbest
  finalized_known := ⟨⟨1, 0, 0⟩, rfl⟩
  genesis_known := ⟨⟨1, 0, 0⟩, rfl, rfl⟩

def forkImport (origin : BlockOrigin) : FinalityCall Nat :=
  .importFinalized origin ⟨5, 3, 4⟩ .longestChain false false

def summaryOf (call : FinalityCall Nat) (backend : Backend Nat) : Option (FinalizeSummary Nat) :=
  match (call.run backend).run ⟨8, []⟩ with
  | .ok operation _ => operation.notifyFinalized
  | .error _ _ => none

theorem exact_of_summaryOf {call : FinalityCall Nat} {backend : Backend Nat}
    {block : Header Nat} {summary : FinalizeSummary Nat} {E : ServiceError Nat → _ → Prop}
    (h : Program.Ends (call.run backend) ⟨8, []⟩
      (fun operation _ => (∀ summary, operation.notifyFinalized = some summary →
        Exact backend block (.fromSummary summary)) ↔ call.Regular backend) E)
    (hregular : call.Regular backend) (hsummary : summaryOf call backend = some summary) :
    Exact backend block (.fromSummary summary) := by
  unfold Program.Ends at h
  unfold summaryOf at hsummary
  cases hrun : (call.run backend).run ⟨8, []⟩ with
  | ok operation t =>
    rw [hrun] at h hsummary
    exact h.mpr hregular summary hsummary
  | error fault t =>
    rw [hrun] at hsummary
    cases hsummary

theorem FinalityCall.run_exact_inline :
    summaryOf (forkImport .own) (forkBackend 6 [6] (by decide) (by decide)) =
        some ⟨⟨5, 3, 4⟩, [2, 4, 5], [⟨6, true⟩]⟩ ∧
      Exact (forkBackend 6 [6] (by decide) (by decide)) ⟨5, 3, 4⟩
        ⟨5, ⟨5, 3, 4⟩, [2, 4], [⟨6, true⟩]⟩ := by
  have hsummary : summaryOf (forkImport .own) (forkBackend 6 [6] (by decide) (by decide)) =
      some ⟨⟨5, 3, 4⟩, [2, 4, 5], [⟨6, true⟩]⟩ := by decide +kernel
  have hregular : (forkImport .own).Regular (forkBackend 6 [6] (by decide) (by decide)) := by
    refine .inr fun leaf hleaf => .inl ?_
    cases List.mem_singleton.mp hleaf
    exact .step (x := ⟨6, 3, 4⟩) rfl (.refl (x := ⟨4, 2, 2⟩) rfl)
  have hfinalizes : (forkImport .own).Finalizes (forkBackend 6 [6] (by decide) (by decide))
      ⟨5, 3, 4⟩ := ⟨rfl, rfl, ⟨4, 2, 2⟩, rfl, rfl⟩
  exact ⟨hsummary,
    exact_of_summaryOf (FinalityCall.run_exact (sound_empty 8) hfinalizes) hregular hsummary⟩

/-- Block 3 is told twice, for the parent and for the block itself. A block of the initial sync is
told without the blocks that were finalized before it. -/
theorem FinalityCall.run_inexact :
    (∃ summary,
      summaryOf (forkImport .own) (forkBackend 6 [3, 6] (by decide) (by decide)) = some summary ∧
        ¬ Exact (forkBackend 6 [3, 6] (by decide) (by decide)) ⟨5, 3, 4⟩ (.fromSummary summary)) ∧
      ∃ summary,
        summaryOf (forkImport .networkInitialSync)
            (forkBackend 3 [3, 6] (by decide) (by decide)) = some summary ∧
          ¬ Exact (forkBackend 3 [3, 6] (by decide) (by decide)) ⟨5, 3, 4⟩
            (.fromSummary summary) := by
  constructor
  · refine ⟨⟨⟨5, 3, 4⟩, [2, 4, 5], [⟨3, true⟩, ⟨3, true⟩, ⟨6, true⟩]⟩, by decide +kernel,
      fun hexact => ?_⟩
    exact absurd hexact.once (by decide)
  · refine ⟨⟨⟨5, 3, 4⟩, [5], [⟨3, true⟩, ⟨6, true⟩]⟩, by decide +kernel, fun hexact => ?_⟩
    obtain ⟨below, hbelow, hpath⟩ := hexact.path
    have hnone : below = [] := by simpa [FinalityNotification.fromSummary] using hpath
    subst hnone
    cases hbelow

end PolkadotSdk.Service
