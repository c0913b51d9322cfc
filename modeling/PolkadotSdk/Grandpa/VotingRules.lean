import Mathlib
import PolkadotSdk.Blockchain.HeaderMetadata
import PolkadotSdk.Grandpa.AuthoritySet

/-! # The target of a vote

A voter votes for the finality target of its chain selection, moved back to the earliest pending
change of the authorities and then by voting rules, each of which sees the target that the rules
before it have left. Block numbers are `bits` wide and their sums wrap; a difference below zero
is a panic.
-/

namespace PolkadotSdk.Grandpa

open Blockchain

variable {H A E : Type}

/-! ## Model -/

inductive VotingRule where
  | unit
  | beforeBestBlockBy (n : Nat)
  | threeQuartersOfTheUnfinalizedChain
  | votingRules (rules : List VotingRule)

structure SelectChain (H E : Type) where
  finalityTarget : H → Except E H
  bestChain : Except E (Header H)

section Model

variable (tree : HeaderTree H) (bits : Nat)

def wrap (number : Nat) : Nat := number % 2 ^ bits

def walkBack (targetNumber : Nat) (targetHash : H) (targetHeader : Header H) :
    Client H (H × Header H) :=
  Program.loop (fun (_, header) =>
    if header.number < targetNumber then throw .panic
    else if header.number = targetNumber then pure none
    else
      match tree.header header.parentHash with
      | none => throw .panic
      | some parent => pure (some (header.parentHash, parent)))
    (targetHeader.number + 1) (targetHash, targetHeader)

def findTarget (targetNumber : Nat) (current : Header H) : Client H (Option (H × Nat)) := do
  let (targetHash, _) ← walkBack tree targetNumber current.hash current
  pure (some (targetHash, targetNumber))

namespace VotingRule

def restrictBefore (n : Nat) (base best current : Header H) : Client H (Option (H × Nat)) :=
  if current.number = 0 then pure none
  else if best.number < wrap bits (base.number + n) then pure (some (base.hash, base.number))
  else
    let targetNumber := best.number - n
    if current.number ≤ targetNumber then pure none else findTarget tree targetNumber current

def restrictThreeQuarters (base best current : Header H) : Client H (Option (H × Nat)) :=
  if best.number < base.number then throw .panic
  else
    let diff := best.number - base.number
    let diff := wrap bits (wrap bits (diff * 3) + 2) / 4
    let targetNumber := wrap bits (base.number + diff)
    if current.number ≤ targetNumber then pure none else findTarget tree targetNumber current

/-- The target after a rule: votes are restricted within the interval from the base on, up to
the target itself. -/
def narrow (base restricted : Header H) (vote : Option (H × Nat)) : Header H :=
  let vote := vote.filter fun (_, number) =>
    decide (base.number ≤ number ∧ number < restricted.number)
  (vote.bind fun (hash, _) => tree.header hash).getD restricted

variable [DecidableEq H]

mutual

def restrictVote (base best : Header H) : VotingRule → Header H → Client H (Option (H × Nat))
  | .unit, _ => pure none
  | .beforeBestBlockBy n, current => restrictBefore tree bits n base best current
  | .threeQuartersOfTheUnfinalizedChain, current =>
    restrictThreeQuarters tree bits base best current
  | .votingRules rules, current => do
    let restricted ← restrictAll base best rules current
    if restricted.hash ≠ current.hash then pure (some (restricted.hash, restricted.number))
    else pure none

def restrictAll (base best : Header H) : List VotingRule → Header H → Client H (Header H)
  | [], restricted => pure restricted
  | rule :: rules, restricted => do
    let vote ← restrictVote base best rule restricted
    restrictAll base best rules (narrow tree base restricted vote)

end

end VotingRule

variable [DecidableEq H]

def consistentBest (target best : Header H) : Client H (Header H) :=
  if best.number < target.number ∨ target.number = best.number ∧ target.hash ≠ best.hash then
    pure target
  else do
    let descends ← isDescendentOf tree none target.hash best.hash
    pure (if descends then best else target)

def limitTarget (limit : Option Nat) (target : Header H) : Client H (Header H) :=
  match limit.filter fun limit => decide (limit < target.number) with
  | none => pure target
  | some targetNumber => do
    let (_, header) ← walkBack tree targetNumber target.hash target
    pure header

def finalityTarget (select : SelectChain H E) (block : H) (base : Header H) :
    Client H (Header H) :=
  match select.finalityTarget block with
  | .error _ => pure base
  | .ok hash =>
    match tree.header hash with
    | none => throw .panic
    | some header => pure header

def bestChainContaining (set : AuthoritySet H A) (select : SelectChain H E) (rule : VotingRule)
    (block : H) : Client H (Option (H × Nat)) :=
  match tree.header block with
  | none => pure none
  | some base => do
    let limit := set.currentLimit base.number
    let target ← finalityTarget tree select block base
    match select.bestChain with
    | .error _ => pure none
    | .ok best => do
      let best ← consistentBest tree target best
      let target ← limitTarget tree limit target
      let vote ← rule.restrictVote tree bits base best target
      let vote := vote.filter fun (_, number) =>
        decide (base.number ≤ number ∧ number < target.number)
      pure (some (vote.getD (target.hash, target.number)))

end Model

/-! ## Walking back -/

variable {tree : HeaderTree H} {bits : Nat} {cache : HeaderMetadataCache H}

theorem walkBack_returns {number : Nat} {block : H} {x : Header H}
    (hx : tree.header block = some x) (hle : number ≤ x.number) :
    Program.Returns (walkBack tree number block x) cache fun result t =>
      tree.header result.1 = some result.2 ∧ result.2.number = number ∧
        tree.Extends result.1 block ∧ t = cache := by
  refine .loop
    (I := fun result t => tree.header result.1 = some result.2 ∧ number ≤ result.2.number ∧
      tree.Extends result.1 block ∧ t = cache)
    (fun result => result.2.number) (fun result t hinv => ?_) (Nat.lt_succ_self _)
    ⟨hx, hle, .refl hx, rfl⟩
  obtain ⟨hash, header⟩ := result
  obtain ⟨hheader, hle, hextends, rfl⟩ := hinv
  dsimp only at hheader hle hextends ⊢
  rw [if_neg (by omega : ¬ header.number < number)]
  split_ifs with heq
  · exact .pure ⟨hheader, heq, hextends, rfl⟩
  · obtain ⟨parent, hparent, hnumber⟩ := tree.parent hheader (by omega)
    rw [hparent]
    refine .pure ⟨⟨hparent, ?_, ?_, rfl⟩, ?_⟩
    · dsimp only
      omega
    · exact (BlockTree.extends_parent hheader hparent).trans hextends
    · dsimp only
      omega

/-! ## Rules -/

def IsVote (tree : HeaderTree H) (target : Header H) (vote : Option (H × Nat)) : Prop :=
  ∀ hash number, vote = some (hash, number) →
    ∃ x, tree.header hash = some x ∧ x.number = number ∧ tree.Extends hash target.hash

theorem isVote_none (target : Header H) : IsVote tree target none := nofun

theorem findTarget_returns {number : Nat} {current : Header H}
    (hcurrent : tree.header current.hash = some current) (hle : number ≤ current.number) :
    Program.Returns (findTarget tree number current) cache fun vote t =>
      IsVote tree current vote ∧ t = cache := by
  refine .bind (walkBack_returns hcurrent hle) fun result t hpost => ?_
  obtain ⟨hknown, hnumber, hextends, rfl⟩ := hpost
  refine .pure ⟨?_, rfl⟩
  rintro hash number' heq
  cases heq
  exact ⟨result.2, hknown, hnumber, hextends⟩

/-- The blocks that the rules work on: the base, a target on a branch of it, and the number of
the best block. -/
structure Voting (tree : HeaderTree H) (base best target : Header H) : Prop where
  base_known : tree.header base.hash = some base
  target_known : tree.header target.hash = some target
  extends_base : tree.Extends base.hash target.hash
  base_le : base.number ≤ best.number

section Rules

variable {base best current : Header H}

theorem Voting.narrow {vote : Option (H × Nat)} (h : Voting tree base best current)
    (hvote : IsVote tree current vote) :
    Voting tree base best (VotingRule.narrow tree base current vote) ∧
      tree.Extends (VotingRule.narrow tree base current vote).hash current.hash := by
  have hself : tree.Extends current.hash current.hash := .refl h.target_known
  unfold VotingRule.narrow
  cases vote with
  | none => exact ⟨h, hself⟩
  | some pair =>
    obtain ⟨hash, number⟩ := pair
    obtain ⟨x, hx, hnumber, hextends⟩ := hvote hash number rfl
    by_cases hin : base.number ≤ number ∧ number < current.number
    · have hbase : tree.Extends base.hash hash :=
        h.extends_base.of_number_le hextends h.base_known hx (by omega)
      simp only [Option.filter, hin, and_self, decide_true, if_true, Option.bind_some, hx,
        Option.getD_some]
      rw [← tree.hash_eq hx] at hextends hbase
      exact ⟨⟨h.base_known, BlockTree.header_self hx, hbase, h.base_le⟩, hextends⟩
    · simpa [Option.filter, hin] using ⟨h, hself⟩

theorem Voting.narrow_eq {vote : Option (H × Nat)} (hvote : IsVote tree current vote) :
    (vote.filter fun (_, number) =>
        decide (base.number ≤ number ∧ number < current.number)).getD
      (current.hash, current.number) =
      ((VotingRule.narrow tree base current vote).hash,
        (VotingRule.narrow tree base current vote).number) := by
  unfold VotingRule.narrow
  cases vote with
  | none => rfl
  | some pair =>
    obtain ⟨hash, number⟩ := pair
    obtain ⟨x, hx, rfl, -⟩ := hvote hash number rfl
    by_cases hin : base.number ≤ x.number ∧ x.number < current.number
    · simp [Option.filter, hin, hx, tree.hash_eq hx]
    · simp [Option.filter, hin]

theorem restrictBefore_returns (h : Voting tree base best current) (n : Nat) :
    Program.Returns (VotingRule.restrictBefore tree bits n base best current) cache fun vote t =>
      IsVote tree current vote ∧ t = cache := by
  unfold VotingRule.restrictBefore
  split_ifs with hzero hbase
  · exact .pure ⟨isVote_none _, rfl⟩
  · refine .pure ⟨?_, rfl⟩
    rintro hash number heq
    cases heq
    exact ⟨base, h.base_known, rfl, h.extends_base⟩
  · dsimp only
    split_ifs with hle
    · exact .pure ⟨isVote_none _, rfl⟩
    · exact findTarget_returns h.target_known (by omega)

theorem restrictThreeQuarters_returns (h : Voting tree base best current) :
    Program.Returns (VotingRule.restrictThreeQuarters tree bits base best current) cache
      fun vote t => IsVote tree current vote ∧ t = cache := by
  unfold VotingRule.restrictThreeQuarters
  rw [if_neg (Nat.not_lt.mpr h.base_le)]
  dsimp only
  split_ifs with hle
  · exact .pure ⟨isVote_none _, rfl⟩
  · exact findTarget_returns h.target_known (by omega)

variable [DecidableEq H]

mutual

/-- Every rule returns, and what it returns is on the branch of the target. -/
theorem restrictVote_returns (rule : VotingRule) {base best current : Header H}
    (h : Voting tree base best current) :
    Program.Returns (rule.restrictVote tree bits base best current) cache fun vote t =>
      IsVote tree current vote ∧ t = cache := by
  match rule with
  | .unit =>
    rw [VotingRule.restrictVote]
    exact .pure ⟨isVote_none _, rfl⟩
  | .beforeBestBlockBy n =>
    rw [VotingRule.restrictVote]
    exact restrictBefore_returns h n
  | .threeQuartersOfTheUnfinalizedChain =>
    rw [VotingRule.restrictVote]
    exact restrictThreeQuarters_returns h
  | .votingRules rules =>
    rw [VotingRule.restrictVote]
    refine .bind (restrictAll_returns rules h) fun restricted t hpost => ?_
    obtain ⟨hvoting, hextends, rfl⟩ := hpost
    split_ifs with hne
    · refine .pure ⟨?_, rfl⟩
      rintro hash number heq
      cases heq
      exact ⟨restricted, hvoting.target_known, rfl, hextends⟩
    · exact .pure ⟨isVote_none _, rfl⟩

theorem restrictAll_returns (rules : List VotingRule) {base best current : Header H}
    (h : Voting tree base best current) :
    Program.Returns (VotingRule.restrictAll tree bits base best rules current) cache
      fun restricted t => Voting tree base best restricted ∧
        tree.Extends restricted.hash current.hash ∧ t = cache := by
  match rules with
  | [] =>
    rw [VotingRule.restrictAll]
    exact .pure ⟨h, .refl h.target_known, rfl⟩
  | rule :: rules =>
    rw [VotingRule.restrictAll]
    refine .bind (restrictVote_returns rule h) fun vote t hpost => ?_
    obtain ⟨hvote, ht⟩ := hpost
    obtain ⟨hnarrow, hextends⟩ := h.narrow hvote
    subst t
    refine (restrictAll_returns rules hnarrow).mono fun restricted t hpost => ?_
    exact ⟨hpost.1, hpost.2.1.trans hextends, hpost.2.2⟩

end

end Rules

/-! ## The target -/

section Target

variable [DecidableEq H] {base best target : Header H}

theorem consistentBest_returns (hsound : Sound tree cache)
    (htarget : tree.header target.hash = some target) (hbest : tree.header best.hash = some best) :
    Program.Returns (consistentBest tree target best) cache fun result t =>
      target.number ≤ result.number ∧ Sound tree t := by
  unfold consistentBest
  split_ifs with hinconsistent
  · exact .pure ⟨Nat.le_refl _, hsound⟩
  · refine .bind (isDescendentOf_returns hsound htarget hbest)
      fun descends t hpost => ?_
    refine .pure ⟨?_, hpost.2⟩
    split_ifs
    · omega
    · exact Nat.le_refl _

omit [DecidableEq H] in
theorem limitTarget_returns {limit : Option Nat} (hbase : tree.header base.hash = some base)
    (htarget : tree.header target.hash = some target)
    (hextends : tree.Extends base.hash target.hash) (hlimit : ∀ l ∈ limit, base.number ≤ l) :
    Program.Returns (limitTarget tree limit target) cache fun result t =>
      tree.header result.hash = some result ∧ tree.Extends base.hash result.hash ∧
        tree.Extends result.hash target.hash ∧ (∀ l ∈ limit, result.number ≤ l) ∧ t = cache := by
  unfold limitTarget
  cases limit with
  | none => exact .pure ⟨htarget, hextends, .refl htarget, nofun, rfl⟩
  | some l =>
    have hl := hlimit l rfl
    by_cases hlt : l < target.number
    · simp only [Option.filter, hlt, decide_true, if_true]
      refine .bind (walkBack_returns htarget (Nat.le_of_lt hlt))
        fun result t hpost => ?_
      obtain ⟨hknown, hnumber, hback, ht⟩ := hpost
      have hself := tree.hash_eq hknown
      refine .pure ⟨BlockTree.header_self hknown, ?_, ?_, ?_, ht⟩
      · rw [hself]
        exact hextends.of_number_le hback hbase hknown (by omega)
      · rw [hself]
        exact hback
      · rintro l' ⟨⟩
        exact Nat.le_of_eq hnumber
    · simp only [Option.filter, hlt, decide_false, Bool.false_eq_true, if_false]
      refine .pure ⟨htarget, hextends, .refl htarget, ?_, rfl⟩
      rintro l' ⟨⟩
      omega

omit [DecidableEq H] in
theorem currentLimit_le {set : AuthoritySet H A} {min : Nat} {limit : Nat}
    (h : set.currentLimit min = some limit) :
    min ≤ limit ∧ ∀ root ∈ set.pendingStandardChanges.roots,
      min ≤ root.data.effectiveNumber → limit ≤ root.data.effectiveNumber := by
  obtain ⟨hmem, hle⟩ := List.min?_eq_some_iff.mp h
  refine ⟨by simpa using (List.mem_filter.mp hmem).2, fun root hroot hmin => hle _ ?_⟩
  exact List.mem_filter.mpr ⟨List.mem_map_of_mem hroot, by simpa using hmin⟩

omit [DecidableEq H] in
theorem currentLimit_eq_none {set : AuthoritySet H A} {min : Nat}
    (h : set.currentLimit min = none) :
    ∀ root ∈ set.pendingStandardChanges.roots, ¬ min ≤ root.data.effectiveNumber := by
  intro root hroot hmin
  have hnil := List.min?_eq_none_iff.mp h
  have hmem : root.data.effectiveNumber ∈
      (set.pendingStandardChanges.roots.map fun root => root.data.effectiveNumber).filter
        fun number => decide (min ≤ number) :=
    List.mem_filter.mpr ⟨List.mem_map_of_mem hroot, by simpa using hmin⟩
  rw [hnil] at hmem
  cases hmem

def SelectChain.wanted (select : SelectChain H E) (block : H) : H :=
  match select.finalityTarget block with
  | .ok hash => hash
  | .error _ => block

omit [DecidableEq H] in
theorem finalityTarget_returns {select : SelectChain H E}
    (hbase : tree.header base.hash = some base)
    (hselect : ∀ hash, select.finalityTarget base.hash = .ok hash → tree.Extends base.hash hash) :
    Program.Returns (finalityTarget tree select base.hash base) cache fun target t =>
      tree.header target.hash = some target ∧ target.hash = select.wanted base.hash ∧
        tree.Extends base.hash target.hash ∧ t = cache := by
  unfold finalityTarget SelectChain.wanted
  cases hfinality : select.finalityTarget base.hash with
  | error e => exact .pure ⟨hbase, rfl, .refl hbase, rfl⟩
  | ok hash =>
    have hextends := hselect hash hfinality
    obtain ⟨target, htarget⟩ := hextends.known
    have hhash := tree.hash_eq htarget
    simp only [htarget]
    exact .pure
      ⟨BlockTree.header_self htarget, hhash, by rw [hhash]; exact hextends, rfl⟩

/-- The target of a vote is a block from the base on, on the branch of the finality target, and
not past a pending change that is effective at the base or later. -/
theorem bestChainContaining_within (tree : HeaderTree H) (bits : Nat)
    (cache : HeaderMetadataCache H) (hsound : Sound tree cache) (set : AuthoritySet H A)
    (select : SelectChain H E) (rule : VotingRule) (block : H) (base best : Header H)
    (hbase : tree.header block = some base)
    (hselect : ∀ hash, select.finalityTarget block = .ok hash → tree.Extends block hash)
    (hbestChain : select.bestChain = .ok best) (hbest : tree.header best.hash = some best) :
    Program.Returns (bestChainContaining tree bits set select rule block) cache fun vote t =>
      ∃ header, vote = some (header.hash, header.number) ∧
        tree.header header.hash = some header ∧ tree.Extends block header.hash ∧
        tree.Extends header.hash (select.wanted block) ∧
        (∀ root ∈ set.pendingStandardChanges.roots, base.number ≤ root.data.effectiveNumber →
          header.number ≤ root.data.effectiveNumber) ∧
        Sound tree t := by
  obtain rfl := tree.hash_eq hbase
  unfold bestChainContaining
  simp only [hbase, hbestChain]
  refine .bind (finalityTarget_returns hbase hselect) fun target t hpost => ?_
  obtain ⟨htarget, hwanted, hextends, ht⟩ := hpost
  subst t
  refine .bind (consistentBest_returns hsound htarget hbest)
    fun best t hpost => ?_
  obtain ⟨hle, hsound⟩ := hpost
  have hlimit : ∀ l ∈ set.currentLimit base.number, base.number ≤ l :=
    fun l hl => (currentLimit_le hl).1
  refine .bind (limitTarget_returns hbase htarget hextends hlimit)
    fun limited t hpost => ?_
  obtain ⟨hknown, hfrom, hto, hlimited, ht⟩ := hpost
  subst t
  have hvoting : Voting tree base best limited :=
    ⟨hbase, hknown, hfrom, (hextends.number_le hbase htarget).1.trans hle⟩
  refine .bind (restrictVote_returns rule hvoting) fun vote t hpost => ?_
  obtain ⟨hvote, ht⟩ := hpost
  subst t
  -- the final filter is the one that every rule of a composite goes through
  obtain ⟨hchosen, hback⟩ := hvoting.narrow hvote
  refine .pure ⟨VotingRule.narrow tree base limited vote, ?_, hchosen.target_known,
    hchosen.extends_base, hwanted ▸ hback.trans hto, fun root hroot hmin => ?_, hsound⟩
  · rw [Voting.narrow_eq hvote]
  · have hnumber := (hback.number_le hchosen.target_known hknown).1
    cases hcurrent : set.currentLimit base.number with
    | none => exact absurd hmin (currentLimit_eq_none hcurrent root hroot)
    | some l =>
      have hl := hlimited l hcurrent
      have hroot := (currentLimit_le hcurrent).2 root hroot hmin
      omega

end Target

def pendingAtFour : AuthoritySet (Option (List Bool)) Unit where
  currentAuthorities := []
  setId := 0
  pendingStandardChanges :=
    ⟨[⟨some [true], 1, ⟨[((), 1)], 3, 1, some [true], .finalized⟩, []⟩], none⟩
  pendingForcedChanges := []
  authoritySetChanges := []

def selectFive : SelectChain (Option (List Bool)) Unit where
  finalityTarget _ := .ok (some [true, true, true, true, true])
  bestChain := .ok ⟨some [true, true, true, true, true], 5, some [true, true, true, true]⟩

/-- The pending change moves the vote back to block 4, and the first rule to block 3. -/
theorem bestChainContaining_within_limited :
    ∃ header : Header (Option (List Bool)),
      (bestChainContaining (.binary 5) 32 pendingAtFour selectFive
        (.votingRules [.beforeBestBlockBy 2, .threeQuartersOfTheUnfinalizedChain])
        (some [])).run ⟨1, []⟩ = .ok (some (header.hash, header.number)) ⟨1, []⟩ ∧
      header.number = 3 ∧ (HeaderTree.binary 5).Extends (some []) header.hash ∧
      (HeaderTree.binary 5).Extends header.hash (some [true, true, true, true, true]) := by
  have hwithin := bestChainContaining_within (.binary 5) 32 ⟨1, []⟩ (sound_empty 1) pendingAtFour
    selectFive (.votingRules [.beforeBestBlockBy 2, .threeQuartersOfTheUnfinalizedChain]) (some [])
    ⟨some [], 0, none⟩ _ rfl ?_ rfl rfl
  · obtain ⟨vote, t, hrun, header, rfl, -, hbase, hwanted, -⟩ := hwithin
    have heval : (bestChainContaining (.binary 5) 32 pendingAtFour selectFive
        (.votingRules [.beforeBestBlockBy 2, .threeQuartersOfTheUnfinalizedChain])
        (some [])).run ⟨1, []⟩ = .ok (some (some [true, true, true], 3)) ⟨1, []⟩ := rfl
    rw [heval] at hrun
    injection hrun with hvote ht
    injection hvote with hvote
    injection hvote with hhash hnumber
    exact ⟨header, by rw [heval, hhash, hnumber], hnumber.symm, hbase, hwanted⟩
  · rintro hash ⟨⟩
    exact HeaderTree.extends_genesis (x := ⟨some [], 0, none⟩)
      (y := ⟨some [true, true, true, true, true], 5, some [true, true, true, true]⟩) rfl rfl rfl

end PolkadotSdk.Grandpa
