import PolkadotSdk.Grandpa.SetChanges

/-! # The forecast of an enactment

Before a block is finalized, `enactsStandardChange` looks for a pending change that becomes
effective at exactly this block, anywhere in the tree. The enactment looks for one that is
effective by then, among the roots only. On a tree with the shape of the chain the two agree.
-/

namespace PolkadotSdk.Grandpa.AuthoritySet

open ForkTree

variable {H A E : Type} [DecidableEq H] {chain : Ancestry H Nat} {set : AuthoritySet H A} {hash : H}

omit [DecidableEq H] in
theorem keepForced_answer (E : Type) (chain : Ancestry H Nat) (hash : H) (number : Nat)
    (changes : List (PendingChange H A)) :
    ∃ kept, keepForced (chain.answer E) hash number changes = .ok kept := by
  induction changes with
  | nil => exact ⟨[], rfl⟩
  | cons change rest ih =>
    obtain ⟨kept, hkept⟩ := ih
    rw [keepForced, hkept]
    split_ifs <;> exact ⟨_, rfl⟩

theorem enactsStandardChange_some {number : Nat} {enacts : Bool}
    (h : set.enactsStandardChange (chain.answer E) hash number = .ok (some enacts)) :
    set.pendingStandardChanges.reverts number = false ∧
      ∃ node, Found hash number (chain.answer E)
          (fun change : PendingChange H A => decide (change.effectiveNumber = number))
          (nodesOf set.pendingStandardChanges.roots) node ∧
        enacts = set.pendingStandardChanges.roots.any fun root => decide (root.hash = node.hash) := by
  unfold enactsStandardChange at h
  split at h
  · cases h
  · rename_i found hfinalizes
    cases h
    unfold finalizesAnyWithDescendentIf at hfinalizes
    split_ifs at hfinalizes with hreverts
    obtain ⟨found, hfound, hany⟩ := except_bind_eq_ok hfinalizes
    rw [nodeIter_eq] at hfound
    cases found with
    | none => cases hany
    | some entry =>
      cases hany
      exact ⟨by simpa using hreverts, entry.2, findFinalized_some hfound, rfl⟩

theorem applyStandardChanges_root {number : Nat} (h : Shaped chain set.pendingStandardChanges.roots)
    (hreverts : set.pendingStandardChanges.reverts number = false)
    {root : Node H Nat (PendingChange H A)} (hroot : root ∈ set.pendingStandardChanges.roots)
    (heffective : root.data.effectiveNumber ≤ number)
    (hbranch : chain.equalOrDescendent root.hash hash = true) :
    if root.children.any fun child =>
        decide (child.number ≤ number) && chain.equalOrDescendent child.hash hash
    then set.applyStandardChanges (chain.answer E) hash number =
      .error (.forkTree .unfinalizedAncestor)
    else ∃ set', set.applyStandardChanges (chain.answer E) hash number =
        .ok (set', ⟨true, some (hash, number)⟩) ∧
      set'.setId = set.setId + 1 ∧ set'.currentAuthorities = root.data.nextAuthorities := by
  obtain ⟨tree', hfinalize⟩ := finalizeWithDescendentIf_answer E
    (fun change : PendingChange H A => decide (change.effectiveNumber ≤ number)) h hreverts hroot
    (decide_eq_true heffective) hbranch
  obtain ⟨kept, hkept⟩ := keepForced_answer E chain hash number set.pendingForcedChanges
  unfold applyStandardChanges
  rw [hfinalize]
  split_ifs
  · rfl
  · exact ⟨_, by simp only [hkept, bind, Except.bind]; rfl, rfl, rfl⟩

/-- Where the forecast says that a change is enacted, the one root on the branch of the block is;
where it says that the change has to wait, nothing is enacted. -/
theorem forecast_agrees (h : HasShape chain set.pendingStandardChanges.roots) (hash : H) :
    let roots := set.pendingStandardChanges.roots
    let number := chain.number hash
    (set.enactsStandardChange (chain.answer E) hash number = .ok (some true) →
      ∃ set' root, set.applyStandardChanges (chain.answer E) hash number =
          .ok (set', ⟨true, some (hash, number)⟩) ∧
        set'.setId = set.setId + 1 ∧ set'.currentAuthorities = root.data.nextAuthorities ∧
        ∀ other, other ∈ roots ∧ chain.equalOrDescendent other.hash hash = true ↔ other = root) ∧
    (set.enactsStandardChange (chain.answer E) hash number = .ok (some false) →
      ∀ set' status, set.applyStandardChanges (chain.answer E) hash number = .ok (set', status) →
        status.newSetBlock = none ∧ set'.setId = set.setId ∧
          set'.authoritySetChanges = set.authoritySetChanges ∧
          set'.currentAuthorities = set.currentAuthorities) := by
  intro roots number
  have hshaped := h.shaped
  constructor
  · intro hforecast
    obtain ⟨hreverts, node, hfound, hany⟩ := enactsStandardChange_some hforecast
    obtain ⟨root, hroot, hhash⟩ := List.any_eq_true.mp hany.symm
    have hnode : root = node :=
      hshaped.eq_of_hash (mem_nodesOf_of_mem hroot) hfound.mem (of_decide_eq_true hhash)
    subst hnode
    have hbranch := hfound.equalOrDescendent
    have happly := applyStandardChanges_root (E := E) hshaped hreverts hroot
      (of_decide_eq_true hfound.passes).le hbranch
    have hstops := hfound.stops
    rw [passesChild_answer] at hstops
    rw [Except.ok.inj hstops] at happly
    obtain ⟨set', happly, hid, hauthorities⟩ := happly
    refine ⟨set', root, happly, hid, hauthorities, fun other => ⟨?_, ?_⟩⟩
    · rintro ⟨hother, hotherBranch⟩
      exact hshaped.eq_of_equalOrDescendent hother hroot hotherBranch hbranch
    · rintro rfl
      exact ⟨hroot, hbranch⟩
  · intro hforecast set' status happly
    obtain ⟨hreverts, node, hfound, hany⟩ := enactsStandardChange_some hforecast
    have hnot : node ∉ roots := fun hnode => by
      simpa using List.any_eq_false.mp hany.symm node hnode
    obtain ⟨root, hroot, hbelow, child, hchild, hdown⟩ :=
      hshaped.root_of_not_root hfound.mem hnot
    have hpast := Ancestry.equalOrDescendent_trans hdown hfound.equalOrDescendent
    have hbranch := Ancestry.equalOrDescendent_trans
      (Ancestry.equalOrDescendent_of_descendent hbelow) hfound.equalOrDescendent
    by_cases heffective : root.data.effectiveNumber ≤ number
    · -- the root would be finalized, but the block is past its child
      have hnumber : child.number ≤ number := by
        rw [(hshaped.tree hroot).children.number_eq child (mem_nodesOf_of_mem hchild)]
        exact Ancestry.number_le hpast
      have happly' := applyStandardChanges_root (E := E) hshaped hreverts hroot heffective hbranch
      rw [if_pos (List.any_eq_true.mpr ⟨child, hchild, by simp [hnumber, hpast]⟩), happly] at happly'
      cases happly'
    · rcases applyStandardChanges_history happly with
        hnothing | ⟨-, -, -, other, hother, hother', hotherBranch⟩
      · exact hnothing
      · have heq := hshaped.eq_of_equalOrDescendent hother hroot (by
          simpa [Ancestry.equalOrDescendent, Ancestry.answer] using hotherBranch) hbranch
        exact absurd (heq ▸ hother') heffective

def twoPending : AuthoritySet (List Nat) Nat :=
  ⟨[(0, 1)], 0, ⟨[⟨[1], 1, ⟨[(1, 1)], 1, 1, [1], .finalized⟩,
    [⟨[1, 2], 2, ⟨[(2, 1)], 1, 2, [1, 2], .finalized⟩, []⟩]⟩], none⟩, [], []⟩

theorem twoPending_hasShape : HasShape (pathAncestry ℕ) twoPending.pendingStandardChanges.roots :=
  Shaped.hasShape <| .cons rfl (by decide)
    (.cons rfl (by decide) .nil (fun _ _ _ hx => nomatch hx) .nil) (fun _ _ _ hx => nomatch hx) .nil

/-- Block `[1, 3]` enacts the first change. At `[1, 2, 4]` the second would be due. -/
theorem forecast_agrees_twoPending :
    (∃ set', twoPending.applyStandardChanges ((pathAncestry ℕ).answer Unit) [1, 3] 2 =
        .ok (set', ⟨true, some ([1, 3], 2)⟩)) ∧
      ∀ set' status, twoPending.applyStandardChanges ((pathAncestry ℕ).answer Unit) [1, 2, 4] 3 =
        .ok (set', status) → status.newSetBlock = none := by
  constructor
  · obtain ⟨set', root, happly, -⟩ :=
      (forecast_agrees (E := Unit) twoPending_hasShape [1, 3]).1 rfl
    exact ⟨set', happly⟩
  · intro set' status happly
    exact ((forecast_agrees (E := Unit) twoPending_hasShape [1, 2, 4]).2 rfl set' status happly).1

end PolkadotSdk.Grandpa.AuthoritySet
