import PolkadotSdk.ForkTree.Shape

/-! # Finalization under a predicate

What a successful `finalizeWithDescendentIf` found among the roots, and the roots it leaves.
-/

namespace PolkadotSdk

namespace ForkTree

variable {H N V E : Type}

section Finalization

variable [DecidableEq H] [LinearOrder N] {hash : H} {number : N}
  {isDescendentOf : H → H → Except E Bool} {predicate : V → Bool}

structure Found (hash : H) (number : N) (isDescendentOf : H → H → Except E Bool)
    (predicate : V → Bool) (nodes : List (Node H N V)) (node : Node H N V) : Prop where
  mem : node ∈ nodes
  passes : predicate node.data = true
  reaches : equalOrDescendent hash isDescendentOf node.hash = .ok true
  stops : passesChild hash number isDescendentOf node.children = .ok false

theorem Found.cons {nodes : List (Node H N V)} {node : Node H N V}
    (h : Found hash number isDescendentOf predicate nodes node) (first : Node H N V) :
    Found hash number isDescendentOf predicate (first :: nodes) node :=
  ⟨List.mem_cons_of_mem _ h.mem, h.passes, h.reaches, h.stops⟩

omit [DecidableEq H] [LinearOrder N] in
theorem andAlso_eq_true {condition : Bool} {answer : Except (Error E) Bool}
    (h : andAlso condition answer = .ok true) : condition = true ∧ answer = .ok true := by
  cases condition with
  | false => cases h
  | true => exact ⟨rfl, h⟩

theorem equalOrDescendent_eq_true {nodeHash : H}
    (h : equalOrDescendent hash isDescendentOf nodeHash = .ok true) :
    nodeHash = hash ∨ isDescendentOf nodeHash hash = .ok true := by
  unfold equalOrDescendent at h
  split_ifs at h with heq
  · exact .inl heq
  · cases hanswer : isDescendentOf nodeHash hash with
    | error e => rw [hanswer] at h; cases h
    | ok answer =>
      rw [hanswer] at h
      cases h
      exact .inr rfl

theorem findFinalized_some {nodes : List (Node H N V)} {i j : Nat} {node : Node H N V}
    (h : findFinalized hash number isDescendentOf predicate i nodes = .ok (some (j, node))) :
    Found hash number isDescendentOf predicate nodes node := by
  induction nodes generalizing i with
  | nil => cases h
  | cons first rest ih =>
    rw [findFinalized] at h
    obtain ⟨hit, hhit, h⟩ := except_bind_eq_ok h
    split_ifs at h with hfirst
    · subst hfirst
      obtain ⟨passed, hpassed, h⟩ := except_bind_eq_ok h
      split_ifs at h with hstop
      cases h
      obtain ⟨hpasses, hreaches⟩ := andAlso_eq_true hhit
      exact ⟨List.mem_cons_self, hpasses, hreaches, by simpa [hstop] using hpassed⟩
    · exact (ih h).cons first

theorem findFinalized_none {nodes : List (Node H N V)} {i : Nat}
    (h : findFinalized hash number isDescendentOf predicate i nodes = .ok none) :
    ∀ node ∈ nodes,
      andAlso (predicate node.data) (equalOrDescendent hash isDescendentOf node.hash) =
        .ok false := by
  induction nodes generalizing i with
  | nil => simp
  | cons first rest ih =>
    rw [findFinalized] at h
    obtain ⟨hit, hhit, h⟩ := except_bind_eq_ok h
    split_ifs at h with hfirst
    · obtain ⟨passed, hpassed, h⟩ := except_bind_eq_ok h
      split_ifs at h
      cases h
    · rintro node (_ | ⟨_, hmem⟩)
      · simpa [hfirst] using hhit
      · exact ih h node hmem

theorem finalizeWithDescendentIf_cases {tree tree' : ForkTree H N V}
    {result : FinalizationResult V}
    (h : tree.finalizeWithDescendentIf hash number isDescendentOf predicate =
      .ok (tree', result)) :
    tree.reverts number = false ∧ tree'.bestFinalizedNumber = some number ∧ ∃ changed,
      (∃ node, Found hash number isDescendentOf predicate tree.roots node ∧
        result = .changed (some node.data) ∧
        retainRoots (retainsRoot hash number isDescendentOf) node.children =
          .ok (tree'.roots, changed)) ∨
      ((∀ node ∈ tree.roots,
          andAlso (predicate node.data) (equalOrDescendent hash isDescendentOf node.hash) =
            .ok false) ∧
        result = changedIf changed ∧
        retainRoots (retainsRoot hash number isDescendentOf) tree.roots =
          .ok (tree'.roots, changed)) := by
  unfold finalizeWithDescendentIf at h
  split_ifs at h with hreverts
  obtain ⟨found, hfound, h⟩ := except_bind_eq_ok h
  obtain ⟨⟨roots, changed⟩, hretain, h⟩ := except_bind_eq_ok h
  cases h
  refine ⟨by simpa using hreverts, rfl, changed, ?_⟩
  cases found with
  | none => exact .inr ⟨findFinalized_none hfound, rfl, hretain⟩
  | some entry => exact .inl ⟨entry.2, findFinalized_some hfound, rfl, hretain⟩

end Finalization

/-! ## With the answers of a chain -/

section Answers

variable [DecidableEq H]

def Ancestry.equalOrDescendent [LT N] (chain : Ancestry H N) (base block : H) : Bool :=
  decide (base = block) || chain.isDescendentOf base block

variable [LinearOrder N] {chain : Ancestry H N} {hash : H} {number : N} {predicate : V → Bool}

theorem Ancestry.equalOrDescendent_of_descendent {a b : H}
    (h : chain.isDescendentOf a b = true) : chain.equalOrDescendent a b = true := by
  simp [Ancestry.equalOrDescendent, h]

theorem Ancestry.equalOrDescendent_trans {a b c : H} (hab : chain.equalOrDescendent a b = true)
    (hbc : chain.equalOrDescendent b c = true) : chain.equalOrDescendent a c = true := by
  simp only [Ancestry.equalOrDescendent, Bool.or_eq_true, decide_eq_true_eq] at *
  rcases hab with rfl | hab
  · exact hbc
  · rcases hbc with rfl | hbc
    · exact .inr hab
    · exact .inr (chain.trans hab hbc)

theorem Ancestry.number_le {a b : H} (h : chain.equalOrDescendent a b = true) :
    chain.number a ≤ chain.number b := by
  simp only [Ancestry.equalOrDescendent, Bool.or_eq_true, decide_eq_true_eq] at h
  rcases h with rfl | h
  · exact le_rfl
  · exact (chain.number_lt h).le

theorem equalOrDescendent_answer (nodeHash : H) :
    equalOrDescendent hash (chain.answer E) nodeHash =
      .ok (chain.equalOrDescendent nodeHash hash) := by
  unfold equalOrDescendent Ancestry.equalOrDescendent
  by_cases h : nodeHash = hash
  · simp [h]
  · simp [h, Ancestry.answer, clientError]

theorem Found.equalOrDescendent {nodes : List (Node H N V)} {node : Node H N V}
    (h : Found hash number (chain.answer E) predicate nodes node) :
    chain.equalOrDescendent node.hash hash = true := by
  have hreaches := h.reaches
  rw [equalOrDescendent_answer] at hreaches
  exact Except.ok.inj hreaches

theorem andAlso_eq (condition answer : Bool) :
    andAlso condition (.ok answer : Except (Error E) Bool) = .ok (condition && answer) := by
  cases condition <;> rfl

theorem passesChild_answer (children : List (Node H N V)) :
    passesChild hash number (chain.answer E) children =
      .ok (children.any fun child =>
        decide (child.number ≤ number) && chain.equalOrDescendent child.hash hash) := by
  induction children with
  | nil => rfl
  | cons child rest ih =>
    rw [passesChild, equalOrDescendent_answer, andAlso_eq, List.any_cons, ih]
    cases decide (child.number ≤ number) && chain.equalOrDescendent child.hash hash <;> rfl

theorem findFinalized_answer (E : Type) (chain : Ancestry H N) (hash : H) (number : N)
    (predicate : V → Bool) (nodes : List (Node H N V)) (i : Nat) :
    ∃ j, findFinalized hash number (chain.answer E) predicate i nodes =
      match nodes.find? fun node =>
          predicate node.data && chain.equalOrDescendent node.hash hash with
      | none => .ok none
      | some node =>
        if node.children.any fun child =>
            decide (child.number ≤ number) && chain.equalOrDescendent child.hash hash
        then .error .unfinalizedAncestor
        else .ok (some (j, node)) := by
  induction nodes generalizing i with
  | nil => exact ⟨0, rfl⟩
  | cons node rest ih =>
    rw [findFinalized, equalOrDescendent_answer, andAlso_eq, passesChild_answer, List.find?_cons]
    cases predicate node.data && chain.equalOrDescendent node.hash hash with
    | true => exact ⟨i, rfl⟩
    | false => exact ih (i + 1)

theorem retainRoots_answer (E : Type) (chain : Ancestry H N) (hash : H) (number : N)
    (roots : List (Node H N V)) :
    ∃ kept changed,
      retainRoots (retainsRoot hash number (chain.answer E)) roots = .ok (kept, changed) := by
  induction roots with
  | nil => exact ⟨[], false, rfl⟩
  | cons root rest ih =>
    obtain ⟨kept, changed, hrest⟩ := ih
    have hroot : ∃ keep, retainsRoot hash number (chain.answer E) root = .ok keep := by
      rw [retainsRoot, show clientError (chain.answer E hash root.hash) = .ok _ from rfl,
        andAlso_eq, show clientError (chain.answer E root.hash hash) = .ok _ from rfl]
      dsimp only [bind, Except.bind]
      split_ifs <;> exact ⟨_, rfl⟩
    obtain ⟨keep, hroot⟩ := hroot
    rw [retainRoots, hroot, hrest]
    cases keep <;> exact ⟨_, _, rfl⟩

omit [LinearOrder N] in
theorem Ancestry.Apart.not_equalOrDescendent [LT N] {chain : Ancestry H N} {a b : H}
    (h : chain.Apart a b) (ha : chain.equalOrDescendent a hash = true) :
    chain.equalOrDescendent b hash = false := by
  obtain ⟨hne, hab, hba⟩ := h
  simp only [Ancestry.equalOrDescendent, Bool.or_eq_true, decide_eq_true_eq, Bool.or_eq_false_iff,
    decide_eq_false_iff_not] at ha ⊢
  constructor
  · rintro rfl
    rcases ha with heq | ha
    · exact hne heq
    · simp [hab] at ha
  · by_contra hb
    have hb : chain.isDescendentOf b hash = true := by simpa using hb
    rcases ha with rfl | ha
    · simp [hba] at hb
    · rcases chain.chain ha hb with heq | h | h
      · exact hne heq
      · simp [hab] at h
      · simp [hba] at h

theorem Shaped.eq_of_equalOrDescendent {forest : List (Node H N V)} (h : Shaped chain forest)
    {a b : Node H N V} (ha : a ∈ forest) (hb : b ∈ forest)
    (hah : chain.equalOrDescendent a.hash hash = true)
    (hbh : chain.equalOrDescendent b.hash hash = true) : a = b := by
  induction forest with
  | nil => exact absurd ha (by simp)
  | cons first rest ih =>
    obtain ⟨-, hseparate, hrest⟩ := shaped_cons.mp h
    have hapart : ∀ x ∈ rest, chain.Apart first.hash x.hash := fun x hx =>
      hseparate first (by simp) x (mem_nodesOf_of_mem hx)
    rw [List.mem_cons] at ha hb
    rcases ha with rfl | ha <;> rcases hb with rfl | hb
    · rfl
    · exact absurd hbh (by simp [(hapart b hb).not_equalOrDescendent hah])
    · exact absurd hah (by simp [(hapart a ha).not_equalOrDescendent hbh])
    · exact ih hrest ha hb

theorem finalizeWithDescendentIf_answer (E : Type) (predicate : V → Bool) {tree : ForkTree H N V}
    (h : Shaped chain tree.roots) (hreverts : tree.reverts number = false) {root : Node H N V}
    (hroot : root ∈ tree.roots)
    (hpasses : predicate root.data = true)
    (hbranch : chain.equalOrDescendent root.hash hash = true) :
    ∃ tree', tree.finalizeWithDescendentIf hash number (chain.answer E) predicate =
      if root.children.any fun child =>
          decide (child.number ≤ number) && chain.equalOrDescendent child.hash hash
      then .error .unfinalizedAncestor
      else .ok (tree', .changed (some root.data)) := by
  obtain ⟨j, hfind⟩ := findFinalized_answer E chain hash number predicate tree.roots 0
  have hfirst : (tree.roots.find? fun node =>
      predicate node.data && chain.equalOrDescendent node.hash hash) = some root := by
    cases hfind? : tree.roots.find? fun node =>
        predicate node.data && chain.equalOrDescendent node.hash hash with
    | none =>
      have hno := List.find?_eq_none.mp hfind? root hroot
      simp [hpasses, hbranch] at hno
    | some node =>
      have hhit := List.find?_some hfind?
      rw [Bool.and_eq_true] at hhit
      rw [h.eq_of_equalOrDescendent (List.mem_of_find?_eq_some hfind?) hroot hhit.2 hbranch]
  rw [hfirst] at hfind
  obtain ⟨kept, changed, hretain⟩ := retainRoots_answer E chain hash number root.children
  refine ⟨⟨kept, some number⟩, ?_⟩
  rw [finalizeWithDescendentIf, hreverts, hfind]
  simp only [Bool.false_eq_true, if_false]
  split_ifs
  · rfl
  · simp only [bind, Except.bind, Option.map_some, Option.getD_some, hretain]

theorem Shaped.root_of_not_root {roots : List (Node H N V)} (h : Shaped chain roots)
    {node : Node H N V} (hnode : node ∈ nodesOf roots) (hroot : node ∉ roots) :
    ∃ root ∈ roots, chain.isDescendentOf root.hash node.hash = true ∧
      ∃ child ∈ root.children, chain.equalOrDescendent child.hash node.hash = true := by
  obtain ⟨root, hmem, heq | hbelow⟩ := mem_nodesOf.mp hnode
  · exact absurd (heq ▸ hmem) hroot
  have htree := h.tree hmem
  obtain ⟨child, hchild, hdown⟩ := mem_nodesOf.mp hbelow
  refine ⟨root, hmem, htree.above node hbelow, child, hchild, ?_⟩
  rcases hdown with rfl | hdown
  · simp [Ancestry.equalOrDescendent]
  · simp [Ancestry.equalOrDescendent, (htree.children.tree hchild).above node hdown]

end Answers

end ForkTree

end PolkadotSdk
