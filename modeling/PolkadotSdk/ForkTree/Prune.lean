import PolkadotSdk.ForkTree.Shape

/-! # What pruning keeps

Pruning towards a block hands out every node it takes from the tree, and it keeps every
node at or below the new root that is comparable with the block.
-/

namespace PolkadotSdk.ForkTree

variable {H N V E : Type}

theorem removedItems_perm (removed : List (Node H N V)) :
    (removedItems removed).Perm (items removed) := by
  rw [removedItems, iterate_eq _ _ (Nat.le_of_eq (size_perm (List.reverse_perm removed)))]
  exact items_perm (List.reverse_perm removed)

theorem items_rebalanceRoots (forest : List (Node H N V)) :
    (items (rebalanceRoots forest)).Perm (items forest) := by
  have hsort : ∀ keyed : List (Nat × Node H N V),
      (items (sortByDepth keyed)).Perm (items (keyed.map Prod.snd)) :=
    fun keyed => items_perm (sortByDepth_perm keyed).symm
  refine (hsort _).trans ?_
  induction forest using forest_induction with
  | nil => exact .nil
  | cons node rest ihChildren ihRest =>
    obtain ⟨hash, number, data, children⟩ := node
    simp only [rebalanceKeyed, Node.rebalance, List.map_cons, items_cons, item]
    exact (((hsort _).trans ihChildren).append ihRest).cons _

theorem items_detachAt {path : List Nat} {roots removed : List (Node H N V)} {root : Node H N V}
    (h : detachAt path roots = some (root, removed)) :
    (items roots).Perm (items [root] ++ items removed) := by
  induction path generalizing roots removed with
  | nil => simp [detachAt] at h
  | cons i path ih =>
    cases path with
    | nil =>
      obtain ⟨node, hget, hnode⟩ := Option.map_eq_some_iff.mp h
      cases hnode
      obtain ⟨before, after, rfl, rfl⟩ := split_of_getElem? hget
      have herase : (before ++ root :: after).eraseIdx before.length = before ++ after := by
        simp [List.eraseIdx_append]
      rw [herase]
      simpa using items_middle before after root
    | cons j path =>
      obtain ⟨node, hget, h⟩ := Option.bind_eq_some_iff.mp h
      obtain ⟨⟨detached, children⟩, hdetach, hroot⟩ := Option.map_eq_some_iff.mp h
      cases hroot
      obtain ⟨before, after, rfl, rfl⟩ := split_of_getElem? hget
      have hset : (before ++ node :: after).set before.length { node with children := children } =
          before ++ { node with children := children } :: after := by
        simp
      rw [hset]
      refine (items_middle before after node).trans ?_
      refine (((ih hdetach).append_right _).cons _).trans ?_
      refine List.Perm.trans ?_
        ((items_middle before after { node with children := children }).symm.append_left _)
      rw [List.append_assoc]
      exact List.perm_middle.symm

/-! ## Nodes that stay -/

section Kept

variable [DecidableEq H] [LinearOrder N] {chain : Ancestry H N} {hash : H}

def Ancestry.Comparable (chain : Ancestry H N) (a b : H) : Prop :=
  chain.isDescendentOf a b = true ∨ a = b ∨ chain.isDescendentOf b a = true

theorem atOrBelow_answer {child : Node H N V} (hnumber : child.number = chain.number child.hash) :
    atOrBelow hash (chain.number hash) (chain.answer E) child =
      .ok (decide (child.hash = hash) || chain.isDescendentOf hash child.hash) := by
  unfold atOrBelow
  rw [hnumber, andAlso_answer]
  split_ifs with hsame
  · simp [hsame.2]
  · have hne : child.hash ≠ hash := fun heq => hsame ⟨by rw [heq], heq⟩
    simp [hne]

omit [DecidableEq H] in
theorem atOrBelow_of_comparable {node x : Node H N V} (htree : Shaped chain [node])
    (hnode : chain.isDescendentOf node.hash hash = false) (hx : x ∈ nodesOf [node])
    (hcomparable : chain.Comparable x.hash hash) :
    node.hash = hash ∨ chain.isDescendentOf hash node.hash = true := by
  simp only [nodesOf_cons, nodesOf_nil, List.append_nil, List.mem_cons] at hx
  rcases hx with rfl | hx
  · rcases hcomparable with h | h
    · simp [hnode] at h
    · exact h
  · have habove := htree.above x hx
    rcases hcomparable with h | rfl | h
    · simp [chain.trans habove h] at hnode
    · simp [habove] at hnode
    · rcases chain.chain habove h with heq | h | h
      · exact .inl heq
      · simp [h] at hnode
      · exact .inr h

structure KeepsComparable (chain : Ancestry H N) (hash : H) (forest kept : List (Node H N V)) :
    Prop where
  keeps : ∀ x ∈ nodesOf forest, chain.Comparable x.hash hash → item x ∈ items kept
  only : ∀ x ∈ nodesOf kept, chain.Comparable x.hash hash

theorem keepDescendents_answer (E : Type) {children : List (Node H N V)}
    (hshaped : Shaped chain children)
    (hnone : ∀ child ∈ children, chain.isDescendentOf child.hash hash = false) :
    ∃ kept removed, keepDescendents hash (chain.number hash) (chain.answer E) children =
      .ok (kept, removed) ∧ KeepsComparable chain hash children kept := by
  induction children with
  | nil => exact ⟨[], [], rfl, by simp, by simp⟩
  | cons child rest ih =>
    obtain ⟨htree, -, hrest⟩ := shaped_cons.mp hshaped
    obtain ⟨kept, removed, hok, hkept⟩ := ih hrest fun c hc => hnone c (List.mem_cons_of_mem _ hc)
    have hsplit : ∀ x ∈ nodesOf (child :: rest), x ∈ nodesOf [child] ∨ x ∈ nodesOf rest :=
      fun x hx => by simpa [or_assoc] using hx
    rw [keepDescendents, atOrBelow_answer (htree.number_eq child (by simp)), hok]
    by_cases hchild : child.hash = hash ∨ chain.isDescendentOf hash child.hash = true
    · have htest : (decide (child.hash = hash) || chain.isDescendentOf hash child.hash) = true := by
        simpa using hchild
      rw [htest]
      refine ⟨child :: kept, removed, rfl, fun x hx hcomparable => ?_, fun x hx => ?_⟩
      · rcases hsplit x hx with hx | hx
        · have hmem : item x ∈ items [child] := List.mem_map_of_mem hx
          simpa [or_assoc] using Or.inl hmem
        · simp [hkept.keeps x hx hcomparable]
      · simp only [nodesOf_cons, List.mem_cons, List.mem_append] at hx
        rcases hx with rfl | hx | hx
        · exact .inr hchild
        · have habove := htree.above x hx
          rcases hchild with rfl | hchild
          · exact .inr (.inr habove)
          · exact .inr (.inr (chain.trans hchild habove))
        · exact hkept.only x hx
    · have htest : (decide (child.hash = hash) || chain.isDescendentOf hash child.hash) = false := by
        simpa using hchild
      rw [htest]
      refine ⟨kept, child :: removed, rfl, fun x hx hcomparable => ?_, hkept.only⟩
      rcases hsplit x hx with hx | hx
      · exact absurd (atOrBelow_of_comparable htree (hnone child List.mem_cons_self) hx
          hcomparable) hchild
      · exact hkept.keeps x hx hcomparable

omit [DecidableEq H] in
theorem not_comparable_of_apart {a x : H} (ha : chain.isDescendentOf a hash = true)
    (hapart : chain.Apart a x) : ¬ chain.Comparable x hash := by
  obtain ⟨hne, hax, hxa⟩ := hapart
  rintro (h | rfl | h)
  · rcases chain.chain ha h with heq | h | h
    · exact hne heq
    · simp [hax] at h
    · simp [hxa] at h
  · simp [hax] at ha
  · simp [chain.trans ha h] at hax

theorem pruneChildren_answer (E : Type) (children : List (Node H N V)) :
    ∀ before : List (Node H N V), Shaped chain (before.reverse ++ children) →
      (∀ child ∈ before, chain.isDescendentOf child.hash hash = false) →
      ∃ kept removed, pruneChildren hash (chain.number hash) (chain.answer E) children before =
        .ok (kept, removed) ∧ KeepsComparable chain hash (before.reverse ++ children) kept := by
  induction children using forest_induction with
  | nil =>
    intro before hshaped hnone
    rw [List.append_nil] at hshaped ⊢
    exact keepDescendents_answer E hshaped fun c hc => hnone c (List.mem_reverse.mp hc)
  | cons child rest ihChildren ihRest =>
    intro before hshaped hnone
    obtain ⟨htree, hseparate, -⟩ := shaped_cons.mp (hshaped.perm List.perm_middle)
    rw [pruneChildren, htree.number_eq child (by simp), andAlso_answer]
    cases hchild : chain.isDescendentOf child.hash hash with
    | true =>
      obtain ⟨childHash, childNumber, data, children⟩ := child
      obtain ⟨kept, removed, hok, hkept⟩ := ihChildren [] htree.children (by simp)
      refine ⟨[⟨childHash, childNumber, data, kept⟩], before.reverse ++ rest ++ removed, ?_,
        fun x hx hcomparable => ?_, fun x hx => ?_⟩
      · simp only [Node.prune, show pruneChildren hash (chain.number hash) (chain.answer E)
          children [] = _ from hok, bind, Except.bind, if_true]
      · rcases mem_nodesOf_middle.mp hx with hx | hx
        · simp only [nodesOf_cons, nodesOf_nil, List.append_nil, List.mem_cons] at hx
          rcases hx with rfl | hx
          · simp [item]
          · have hmem : item x ∈ items kept := hkept.keeps x hx hcomparable
            simp [hmem]
        · exact absurd hcomparable (not_comparable_of_apart hchild (hseparate _ (by simp) x hx))
      · simp only [nodesOf_cons, nodesOf_nil, List.append_nil, List.mem_cons] at hx
        rcases hx with rfl | hx
        · exact .inl hchild
        · exact hkept.only x hx
    | false =>
      have hrest := ihRest (child :: before) (by simpa using hshaped)
        (List.forall_mem_cons.mpr ⟨hchild, hnone⟩)
      rwa [List.reverse_cons, List.append_assoc, List.singleton_append] at hrest

theorem prune_answer (E : Type) {node : Node H N V} (htree : Shaped chain [node])
    (hnode : chain.isDescendentOf node.hash hash = true) :
    ∃ node' removed, node.prune hash (chain.number hash) (chain.answer E) = .ok (node', removed) ∧
      item node' = item node ∧ KeepsComparable chain hash [node] [node'] := by
  obtain ⟨nodeHash, nodeNumber, data, children⟩ := node
  obtain ⟨kept, removed, hok, hkept⟩ := pruneChildren_answer E children [] htree.children (by simp)
  refine ⟨⟨nodeHash, nodeNumber, data, kept⟩, removed, ?_, rfl, fun x hx hcomparable => ?_,
    fun x hx => ?_⟩
  · rw [Node.prune, hok]
    rfl
  · simp only [nodesOf_cons, nodesOf_nil, List.append_nil, List.mem_cons] at hx
    rcases hx with rfl | hx
    · simp [item]
    · have hmem : item x ∈ items kept := hkept.keeps x hx hcomparable
      simp [hmem]
  · simp only [nodesOf_cons, nodesOf_nil, List.append_nil, List.mem_cons] at hx
    rcases hx with rfl | hx
    · exact .inl hnode
    · exact hkept.only x hx

/-- The deepest ancestor that passes the predicate, if there is one, is the root of what is
left. -/
theorem prune_cases (E : Type) (tree : ForkTree H N V) (h : Shaped chain tree.roots) (hash : H)
    (predicate : V → Bool) :
    ((∀ x ∈ nodesOf tree.roots, chain.isDescendentOf x.hash hash = true →
        predicate x.data = false) ∧
      tree.prune hash (chain.number hash) (chain.answer E) predicate = some (.ok (tree, []))) ∨
    ∃ root root' removed, root ∈ nodesOf tree.roots ∧
      chain.isDescendentOf root.hash hash = true ∧ predicate root.data = true ∧
      (∀ x ∈ nodesOf root.children, chain.isDescendentOf x.hash hash = true →
        predicate x.data = false) ∧
      tree.prune hash (chain.number hash) (chain.answer E) predicate =
        some (.ok ({ tree with roots := rebalanceRoots [root'] }, removed)) ∧
      item root' = item root ∧ Thins [root'] [root] ∧ KeepsComparable chain hash [root] [root'] ∧
      (items tree.roots).Perm (items (rebalanceRoots [root']) ++ removed) := by
  have hlineal := h.lineal (chain.line hash)
  have hanswer : ∀ x, chain.answer E x hash = .ok (chain.isDescendentOf x hash) := fun _ => rfl
  unfold prune
  rw [findNodeIndexWhere_eq hanswer hlineal]
  cases hpath : deepest predicate
      (lineageFrom (fun x => chain.isDescendentOf x hash) tree.roots 0) with
  | none => exact .inl ⟨hlineal.deepest_none hpath, rfl⟩
  | some path =>
    obtain ⟨node, hat, hmem, hancestor, hpasses, hbelow⟩ := hlineal.deepest_some hpath
    obtain ⟨⟨root, removed⟩, hdetach⟩ := Option.isSome_iff_exists.mp
      (detachAt_isSome (Option.isSome_iff_exists.mpr ⟨node, hat⟩))
    obtain rfl : node = root := Option.some.inj (hat.symm.trans (detachAt_spec hdetach).1)
    obtain ⟨root', removedBelow, hprune, hitem, hkept⟩ :=
      prune_answer E (h.subtree hmem) hancestor
    obtain ⟨hthins, hperm⟩ := Node.prune_spec hprune
    refine .inr ⟨node, root', removedItems (removed ++ removedBelow), hmem, hancestor, hpasses,
      hbelow, ?_, hitem, hthins, hkept, ?_⟩
    · simp only [Outcome.bind, hdetach, hprune]
      rfl
    · refine (items_detachAt hdetach).trans ((hperm.append_right _).trans ?_)
      rw [List.append_assoc]
      refine (items_rebalanceRoots [root']).symm.append (List.perm_append_comm.trans ?_)
      rw [← items_append]
      exact (removedItems_perm _).symm

/-- Either nothing happens, or an ancestor of the block that passes the predicate is the new root,
and what is comparable with the block stays. -/
theorem prune_spec {tree tree' : ForkTree H N V} {predicate : V → Bool}
    {removed : List (H × N × V)} (h : Shaped chain tree.roots)
    (hprune : tree.prune hash (chain.number hash) (chain.answer E) predicate =
      some (.ok (tree', removed))) :
    (items tree.roots).Perm (items tree'.roots ++ removed) ∧
      ((tree' = tree ∧ removed = []) ∨
        ∃ root ∈ nodesOf tree.roots, chain.isDescendentOf root.hash hash = true ∧
          predicate root.data = true ∧
          ∀ x ∈ nodesOf tree.roots,
            x.hash = root.hash ∨ chain.isDescendentOf root.hash x.hash = true →
            chain.Comparable x.hash hash → item x ∈ items tree'.roots) := by
  rcases prune_cases E tree h hash predicate with ⟨-, heq⟩ |
    ⟨root, root', removed', hmem, hancestor, hpasses, -, heq, -, -, hkept, hperm⟩
  · cases heq.symm.trans hprune
    exact ⟨by simp, .inl ⟨rfl, rfl⟩⟩
  · cases heq.symm.trans hprune
    refine ⟨hperm, .inr ⟨root, hmem, hancestor, hpasses, fun x hx hbelow hcomparable => ?_⟩⟩
    refine (items_rebalanceRoots [root']).mem_iff.mpr (hkept.keeps x ?_ hcomparable)
    rcases hbelow with hhash | hbelow
    · simp [h.eq_of_hash hx hmem hhash]
    · simp [h.mem_children hmem hx hbelow]

end Kept

end PolkadotSdk.ForkTree
