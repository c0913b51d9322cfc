import PolkadotSdk.ForkTree.Prune
import PolkadotSdk.ForkTree.Roots

/-! # Searching, pruning and finalizing along a branch

In a tree with the shape of the chain, the search for an ancestor of a block returns the deepest
one that passes the predicate. A prune makes it the root and keeps what is on the branch of the
block; a finalization with ancestors keeps the descendants of the block.
-/

namespace PolkadotSdk.ForkTree

variable {H N V E : Type} [LinearOrder N] {chain : Ancestry H N}

/-! ## The deepest ancestor -/

structure IsDeepest (chain : Ancestry H N) (roots : List (Node H N V)) (hash : H)
    (predicate : V → Bool) (node : Node H N V) : Prop where
  mem : node ∈ nodesOf roots
  ancestor : chain.isDescendentOf node.hash hash = true
  passes : predicate node.data = true
  deepest : ∀ x ∈ nodesOf roots, chain.isDescendentOf x.hash hash = true →
    predicate x.data = true → x = node ∨ Above roots x node

def InBounds : List Nat → List (Node H N V) → Prop
  | [], _ => True
  | i :: path, roots => ∃ h : i < roots.length, InBounds path roots[i].children

variable {roots : List (Node H N V)} {node : Node H N V}

omit [LinearOrder N] in
theorem inBounds_of_nodeAt {path : List Nat} (h : nodeAt path roots = some node) :
    path ≠ [] ∧ InBounds path roots := by
  induction path generalizing roots with
  | nil => cases h
  | cons i path ih =>
    refine ⟨List.cons_ne_nil _ _, ?_⟩
    cases path with
    | nil => exact ⟨(List.getElem?_eq_some_iff.mp h).1, trivial⟩
    | cons j path =>
      rw [nodeAt_cons (List.cons_ne_nil _ _)] at h
      obtain ⟨parent, hparent, h⟩ := Option.bind_eq_some_iff.mp h
      obtain ⟨hlt, rfl⟩ := List.getElem?_eq_some_iff.mp hparent
      exact ⟨hlt, (ih h).2⟩

omit [LinearOrder N] in
theorem nodeAt_setAt {path : List Nat} (h : nodeAt path roots = some node) (changed : Node H N V) :
    nodeAt path (setAt path changed roots) = some changed := by
  induction path generalizing roots with
  | nil => cases h
  | cons i path ih =>
    cases path with
    | nil =>
      have hlt := (List.getElem?_eq_some_iff.mp h).1
      simp [nodeAt, setAt, hlt]
    | cons j path =>
      rw [nodeAt_cons (List.cons_ne_nil _ _)] at h ⊢
      obtain ⟨parent, hparent, h⟩ := Option.bind_eq_some_iff.mp h
      rw [setAt, List.getElem?_modify_eq, hparent]
      · exact ih h
      · simp

theorem IsDeepest.of_path (h : Shaped chain roots) {hash : H} {predicate : V → Bool}
    (hmem : node ∈ nodesOf roots) (hancestor : chain.isDescendentOf node.hash hash = true)
    (hpasses : predicate node.data = true)
    (hbelow : ∀ x ∈ nodesOf node.children, chain.isDescendentOf x.hash hash = true →
      predicate x.data = false) :
    IsDeepest chain roots hash predicate node where
  mem := hmem
  ancestor := hancestor
  passes := hpasses
  deepest x hx hxAncestor hxPasses := by
    rcases chain.chain hxAncestor hancestor with heq | habove | hunder
    · exact .inl (h.eq_of_hash hx hmem heq)
    · exact .inr (h.above_of_descendent hx hmem habove)
    · have hfails := hbelow x (h.mem_children hmem hx hunder) hxAncestor
      rw [hxPasses] at hfails
      cases hfails

/-- The search returns a path exactly if there is an ancestor that passes the predicate, and the
path leads to the deepest one. -/
theorem findNodeIndexWhere_deepest (E : Type) {roots : List (Node H N V)}
    (h : HasShape chain roots) (hash : H) (predicate : V → Bool) :
    ∃ found,
      findNodeIndexWhere hash (chain.number hash) (chain.answer E) predicate roots =
        some (.ok found) ∧
      (found.isSome ↔ ∃ x ∈ nodesOf roots, chain.isDescendentOf x.hash hash = true ∧
        predicate x.data = true) ∧
      (found = none →
        findNodeWhere hash (chain.number hash) (chain.answer E) predicate roots =
          some (.ok none) ∧
        findNodeWhereMut hash (chain.number hash) (chain.answer E) predicate roots =
          some (.ok none)) ∧
      ∀ path, found = some path → path ≠ [] ∧ InBounds path roots ∧
        ∃ node, nodeAt path roots = some node ∧ IsDeepest chain roots hash predicate node ∧
          findNodeWhere hash (chain.number hash) (chain.answer E) predicate roots =
            some (.ok (some node)) ∧
          ∃ write, findNodeWhereMut hash (chain.number hash) (chain.answer E) predicate roots =
              some (.ok (some (node, write))) ∧
            ∀ changed, nodeAt path (write changed) = some changed := by
  have hshaped := h.shaped
  have hlineal := hshaped.lineal (chain.line hash)
  have hanswer : ∀ x, chain.answer E x hash = .ok (chain.isDescendentOf x hash) := fun _ => rfl
  have hfind : findNodeIndexWhere hash (chain.number hash) (chain.answer E) predicate roots =
      some (.ok (deepest predicate
        (lineageFrom (fun x => chain.isDescendentOf x hash) roots 0))) :=
    findNodeIndexWhere_eq hanswer hlineal
  refine ⟨_, hfind, ?_⟩
  unfold findNodeWhere findNodeWhereMut
  rw [hfind]
  cases hpath : deepest predicate
      (lineageFrom (fun x => chain.isDescendentOf x hash) roots 0) with
  | none =>
    refine ⟨⟨fun hsome => absurd hsome (by simp), ?_⟩, fun _ => ⟨rfl, rfl⟩, nofun⟩
    rintro ⟨x, hx, hancestor, hpasses⟩
    have hfails := hlineal.deepest_none hpath x hx hancestor
    rw [hpasses] at hfails
    cases hfails
  | some path =>
    obtain ⟨node, hat, hmem, hancestor, hpasses, hbelow⟩ := hlineal.deepest_some hpath
    refine ⟨⟨fun _ => ⟨node, hmem, hancestor, hpasses⟩, fun _ => rfl⟩, nofun, ?_⟩
    rintro _ ⟨⟩
    obtain ⟨hne, hbounds⟩ := inBounds_of_nodeAt hat
    refine ⟨hne, hbounds, node, hat, .of_path hshaped hmem hancestor hpasses hbelow, ?_, ?_⟩
    · simp [Outcome.bind, hat]
    · exact ⟨fun changed => setAt path changed roots, by simp [Outcome.bind, hat],
        nodeAt_setAt hat⟩

def branches : List (Node (List ℕ) ℕ ℕ) :=
  [⟨[1], 1, 10, [⟨[1, 2], 2, 21, [⟨[1, 2, 4], 3, 30, []⟩]⟩, ⟨[1, 3], 2, 20, []⟩]⟩]

theorem hasShape_branches : HasShape (pathAncestry ℕ) branches := by
  refine Shaped.hasShape ?_
  have hleaf : ∀ n : Node (List ℕ) ℕ ℕ, Separate (pathAncestry ℕ) [n] [] :=
    fun _ _ _ _ hy => absurd hy (by simp)
  refine .cons rfl ?_ (.cons rfl ?_ (.cons rfl ?_ .nil (hleaf _) .nil) ?_
    (.cons rfl ?_ .nil (hleaf _) .nil)) (hleaf _) .nil
  · decide
  · decide
  · decide
  · unfold Separate Ancestry.Apart
    decide
  · decide

/-- The block is not in the tree, and its parent fails the predicate. -/
theorem findNodeIndexWhere_deepest_branches :
    findNodeIndexWhere [1, 2, 5] 3 ((pathAncestry ℕ).answer Unit) (fun data => data < 21)
        branches = some (.ok (some [0])) ∧
      ∃ node, nodeAt [0] branches = some node ∧
        IsDeepest (pathAncestry ℕ) branches [1, 2, 5] (fun data => data < 21) node := by
  have hfind : findNodeIndexWhere [1, 2, 5] 3 ((pathAncestry ℕ).answer Unit)
      (fun data => data < 21) branches = some (.ok (some [0])) := rfl
  obtain ⟨found, hfound, -, -, hpath⟩ :=
    findNodeIndexWhere_deepest Unit hasShape_branches [1, 2, 5] (fun data => data < 21)
  obtain rfl : found = some [0] := by
    cases hfound.symm.trans hfind
    rfl
  obtain ⟨-, -, node, hat, hdeepest, -⟩ := hpath [0] rfl
  exact ⟨hfind, node, hat, hdeepest⟩

/-! ## Pruning -/

section Prune

variable [DecidableEq H] {hash : H}

/-- The new root, the blocks between it and the block, the block and its descendants. -/
def onBranch (chain : Ancestry H N) (root hash x : H) : Bool :=
  decide (x = root) || chain.isDescendentOf root x && chain.isDescendentOf x hash ||
    decide (x = hash) || chain.isDescendentOf hash x

omit [LinearOrder N] [DecidableEq H] in
theorem rebalanceRoots_singleton (node : Node H N V) :
    rebalanceRoots [node] = [node.rebalance] ∧ item node.rebalance = item node := by
  cases node
  exact ⟨rfl, rfl⟩

theorem mem_items_prune {tree : ForkTree H N V} (h : Shaped chain tree.roots)
    {predicate : V → Bool} {root root' : Node H N V}
    (hroot : IsDeepest chain tree.roots hash predicate root) (hitem : item root' = item root)
    (hthins : Thins [root'] [root]) (hkept : KeepsComparable chain hash [root] [root'])
    {x : Node H N V} (hx : x ∈ nodesOf tree.roots) :
    item x ∈ items [root'] ↔ onBranch chain root.hash hash x.hash = true := by
  have htree := h.subtree hroot.mem
  have hhash : root'.hash = root.hash := congrArg Prod.fst hitem
  simp only [onBranch, Bool.or_eq_true, Bool.and_eq_true, decide_eq_true_eq]
  constructor
  · intro hmem
    obtain ⟨y, hy, hyx⟩ := List.mem_map.mp hmem
    have hsame : y.hash = x.hash := congrArg Prod.fst hyx
    have hcomparable := hkept.only y hy
    have hunder : x.hash = root.hash ∨ chain.isDescendentOf root.hash x.hash = true := by
      have hshaped := hthins.shaped htree
      simp only [nodesOf_cons, nodesOf_nil, List.append_nil, List.mem_cons] at hy
      rcases hy with rfl | hy
      · exact .inl (hsame.symm.trans hhash)
      · exact .inr (hsame ▸ hhash ▸ hshaped.above y hy)
    rw [hsame] at hcomparable
    rcases hcomparable with hancestor | heq | hbelow
    · exact .inl (.inl (hunder.imp id fun hroot => ⟨hroot, hancestor⟩))
    · exact .inl (.inr heq)
    · exact .inr hbelow
  · intro hbranch
    have hunder : x.hash = root.hash ∨ chain.isDescendentOf root.hash x.hash = true := by
      rcases hbranch with ((heq | hbetween) | rfl) | hbelow
      · exact .inl heq
      · exact .inr hbetween.1
      · exact .inr hroot.ancestor
      · exact .inr (chain.trans hroot.ancestor hbelow)
    refine hkept.keeps x ?_ ?_
    · rcases hunder with heq | hunder
      · simp [h.eq_of_hash hx hroot.mem heq]
      · simp [h.mem_children hroot.mem hx hunder]
    · rcases hbranch with ((heq | hbetween) | heq) | hbelow
      · exact .inl (heq ▸ hroot.ancestor)
      · exact .inl hbetween.2
      · exact .inr (.inl heq)
      · exact .inr (.inr hbelow)

omit [DecidableEq H] [LinearOrder N] in
theorem nodup_items [LT N] {chain : Ancestry H N} {roots : List (Node H N V)}
    (h : Shaped chain roots) : (items roots).Nodup := by
  refine List.Nodup.of_map Prod.fst ?_
  rw [items, List.map_map]
  exact h.nodup

omit [LinearOrder N] [DecidableEq H] in
theorem perm_of_split {roots : List (Node H N V)} {kept removed : List (H × N × V)}
    (hnodup : (items roots).Nodup) (hsplit : (items roots).Perm (kept ++ removed))
    {test : Node H N V → Bool} (htest : ∀ x ∈ nodesOf roots, item x ∈ kept ↔ test x = true) :
    kept.Perm (((nodesOf roots).filter test).map item) ∧
      removed.Perm (((nodesOf roots).filter fun x => !test x).map item) := by
  have hfiltered : ∀ test : Node H N V → Bool, (((nodesOf roots).filter test).map item).Nodup :=
    fun test => hnodup.sublist (List.filter_sublist.map item)
  obtain ⟨hkept, hremoved, hdisjoint⟩ := List.nodup_append.mp (hsplit.nodup_iff.mp hnodup)
  constructor
  · refine (List.perm_ext_iff_of_nodup hkept (hfiltered _)).mpr
      fun p => ⟨fun hp => ?_, fun hp => ?_⟩
    · obtain ⟨x, hx, rfl⟩ := List.mem_map.mp (hsplit.mem_iff.mpr (List.mem_append_left _ hp))
      exact List.mem_map_of_mem (List.mem_filter.mpr ⟨hx, (htest x hx).mp hp⟩)
    · obtain ⟨x, hx, rfl⟩ := List.mem_map.mp hp
      obtain ⟨hx, hpasses⟩ := List.mem_filter.mp hx
      exact (htest x hx).mpr hpasses
  · refine (List.perm_ext_iff_of_nodup hremoved (hfiltered _)).mpr
      fun p => ⟨fun hp => ?_, fun hp => ?_⟩
    · obtain ⟨x, hx, rfl⟩ := List.mem_map.mp (hsplit.mem_iff.mpr (List.mem_append_right _ hp))
      refine List.mem_map_of_mem (List.mem_filter.mpr ⟨hx, ?_⟩)
      rw [Bool.not_eq_true']
      by_contra hpasses
      exact hdisjoint _ ((htest x hx).mpr (by simpa using hpasses)) _ hp rfl
    · obtain ⟨x, hx, rfl⟩ := List.mem_map.mp hp
      obtain ⟨hx, hfails⟩ := List.mem_filter.mp hx
      rcases List.mem_append.mp (hsplit.mem_iff.mp (List.mem_map_of_mem hx)) with hmem | hmem
      · rw [(htest x hx).mp hmem] at hfails
        cases hfails
      · exact hmem

/-- A prune leaves the tree as it is if no ancestor passes the predicate. If one does, the deepest
one is the only root afterwards, the blocks on the branch stay, and all others are handed out
once. -/
theorem prune_partition (E : Type) {tree : ForkTree H N V} (h : HasShape chain tree.roots)
    (hash : H) (predicate : V → Bool) :
    ∃ tree' removed,
      tree.prune hash (chain.number hash) (chain.answer E) predicate =
        some (.ok (tree', removed)) ∧
      ((∀ x ∈ nodesOf tree.roots, chain.isDescendentOf x.hash hash = true →
          predicate x.data = false) → tree' = tree ∧ removed = []) ∧
      ((∃ x ∈ nodesOf tree.roots, chain.isDescendentOf x.hash hash = true ∧
          predicate x.data = true) →
        ∃ root root', IsDeepest chain tree.roots hash predicate root ∧
          tree'.roots = [root'] ∧ item root' = item root ∧
          (items tree'.roots).Perm
            (((nodesOf tree.roots).filter fun x => onBranch chain root.hash hash x.hash).map item) ∧
          removed.Perm
            (((nodesOf tree.roots).filter fun x =>
              !onBranch chain root.hash hash x.hash).map item)) := by
  have hshaped := h.shaped
  rcases prune_cases E tree hshaped hash predicate with ⟨hnone, hprune⟩ |
    ⟨root, root', removed, hmem, hancestor, hpasses, hbelow, hprune, hsame, hthins, hkept, hperm⟩
  · refine ⟨tree, [], hprune, fun _ => ⟨rfl, rfl⟩, ?_⟩
    rintro ⟨x, hx, hancestor, hpasses⟩
    rw [hnone x hx hancestor] at hpasses
    cases hpasses
  · refine ⟨_, removed, hprune, fun hnone => ?_, fun _ => ?_⟩
    · have hfails := hnone root hmem hancestor
      rw [hpasses] at hfails
      cases hfails
    · have hroot := IsDeepest.of_path hshaped hmem hancestor hpasses hbelow
      obtain ⟨hsingle, hitem⟩ := rebalanceRoots_singleton root'
      have hmem : ∀ x ∈ nodesOf tree.roots, item x ∈ items (rebalanceRoots [root']) ↔
          onBranch chain root.hash hash x.hash = true := fun x hx => by
        rw [(items_rebalanceRoots [root']).mem_iff]
        exact mem_items_prune hshaped hroot hsame hthins hkept hx
      exact ⟨root, root'.rebalance, hroot, hsingle, hitem.trans hsame,
        perm_of_split (nodup_items hshaped) hperm hmem⟩

/-- The other branch is removed, and the root above the branch stays with the parent of the
block. -/
theorem prune_partition_branches :
    ∃ tree' removed root, (⟨branches, none⟩ : ForkTree (List ℕ) ℕ ℕ).prune [1, 2, 4] 3
        ((pathAncestry ℕ).answer Unit) (fun data => data < 21) = some (.ok (tree', removed)) ∧
      IsDeepest (pathAncestry ℕ) branches [1, 2, 4] (fun data => data < 21) root ∧
      removed.Perm (((nodesOf branches).filter fun x =>
        !onBranch (pathAncestry ℕ) root.hash [1, 2, 4] x.hash).map item) := by
  obtain ⟨tree', removed, hprune, -, hsome⟩ := prune_partition Unit
    (show HasShape (pathAncestry ℕ) (⟨branches, none⟩ : ForkTree (List ℕ) ℕ ℕ).roots from
      hasShape_branches) [1, 2, 4] (fun data => data < 21)
  obtain ⟨root, -, hroot, -, -, -, hremoved⟩ :=
    hsome ⟨_, List.mem_cons_self, by decide, by decide⟩
  exact ⟨tree', removed, root, hprune, hroot, hremoved⟩

end Prune

/-! ## Finalizing with ancestors -/

section Finalize

variable {hash : H} {before after after' : List (Node H N V)} {root : Node H N V}

def descendants (chain : Ancestry H N) (hash : H) (roots : List (Node H N V)) :
    List (Node H N V) :=
  (nodesOf roots).filter fun x => chain.isDescendentOf hash x.hash

theorem descendants_append (xs ys : List (Node H N V)) :
    descendants chain hash (xs ++ ys) = descendants chain hash xs ++ descendants chain hash ys := by
  rw [descendants, nodesOf_append, List.filter_append]
  rfl

theorem descendants_perm {xs ys : List (Node H N V)} (h : xs.Perm ys) :
    (descendants chain hash xs).Perm (descendants chain hash ys) :=
  (nodesOf_perm h).filter _

theorem descendants_middle :
    (descendants chain hash (before ++ root :: after)).Perm
      (descendants chain hash [root] ++ descendants chain hash (before ++ after)) := by
  rw [← descendants_append]
  exact descendants_perm List.perm_middle

theorem descendants_eq_self {roots : List (Node H N V)} (h : Shaped chain roots)
    (hroots : ∀ root ∈ roots, chain.isDescendentOf hash root.hash = true) :
    descendants chain hash roots = nodesOf roots := by
  refine List.filter_eq_self.mpr fun x hx => ?_
  obtain ⟨root, hroot, rfl | hx⟩ := mem_nodesOf.mp hx
  · exact hroots x hroot
  · exact chain.trans (hroots root hroot) ((h.tree hroot).above x hx)

theorem descendants_of_block (h : Shaped chain (before ++ root :: after))
    (hhash : root.hash = hash) :
    (descendants chain hash (before ++ root :: after)).Perm (nodesOf root.children) := by
  obtain ⟨htree, hseparate, -⟩ := shaped_cons.mp (h.perm List.perm_middle)
  have hothers : descendants chain hash (before ++ after) = [] := by
    refine List.filter_eq_nil_iff.mpr fun x hx => ?_
    rw [← hhash, (hseparate root (by simp) x hx).2.1]
    exact Bool.false_ne_true
  have hown : descendants chain hash [root] = nodesOf root.children := by
    unfold descendants
    rw [nodesOf_cons, nodesOf_nil, List.append_nil, List.filter_cons_of_neg]
    · refine List.filter_eq_self.mpr fun x hx => ?_
      rw [← hhash]
      exact htree.above x hx
    · rw [hhash, chain.irrefl]
      exact Bool.false_ne_true
  refine descendants_middle.trans ?_
  rw [hothers, hown, List.append_nil]

/-- A root that is taken out, and opened if it is an ancestor, takes no descendant with it. -/
theorem descendants_opened (h : Shaped chain (before ++ root :: after)) (hperm : after'.Perm after)
    (hhash : root.hash ≠ hash) (hbelow : chain.isDescendentOf hash root.hash = false) :
    (descendants chain hash (opened chain hash root (before ++ after'))).Perm
      (descendants chain hash (before ++ root :: after)) := by
  obtain ⟨htree, -, -⟩ := shaped_cons.mp (h.perm List.perm_middle)
  have hown : descendants chain hash [root] = descendants chain hash root.children := by
    unfold descendants
    rw [nodesOf_cons, nodesOf_nil, List.append_nil, List.filter_cons_of_neg]
    rw [hbelow]
    exact Bool.false_ne_true
  have hrest : (descendants chain hash (before ++ after')).Perm
      (descendants chain hash (before ++ after)) := descendants_perm (hperm.append_left before)
  refine List.Perm.trans ?_ descendants_middle.symm
  rw [hown]
  unfold opened
  split_ifs with hancestor
  · rw [descendants_append]
    exact (hrest.append_right _).trans List.perm_append_comm
  · have hnone : descendants chain hash root.children = [] := by
      refine List.filter_eq_nil_iff.mpr fun x hx hdescends => ?_
      rcases chain.chain (htree.above x hx) hdescends with heq | habove | hunder
      · exact hhash heq
      · exact hancestor habove
      · rw [hbelow] at hunder
        cases hunder
    rw [hnone]
    exact hrest

theorem rooted_of_shaped {roots : List (Node H N V)} (h : Shaped chain roots) :
    Rooted chain roots := fun x hx =>
  ⟨h.number_eq x hx, fun child hchild => (h.subtree hx).above child (mem_nodesOf_of_mem hchild)⟩

/-- The data of the node of the block, if there is one, or whether a node was removed. -/
def ResultOf (chain : Ancestry H N) (hash : H) (roots : List (Node H N V)) (changed : Bool)
    (result : FinalizationResult V) : Prop :=
  (∃ x ∈ nodesOf roots, x.hash = hash ∧ result = .changed (some x.data)) ∨
    (∀ x ∈ nodesOf roots, x.hash ≠ hash) ∧
      result = changedIf (changed || (nodesOf roots).any fun x => !chain.isDescendentOf hash x.hash)

theorem resultOf_opened {result : FinalizationResult V} {changed : Bool}
    (h : Shaped chain (before ++ root :: after)) (hperm : after'.Perm after)
    (hhash : root.hash ≠ hash) (hbelow : chain.isDescendentOf hash root.hash = false)
    (hresult : ResultOf chain hash (opened chain hash root (before ++ after')) true result) :
    ResultOf chain hash (before ++ root :: after) changed result := by
  rcases hresult with ⟨x, hx, hblock⟩ | ⟨hnone, rfl⟩
  · exact .inl ⟨x, mem_nodesOf_opened hperm hx, hblock⟩
  · refine .inr ⟨fun x hx hblock => ?_, ?_⟩
    · rcases nodesOf_opened_or (rooted_of_shaped h) hperm hhash hx with hopened | hother
      · exact hnone x hopened hblock
      · exact hother hblock
    · have hmem : root ∈ nodesOf (before ++ root :: after) := mem_nodesOf_of_mem (by simp)
      have hany : ((nodesOf (before ++ root :: after)).any fun x =>
          !chain.isDescendentOf hash x.hash) = true :=
        List.any_eq_true.mpr ⟨root, hmem, by rw [hbelow]; rfl⟩
      rw [hany, Bool.true_or, Bool.or_true]

theorem ResultOf.iff {roots kept : List (Node H N V)} {result : FinalizationResult V}
    (h : Shaped chain roots) (hkept : (nodesOf kept).Perm (descendants chain hash roots))
    (hresult : ResultOf chain hash roots false result) :
    (∀ data, result = .changed (some data) ↔
        ∃ x ∈ nodesOf roots, x.hash = hash ∧ x.data = data) ∧
      (result = .unchanged ↔ ∀ x ∈ nodesOf roots, x ∈ nodesOf kept) := by
  have hmem : ∀ x, x ∈ nodesOf kept ↔
      x ∈ nodesOf roots ∧ chain.isDescendentOf hash x.hash = true := fun x => by
    rw [hkept.mem_iff, descendants, List.mem_filter]
  rcases hresult with ⟨x, hx, rfl, rfl⟩ | ⟨hnone, rfl⟩
  · refine ⟨fun data => ⟨fun hdata => ?_, ?_⟩, ⟨fun hunchanged => ?_, fun hall => ?_⟩⟩
    · exact ⟨x, hx, rfl, by simpa using hdata⟩
    · rintro ⟨y, hy, hhash, rfl⟩
      rw [h.eq_of_hash hy hx hhash]
    · cases hunchanged
    · have hself := ((hmem x).mp (hall x hx)).2
      rw [chain.irrefl] at hself
      cases hself
  · rw [Bool.false_or]
    refine ⟨fun data => ⟨fun hdata => ?_, ?_⟩, ?_⟩
    · unfold changedIf at hdata
      split at hdata <;> simp at hdata
    · rintro ⟨x, hx, hhash, -⟩
      exact absurd hhash (hnone x hx)
    · have hall : ((nodesOf roots).any fun x => !chain.isDescendentOf hash x.hash) = false ↔
          ∀ x ∈ nodesOf roots, x ∈ nodesOf kept := by
        rw [List.any_eq_false]
        exact forall₂_congr fun x hx => by simp [hmem, hx]
      rw [← hall]
      unfold changedIf
      split <;> simp_all

variable [DecidableEq H]

theorem finalizeAncestorsLoop_descendants (fuel : Nat) {tree : ForkTree H N V} {idx : Nat}
    {changed : Bool} {outcome : Except (Error E) (ForkTree H N V × FinalizationResult V)}
    (h : Shaped chain tree.roots)
    (hkept : ∀ root ∈ tree.roots.take idx, chain.isDescendentOf hash root.hash = true)
    (hloop : finalizeAncestorsLoop hash (chain.number hash) (chain.answer E) fuel tree idx
      changed = some outcome) :
    ∃ tree' result, outcome = .ok (tree', result) ∧
      (nodesOf tree'.roots).Perm (descendants chain hash tree.roots) ∧
      tree'.bestFinalizedNumber = some (chain.number hash) ∧
      ResultOf chain hash tree.roots changed result := by
  induction fuel generalizing tree idx changed with
  | zero => cases hloop
  | succ fuel ih =>
    rw [finalizeAncestorsLoop] at hloop
    cases hget : tree.roots[idx]? with
    | none =>
      rw [hget] at hloop
      cases hloop
      rw [List.take_of_length_le (List.getElem?_eq_none_iff.mp hget)] at hkept
      have hall := descendants_eq_self h hkept
      have hdescends : ∀ x ∈ nodesOf tree.roots, chain.isDescendentOf hash x.hash = true :=
        List.filter_eq_self.mp hall
      refine ⟨_, _, rfl, hall ▸ .rfl, rfl, .inr ⟨?_, ?_⟩⟩
      · rintro x hx rfl
        have hself := hdescends x hx
        rw [chain.irrefl] at hself
        cases hself
      · have hnone : ((nodesOf tree.roots).any fun x =>
            !chain.isDescendentOf hash x.hash) = false := by
          simpa using hdescends
        rw [hnone, Bool.or_false]
    | some root =>
      obtain ⟨hlt, hroot⟩ := List.getElem?_eq_some_iff.mp hget
      obtain ⟨rest, hremove⟩ := swapRemove_of_lt hlt
      rw [hroot] at hremove
      obtain ⟨before, after, after', hroots, rfl, rfl, hperm⟩ := swapRemove_eq hremove
      have hmem : root ∈ nodesOf tree.roots := mem_nodesOf_of_mem (by simp [hroots])
      have hnumber := h.number_eq root hmem
      rw [hget] at hloop
      dsimp only at hloop
      rw [hnumber, andAlso_answer, andAlso_answer] at hloop
      by_cases hhash : root.hash = hash
      · rw [if_pos hhash] at hloop
        simp only [finalizeRootAt, hremove, Option.map_some, Option.some.injEq] at hloop
        subst hloop
        refine ⟨_, _, rfl, ?_, by rw [hnumber, hhash], .inl ⟨root, hmem, hhash, rfl⟩⟩
        rw [hroots]
        exact (descendants_of_block (hroots ▸ h) hhash).symm
      rw [if_neg hhash] at hloop
      cases hbelow : chain.isDescendentOf hash root.hash with
      | true =>
        rw [hbelow] at hloop
        refine ih h ?_ hloop
        rw [List.take_succ_eq_append_getElem hlt, hroot, List.forall_mem_append]
        exact ⟨hkept, by simpa using hbelow⟩
      | false =>
        rw [hbelow] at hloop
        simp only [hremove] at hloop
        have htake : ∀ x ∈ (opened chain hash root (before ++ after')).take before.length,
            chain.isDescendentOf hash x.hash = true := by
          intro x hx
          refine hkept x ?_
          rw [hroots, List.take_left]
          unfold opened at hx
          split_ifs at hx <;> simpa using hx
        rw [hroots] at h ⊢
        obtain ⟨hopened, hothers⟩ := Shaped.open h hperm
        have hshaped : Shaped chain (opened chain hash root (before ++ after')) := by
          unfold opened
          split_ifs
          · exact hopened
          · exact hothers
        obtain ⟨tree', result, hresult, hnodes, hbest, hof⟩ := ih hshaped htake hloop
        exact ⟨tree', result, hresult, hnodes.trans (descendants_opened h hperm hhash hbelow),
          hbest, resultOf_opened h hperm hhash hbelow hof⟩

/-- The loop over the roots ends; the nodes that stay are the descendants of the block, and the
result tells whether the block had a node and whether one was removed. -/
theorem finalizeWithAncestors_keeps (E : Type) {tree : ForkTree H N V}
    (h : HasShape chain tree.roots) (hash : H)
    (hnew : ∀ best, tree.bestFinalizedNumber = some best → best < chain.number hash) :
    ∃ tree' result,
      tree.finalizeWithAncestors hash (chain.number hash) (chain.answer E) =
        some (.ok (tree', result)) ∧
      (nodesOf tree'.roots).Perm
        ((nodesOf tree.roots).filter fun x => chain.isDescendentOf hash x.hash) ∧
      tree'.bestFinalizedNumber = some (chain.number hash) ∧
      (∀ data, result = .changed (some data) ↔
        ∃ x ∈ nodesOf tree.roots, x.hash = hash ∧ x.data = data) ∧
      (result = .unchanged ↔ ∀ x ∈ nodesOf tree.roots, x ∈ nodesOf tree'.roots) := by
  have hshaped := h.shaped
  have hreverts : tree.reverts (chain.number hash) = false := by
    unfold reverts
    cases hbest : tree.bestFinalizedNumber with
    | none => rfl
    | some best => simpa using hnew best hbest
  have hspec : ∃ tree' result,
      tree.finalizeWithAncestors hash (chain.number hash) (chain.answer E) =
        some (.ok (tree', result)) ∧
      (nodesOf tree'.roots).Perm (descendants chain hash tree.roots) ∧
      tree'.bestFinalizedNumber = some (chain.number hash) ∧
      ResultOf chain hash tree.roots false result := by
    unfold finalizeWithAncestors
    rw [hreverts, finalizeRoot_eq]
    cases hroot : rootOf tree hash with
    | some root =>
      obtain ⟨before, after, hroots⟩ := List.append_of_mem (List.mem_of_find?_eq_some hroot)
      have hhash : root.hash = hash := by simpa using List.find?_some hroot
      have hmem : root ∈ nodesOf tree.roots := mem_nodesOf_of_mem (by simp [hroots])
      have hnumber : root.number = chain.number hash := hhash ▸ hshaped.number_eq root hmem
      refine ⟨_, _, rfl, ?_, congrArg some hnumber, .inl ⟨root, hmem, hhash, rfl⟩⟩
      rw [hroots] at hshaped ⊢
      exact (descendants_of_block hshaped hhash).symm
    | none =>
      have hsome : (finalizeAncestorsLoop hash (chain.number hash) (chain.answer E)
          (size tree.roots + 1) tree 0 false).isSome :=
        finalizeAncestorsLoop_isSome _ _ _ _ (by simp)
      obtain ⟨outcome, hloop⟩ := Option.isSome_iff_exists.mp hsome
      obtain ⟨tree', result, rfl, hkept⟩ :=
        finalizeAncestorsLoop_descendants _ hshaped (by simp) hloop
      exact ⟨tree', result, hloop, hkept⟩
  obtain ⟨tree', result, hfinal, hkept, hbest, hresult⟩ := hspec
  exact ⟨tree', result, hfinal, hkept, hbest, hresult.iff hshaped hkept⟩

/-- The root above is opened, and the other branch goes. -/
theorem finalizeWithAncestors_keeps_branches :
    ∃ tree' result, (⟨branches, some 1⟩ : ForkTree (List ℕ) ℕ ℕ).finalizeWithAncestors [1, 2] 2
        ((pathAncestry ℕ).answer Unit) = some (.ok (tree', result)) ∧
      result = .changed (some 21) ∧ tree'.bestFinalizedNumber = some 2 := by
  obtain ⟨tree', result, hfinal, -, hbest, hdata, -⟩ := finalizeWithAncestors_keeps Unit
    (show HasShape (pathAncestry ℕ) (⟨branches, some 1⟩ : ForkTree (List ℕ) ℕ ℕ).roots from
      hasShape_branches) [1, 2] (by rintro best ⟨⟩; decide)
  refine ⟨tree', result, hfinal, (hdata 21).mpr ?_, hbest⟩
  exact ⟨⟨[1, 2], 2, 21, [⟨[1, 2, 4], 3, 30, []⟩]⟩, by simp [branches, nodesOf, Node.nodes],
    rfl, rfl⟩

end Finalize

end PolkadotSdk.ForkTree
