import PolkadotSdk.ForkTree.Rebuild
import PolkadotSdk.ForkTree.Search
import PolkadotSdk.Lib.Program

/-! # The shape of a fork tree is kept

Every operation other than an import takes nodes away, reorders siblings or changes the
data, so it leaves a shaped forest shaped whatever `isDescendentOf` answers. An import puts
the block below its deepest ancestor in the tree, which needs the search to be right.
-/

namespace PolkadotSdk.ForkTree

variable {H N V W E : Type}

/-! ## Operations that take nodes away -/

def items (forest : List (Node H N V)) : List (H × N × V) := (nodesOf forest).map item

@[simp] theorem items_nil : items ([] : List (Node H N V)) = [] := rfl

@[simp] theorem items_cons (node : Node H N V) (rest : List (Node H N V)) :
    items (node :: rest) = item node :: (items node.children ++ items rest) := by
  simp [items]

@[simp] theorem items_append (xs ys : List (Node H N V)) :
    items (xs ++ ys) = items xs ++ items ys := by
  simp [items]

theorem items_perm {xs ys : List (Node H N V)} (h : xs.Perm ys) : (items xs).Perm (items ys) :=
  (nodesOf_perm h).map item

theorem items_middle (before after : List (Node H N V)) (node : Node H N V) :
    (items (before ++ node :: after)).Perm
      (item node :: (items node.children ++ items (before ++ after))) := by
  simpa using items_perm (List.perm_middle : (before ++ node :: after).Perm _)

theorem Thins.nil_left : ∀ forest : List (Node H N V), Thins ([] : List (Node H N W)) forest
  | [] => .nil
  | _ :: rest => .drop (nil_left rest)

theorem Thins.append_left {xs : List (Node H N W)} {ys : List (Node H N V)} (h : Thins xs ys) :
    ∀ before : List (Node H N V), Thins xs (before ++ ys)
  | [] => h
  | _ :: before => .drop (append_left h before)

theorem sortByDepth_perm (keyed : List (Nat × Node H N V)) :
    (keyed.map Prod.snd).Perm (sortByDepth keyed) :=
  (List.perm_insertionSort _ keyed).symm.map _

theorem thins_rebalanceRoots (forest : List (Node H N V)) :
    Thins (rebalanceRoots forest) forest := by
  refine .perm ?_ (sortByDepth_perm _)
  induction forest using forest_induction with
  | nil => exact .nil
  | cons node rest ihChildren ihRest =>
    obtain ⟨hash, number, data, children⟩ := node
    exact .keep rfl rfl (.perm ihChildren (sortByDepth_perm _)) ihRest

section Visit

def KeepsBlock (visit : Visit H N V W) : Prop :=
  ∀ node kept descend, visit node = some (kept, descend) →
    kept.hash = node.hash ∧ kept.number = node.number ∧
      if descend then kept.children = [] else Thins kept.children node.children

theorem keepsBlock_visitMap (f : H → N → V → W) : KeepsBlock (visitMap f) := by
  rintro node _ _ ⟨⟩
  exact ⟨rfl, rfl, rfl⟩

theorem keepsBlock_visitFilter (filter : H → N → V → FilterAction) :
    KeepsBlock (visitFilter filter) := by
  intro node kept descend h
  unfold visitFilter at h
  split at h
  · cases h
    exact ⟨rfl, rfl, rfl⟩
  · cases h
    exact ⟨rfl, rfl, .refl _⟩
  · cases h

theorem thins_grownForest {visit : Visit H N V W} (hvisit : KeepsBlock visit)
    (forest : List (Node H N V)) : Thins (grownForest visit forest) forest := by
  induction forest using forest_induction with
  | nil => exact .nil
  | cons node rest ihChildren ihRest =>
    cases h : visit node with
    | none =>
      have hgrown : node.grown visit = none := by simp [grown_eq, h]
      simpa [grownForest, hgrown] using Thins.drop ihRest
    | some result =>
      obtain ⟨kept, descend⟩ := result
      obtain ⟨hhash, hnumber, hchildren⟩ := hvisit node kept descend h
      rw [grownForest, grown_of_visit h]
      refine .keep hhash hnumber ?_ ihRest
      cases descend with
      | true => simpa [show kept.children = [] from hchildren] using ihChildren
      | false => simpa [grownForest] using hchildren

end Visit

section Prune

variable [DecidableEq H] [LinearOrder N] {hash : H} {number : N}
  {isDescendentOf : H → H → Except E Bool}

theorem keepDescendents_spec {children kept removed : List (Node H N V)}
    (h : keepDescendents hash number isDescendentOf children = .ok (kept, removed)) :
    kept.Sublist children ∧ children.Perm (kept ++ removed) := by
  induction children generalizing kept removed with
  | nil =>
    cases h
    exact ⟨.slnil, .nil⟩
  | cons child rest ih =>
    rw [keepDescendents] at h
    obtain ⟨keep, -, h⟩ := except_bind_eq_ok h
    obtain ⟨⟨kept', removed'⟩, hrest, h⟩ := except_bind_eq_ok h
    obtain ⟨hsublist, hperm⟩ := ih hrest
    cases keep with
    | true =>
      cases h
      exact ⟨hsublist.cons_cons _, hperm.cons _⟩
    | false =>
      cases h
      exact ⟨hsublist.cons _, (hperm.cons _).trans List.perm_middle.symm⟩

theorem pruneChildren_spec (children : List (Node H N V)) :
    ∀ {before kept removed : List (Node H N V)},
      pruneChildren hash number isDescendentOf children before = .ok (kept, removed) →
      Thins kept (before.reverse ++ children) ∧
        (items (before.reverse ++ children)).Perm (items kept ++ items removed) := by
  induction children using forest_induction with
  | nil =>
    intro before kept removed h
    obtain ⟨hsublist, hperm⟩ := keepDescendents_spec h
    rw [List.append_nil, ← items_append]
    exact ⟨.of_sublist hsublist, items_perm hperm⟩
  | cons child rest ihChildren ihRest =>
    intro before kept removed h
    rw [pruneChildren] at h
    obtain ⟨ancestor, -, h⟩ := except_bind_eq_ok h
    cases ancestor with
    | true =>
      obtain ⟨⟨next, removedBelow⟩, hnext, h⟩ := except_bind_eq_ok h
      cases h
      obtain ⟨childHash, childNumber, data, children⟩ := child
      obtain ⟨⟨keptBelow, removedBelow'⟩, hbelow, hnext⟩ := except_bind_eq_ok hnext
      cases hnext
      obtain ⟨hthins, hchildren⟩ : Thins keptBelow children ∧
        (items children).Perm (items keptBelow ++ items removedBelow) := ihChildren hbelow
      have hkeep : Thins [⟨childHash, childNumber, data, keptBelow⟩]
          (⟨childHash, childNumber, data, children⟩ :: rest) :=
        .keep rfl rfl hthins (.nil_left rest)
      refine ⟨.append_left hkeep before.reverse,
        (items_middle before.reverse rest _).trans ?_⟩
      simp only [items_cons, items_nil, items_append, List.append_nil, item, List.cons_append]
      refine List.Perm.cons _ ((hchildren.append_right _).trans ?_)
      rw [List.append_assoc]
      exact List.perm_append_comm.append_left _
    | false => simpa using ihRest h

theorem Node.prune_spec {node node' : Node H N V} {removed : List (Node H N V)}
    (h : node.prune hash number isDescendentOf = .ok (node', removed)) :
    Thins [node'] [node] ∧ (items [node]).Perm (items [node'] ++ items removed) := by
  obtain ⟨nodeHash, nodeNumber, data, children⟩ := node
  obtain ⟨⟨kept, removedBelow⟩, hbelow, h⟩ := except_bind_eq_ok h
  cases h
  obtain ⟨hthins, hchildren⟩ : Thins kept children ∧
    (items children).Perm (items kept ++ items removed) := pruneChildren_spec children hbelow
  exact ⟨.keep rfl rfl hthins .nil, by
    simpa [item] using hchildren.cons (nodeHash, nodeNumber, data)⟩

omit [DecidableEq H] [LinearOrder N] in
theorem detachAt_spec {path : List Nat} {roots removed : List (Node H N V)} {root : Node H N V}
    (h : detachAt path roots = some (root, removed)) :
    nodeAt path roots = some root ∧ root ∈ nodesOf roots := by
  induction path generalizing roots removed with
  | nil => simp [detachAt] at h
  | cons i path ih =>
    cases path with
    | nil =>
      obtain ⟨node, hget, hnode⟩ := Option.map_eq_some_iff.mp h
      cases hnode
      exact ⟨hget, mem_nodesOf_of_mem (List.mem_of_getElem? hget)⟩
    | cons j path =>
      obtain ⟨node, hget, h⟩ := Option.bind_eq_some_iff.mp h
      obtain ⟨⟨root', children⟩, hdetach, hroot⟩ := Option.map_eq_some_iff.mp h
      cases hroot
      obtain ⟨hat, hmem⟩ := ih hdetach
      exact ⟨by rw [nodeAt_cons (by simp), hget]; exact hat,
        mem_nodesOf_of_child (List.mem_of_getElem? hget) hmem⟩

end Prune

theorem Shaped.subtree [LT N] {chain : Ancestry H N} {forest : List (Node H N V)}
    (h : Shaped chain forest) {x : Node H N V} (hx : x ∈ nodesOf forest) : Shaped chain [x] := by
  induction h with
  | nil => simp at hx
  | cons number above children _ _ ihChildren ihRest =>
    simp only [nodesOf_cons, List.mem_cons, List.mem_append] at hx
    rcases hx with rfl | hx | hx
    · exact .cons number above children (fun _ _ y hy => absurd hy (by simp)) .nil
    · exact ihChildren hx
    · exact ihRest hx

/-! ## Importing a block -/

theorem modify_length_append {α : Type} (before after : List α) (x : α) (f : α → α) :
    (before ++ x :: after).modify before.length f = before ++ f x :: after := by
  induction before with
  | nil => rfl
  | cons y before ih => simpa using ih

theorem mem_nodesOf_middle {before after : List (Node H N V)} {node x : Node H N V} :
    x ∈ nodesOf (before ++ node :: after) ↔ x ∈ nodesOf [node] ∨ x ∈ nodesOf (before ++ after) := by
  rw [← List.mem_append, ← nodesOf_append]
  exact (nodesOf_perm List.perm_middle).mem_iff

theorem deepest_true (lineage : List (Nat × Node H N V)) :
    (deepest (fun _ => true) lineage).getD [] = lineage.map Prod.fst := by
  have hbelow : ∀ (below : List (Nat × Node H N V)) (node : Node H N V),
      deepestBelow (fun _ => true) node below = some (below.map Prod.fst) := by
    intro below
    induction below with
    | nil => intro node; rfl
    | cons entry rest ih => intro node; simp [deepestBelow, ih]
  cases lineage with
  | nil => rfl
  | cons entry rest => simp [deepest, hbelow]

section Import

variable [LinearOrder N] {chain : Ancestry H N}

theorem Shaped.push {roots : List (Node H N V)} (h : Shaped chain roots) (new : Node H N V)
    (hnumber : new.number = chain.number new.hash) (hchildren : new.children = [])
    (hleaf : ∀ x ∈ nodesOf roots, chain.isDescendentOf new.hash x.hash = false)
    {lineage : List (Nat × Node H N V)}
    (hlineage : lineageFrom (fun x => chain.isDescendentOf x new.hash) roots 0 = lineage) :
    ∃ children, childrenAt (lineage.map Prod.fst) roots = some children ∧
      ((∀ child ∈ children, child.hash ≠ new.hash) →
        (∀ x ∈ nodesOf (setChildrenAt (lineage.map Prod.fst) (children ++ [new]) roots),
          x.hash = new.hash ∨ ∃ y ∈ nodesOf roots, y.hash = x.hash) ∧
        Shaped chain (setChildrenAt (lineage.map Prod.fst) (children ++ [new]) roots)) := by
  have hnew : nodesOf [new] = [new] := by simp [hchildren]
  induction lineage generalizing roots with
  | nil =>
    refine ⟨roots, rfl, fun hdistinct => ?_⟩
    have hnone := (h.lineal (chain.line new.hash)).no_ancestor (lineageFrom_eq_nil hlineage)
    refine ⟨fun x hx => ?_, shaped_append.mpr ⟨h, fun x hx y hy => ?_, ?_⟩⟩
    · simp only [setChildrenAt, List.map_nil, nodesOf_append, hnew, List.mem_append,
        List.mem_singleton] at hx
      rcases hx with hx | rfl
      · exact .inr ⟨x, hx, rfl⟩
      · exact .inl rfl
    · obtain rfl : y = new := by simpa [hnew] using hy
      refine ⟨fun heq => ?_, hnone x hx, hleaf x hx⟩
      -- A node with the hash of the new block would be a root or below an ancestor of it.
      obtain ⟨root, hroot, hx⟩ := mem_nodesOf.mp hx
      rcases hx with rfl | hx
      · exact hdistinct _ hroot heq
      · have hdesc := (h.tree hroot).above x hx
        have hno := hnone root (mem_nodesOf_of_mem hroot)
        simp [heq, hno] at hdesc
    · refine .cons hnumber ?_ (hchildren ▸ .nil) (fun _ _ y hy => absurd hy (by simp)) .nil
      simp [hchildren]
  | cons entry below ih =>
    obtain ⟨i, node⟩ := entry
    obtain ⟨before, after, rfl, hi, hnode, hbelow⟩ := lineageFrom_eq_cons hlineage
    obtain rfl : i = before.length := by simpa using hi
    obtain ⟨htree, hseparate, hothers⟩ := shaped_cons.mp (h.perm List.perm_middle)
    obtain ⟨-, haround⟩ := (h.lineal (chain.line new.hash)).around hnode
    obtain ⟨children, hat, hpush⟩ := ih htree.children
      (fun x hx => hleaf x (mem_nodesOf_of_child (by simp) hx)) hbelow.symm
    refine ⟨children, by simpa [childrenAt] using hat, fun hdistinct => ?_⟩
    obtain ⟨hmem, hshaped⟩ := hpush hdistinct
    simp only [List.map_cons, setChildrenAt, modify_length_append]
    generalize setChildrenAt (below.map Prod.fst) (children ++ [new]) node.children = grown
      at hmem hshaped ⊢
    have hmemTree : ∀ x ∈ nodesOf [{ node with children := grown }],
        x.hash = new.hash ∨ ∃ y ∈ nodesOf [node], y.hash = x.hash := by
      intro x hx
      simp only [nodesOf_cons, nodesOf_nil, List.append_nil, List.mem_cons] at hx
      rcases hx with rfl | hx
      · exact .inr ⟨node, by simp, rfl⟩
      · rcases hmem x hx with hx | ⟨y, hy, hyx⟩
        · exact .inl hx
        · exact .inr ⟨y, by simp [hy], hyx⟩
    constructor
    · intro x hx
      rcases mem_nodesOf_middle.mp hx with hx | hx
      · rcases hmemTree x hx with hx | ⟨y, hy, hyx⟩
        · exact .inl hx
        · exact .inr ⟨y, mem_nodesOf_middle.mpr (.inl hy), hyx⟩
      · exact .inr ⟨x, mem_nodesOf_middle.mpr (.inr hx), rfl⟩
    · refine Shaped.perm (shaped_cons.mpr ⟨?_, ?_, hothers⟩) List.perm_middle.symm
      · refine .cons ?_ ?_ hshaped (fun _ _ y hy => absurd hy (by simp)) .nil
        · exact htree.number_eq node (by simp)
        · intro x hx
          rcases hmem x hx with hx | ⟨y, hy, hyx⟩
          · rw [hx]
            exact hnode
          · rw [← hyx]
            exact htree.above y hy
      · intro x hx y hy
        rcases hmemTree x hx with hx | ⟨x', hx', hxhash⟩
        · rw [hx]
          refine ⟨fun heq => ?_, ?_, ?_⟩
          · have hapart := hseparate node (by simp) y hy
            simp [← heq, hnode, Ancestry.Apart] at hapart
          · exact hleaf y (mem_nodesOf_middle.mpr (.inr hy))
          · exact haround y hy
        · rw [← hxhash]
          exact hseparate x' hx' y hy

end Import

/-! ## Operations -/

theorem Outcome.bind_eq_ok {α β : Type} {x : Outcome E α} {f : α → Outcome E β} {b : β}
    (h : x.bind f = some (.ok b)) : ∃ a, x = some (.ok a) ∧ f a = some (.ok b) := by
  match x, h with
  | some (.ok a), h => exact ⟨a, rfl, h⟩

section Operations

variable [DecidableEq H] [LinearOrder N] {chain : Ancestry H N} {tree : ForkTree H N V}
  {hash : H} {number : N} {isDescendentOf : H → H → Except E Bool}

omit [DecidableEq H] in
theorem rebalance_shaped (h : Shaped chain tree.roots) : Shaped chain tree.rebalance.roots :=
  (thins_rebalanceRoots tree.roots).shaped h

theorem importNode_spec (h : Shaped chain tree.roots) (data : V)
    (hleaf : ∀ x ∈ nodesOf tree.roots, chain.isDescendentOf hash x.hash = false) :
    ∃ result, tree.importNode hash (chain.number hash) data (chain.answer E) = some result ∧
      ∀ tree' isRoot, result = .ok (tree', isRoot) → Shaped chain tree'.roots := by
  unfold importNode
  split_ifs with hrevert
  · exact ⟨_, rfl, by simp⟩
  · obtain ⟨children, hat, hpush⟩ := h.push ⟨hash, chain.number hash, data, []⟩ rfl rfl hleaf rfl
    have hanswer : ∀ x, chain.answer E x hash = .ok (chain.isDescendentOf x hash) := fun _ => rfl
    simp only [findNodeIndexWhere_eq hanswer (h.lineal (chain.line hash)), Outcome.bind,
      deepest_true, hat]
    split_ifs with hduplicate hlength
    · exact ⟨_, rfl, by simp⟩
    all_goals
      have hshaped := (hpush (by simpa using hduplicate)).2
      refine ⟨_, rfl, ?_⟩
      rintro _ _ ⟨⟩
    · exact (thins_rebalanceRoots _).shaped hshaped
    · exact hshaped

variable {tree' : ForkTree H N V} {predicate : V → Bool}

theorem prune_shaped {removed : List (H × N × V)} (h : Shaped chain tree.roots)
    (hprune : tree.prune hash number isDescendentOf predicate = some (.ok (tree', removed))) :
    Shaped chain tree'.roots := by
  obtain ⟨found, -, hprune⟩ := Outcome.bind_eq_ok hprune
  cases found with
  | none =>
    cases hprune
    exact h
  | some path =>
    dsimp only at hprune
    split at hprune
    · cases hprune
    · rename_i root removedRoots hdetach
      split at hprune
      · cases hprune
      · rename_i root' removedBelow hroot
        cases hprune
        exact (thins_rebalanceRoots _).shaped
          ((Node.prune_spec hroot).1.shaped (h.subtree (detachAt_spec hdetach).2))

omit [DecidableEq H] in
theorem finalizeRootAt_shaped {position : Nat} {data : V} (h : Shaped chain tree.roots)
    (hroot : tree.finalizeRootAt position = some (tree', data)) :
    Shaped chain tree'.roots := by
  obtain ⟨⟨node, rest⟩, hremove, hnode⟩ := Option.map_eq_some_iff.mp hroot
  cases hnode
  obtain ⟨before, after, _, hroots, -⟩ := swapRemove_eq hremove
  exact (h.tree (hroots ▸ by simp)).children

theorem finalizeRoot_shaped {data : Option V} (h : Shaped chain tree.roots)
    (hroot : tree.finalizeRoot hash = some (tree', data)) :
    Shaped chain tree'.roots := by
  unfold finalizeRoot at hroot
  split at hroot
  · cases hroot
    exact h
  · obtain ⟨⟨tree'', data'⟩, hat, heq⟩ := Option.map_eq_some_iff.mp hroot
    cases heq
    exact finalizeRootAt_shaped h hat

omit [DecidableEq H] [LinearOrder N] in
theorem retainRoots_sublist {retain : Node H N V → Except (Error E) Bool}
    {roots kept : List (Node H N V)} {changed : Bool}
    (h : retainRoots retain roots = .ok (kept, changed)) : kept.Sublist roots := by
  induction roots generalizing kept changed with
  | nil =>
    cases h
    exact .slnil
  | cons root rest ih =>
    rw [retainRoots] at h
    obtain ⟨keep, -, h⟩ := except_bind_eq_ok h
    obtain ⟨⟨kept', changed'⟩, hrest, h⟩ := except_bind_eq_ok h
    cases keep with
    | true =>
      cases h
      exact (ih hrest).cons_cons _
    | false =>
      cases h
      exact (ih hrest).cons _

variable {result : FinalizationResult V}

theorem finalize_shaped (h : Shaped chain tree.roots)
    (hfinalize : tree.finalize hash number isDescendentOf = some (.ok (tree', result))) :
    Shaped chain tree'.roots := by
  unfold finalize at hfinalize
  split_ifs at hfinalize
  · cases hfinalize
  · split at hfinalize
    · cases hfinalize
    · rename_i rooted data hroot
      cases hfinalize
      exact finalizeRoot_shaped h hroot
    · rename_i rooted hroot
      obtain ⟨below, -, hrest⟩ := except_bind_eq_ok (Option.some.inj hfinalize)
      split_ifs at hrest
      obtain ⟨⟨roots, changed⟩, hretain, hrest⟩ := except_bind_eq_ok hrest
      cases hrest
      exact (Thins.of_sublist (retainRoots_sublist hretain)).shaped (finalizeRoot_shaped h hroot)

omit [DecidableEq H] in
theorem Shaped.open {before after after' : List (Node H N V)} {root : Node H N V}
    (h : Shaped chain (before ++ root :: after)) (hperm : after'.Perm after) :
    Shaped chain (before ++ after' ++ root.children) ∧ Shaped chain (before ++ after') := by
  obtain ⟨htree, hseparate, hothers⟩ := shaped_cons.mp (h.perm List.perm_middle)
  have hrest : Shaped chain (before ++ after') := hothers.perm (hperm.symm.append_left before)
  refine ⟨shaped_append.mpr ⟨hrest, fun x hx y hy => ?_, htree.children⟩, hrest⟩
  refine (hseparate y (by simp [hy]) x ?_).symm
  exact (nodesOf_perm (hperm.append_left before)).mem_iff.mp hx

theorem finalizeAncestorsLoop_shaped (fuel : Nat) {tree tree' : ForkTree H N V} {idx : Nat}
    {changed : Bool} (h : Shaped chain tree.roots)
    (hloop : finalizeAncestorsLoop hash number isDescendentOf fuel tree idx changed =
      some (.ok (tree', result))) : Shaped chain tree'.roots := by
  induction fuel generalizing tree idx changed with
  | zero => cases hloop
  | succ fuel ih =>
    rw [finalizeAncestorsLoop] at hloop
    split at hloop
    · cases hloop
      exact h
    · rename_i root hroot
      split_ifs at hloop with hhash
      · obtain ⟨⟨tree'', data⟩, hat, heq⟩ := Option.map_eq_some_iff.mp hloop
        cases heq
        exact finalizeRootAt_shaped h hat
      · split at hloop
        · cases hloop
        · exact ih h hloop
        · split at hloop
          · cases hloop
          · rename_i isAncestor hancestor
            split at hloop
            · cases hloop
            · rename_i removed roots hremove
              obtain ⟨before, after, after', hroots, -, rfl, hperm⟩ := swapRemove_eq hremove
              obtain ⟨hopened, hrest⟩ := Shaped.open (hroots ▸ h) hperm
              refine ih ?_ hloop
              split_ifs
              · exact hopened
              · exact hrest

theorem finalizeWithAncestors_shaped (h : Shaped chain tree.roots)
    (hfinalize : tree.finalizeWithAncestors hash number isDescendentOf =
      some (.ok (tree', result))) : Shaped chain tree'.roots := by
  unfold finalizeWithAncestors at hfinalize
  split_ifs at hfinalize
  · cases hfinalize
  · split at hfinalize
    · cases hfinalize
    · rename_i rooted data hroot
      cases hfinalize
      exact finalizeRoot_shaped h hroot
    · rename_i rooted hroot
      exact finalizeAncestorsLoop_shaped _ (finalizeRoot_shaped h hroot) hfinalize

theorem findFinalized_mem {nodes : List (Node H N V)} {i j : Nat} {node : Node H N V}
    (h : findFinalized hash number isDescendentOf predicate i nodes = .ok (some (j, node))) :
    node ∈ nodes := by
  induction nodes generalizing i with
  | nil => cases h
  | cons root rest ih =>
    rw [findFinalized] at h
    obtain ⟨hit, -, h⟩ := except_bind_eq_ok h
    split_ifs at h
    · obtain ⟨passed, -, h⟩ := except_bind_eq_ok h
      split_ifs at h
      cases h
      exact List.mem_cons_self
    · exact List.mem_cons_of_mem _ (ih h)

theorem finalizeWithDescendentIf_shaped (h : Shaped chain tree.roots)
    (hfinalize : tree.finalizeWithDescendentIf hash number isDescendentOf predicate =
      .ok (tree', result)) : Shaped chain tree'.roots := by
  unfold finalizeWithDescendentIf at hfinalize
  split_ifs at hfinalize
  · obtain ⟨found, hfound, hrest⟩ := except_bind_eq_ok hfinalize
    obtain ⟨⟨roots, changed⟩, hretain, hrest⟩ := except_bind_eq_ok hrest
    cases hrest
    refine (Thins.of_sublist (retainRoots_sublist hretain)).shaped ?_
    cases found with
    | none => exact h
    | some entry => exact (h.tree (findFinalized_mem hfound)).children

omit [DecidableEq H] in
theorem drainFilter_spec (h : Shaped chain tree.roots) (filter : H → N → V → FilterAction) :
    ∃ tree' removed, tree.drainFilter filter = some (tree', removed) ∧
      Shaped chain tree'.roots := by
  obtain ⟨removed, hrebuild⟩ := rebuild_eq (visitFilter filter) tree.roots
  have hgrown := (thins_grownForest (keepsBlock_visitFilter filter) tree.roots).shaped h
  rw [drainFilter, hrebuild]
  refine ⟨_, _, rfl, ?_⟩
  split_ifs
  · exact hgrown
  · exact rebalance_shaped hgrown

omit [DecidableEq H] in
theorem map_spec (h : Shaped chain tree.roots) (f : H → N → V → W) :
    ∃ tree', tree.map f = some tree' ∧ Shaped chain tree'.roots := by
  obtain ⟨removed, hrebuild⟩ := rebuild_eq (visitMap f) tree.roots
  have hgrown := (thins_grownForest (keepsBlock_visitMap f) tree.roots).shaped h
  rw [map, hrebuild]
  exact ⟨_, rfl, hgrown⟩

/-! ## No operation panics -/

omit [DecidableEq H] [LinearOrder N] in
theorem detachAt_isSome {path : List Nat} {roots : List (Node H N V)}
    (h : (nodeAt path roots).isSome) : (detachAt path roots).isSome := by
  induction path generalizing roots with
  | nil => simp [nodeAt] at h
  | cons i path ih =>
    cases path with
    | nil => simpa [nodeAt, detachAt] using h
    | cons j path =>
      cases hget : roots[i]? with
      | none => simp [nodeAt, hget] at h
      | some node =>
        have hsub : (detachAt (j :: path) node.children).isSome :=
          ih (by simpa [nodeAt_cons, hget] using h)
        simpa [detachAt, hget] using hsub

theorem swapRemove_of_lt {α : Type} {xs : List α} {i : Nat} (h : i < xs.length) :
    ∃ rest, swapRemove xs i = some (xs[i], rest) := by
  have hne : xs ≠ [] := by
    rintro rfl
    simp at h
  simp [swapRemove, List.getElem?_eq_getElem h, List.getLast?_eq_some_getLast hne]

/-- Every round of the loop passes a root or removes one. -/
theorem finalizeAncestorsLoop_isSome (fuel : Nat) (tree : ForkTree H N V) (idx : Nat)
    (changed : Bool) (hfuel : size (tree.roots.drop idx) < fuel) :
    (finalizeAncestorsLoop hash number isDescendentOf fuel tree idx changed).isSome := by
  induction fuel generalizing tree idx changed with
  | zero => omega
  | succ fuel ih =>
    rw [finalizeAncestorsLoop]
    cases hget : tree.roots[idx]? with
    | none => rfl
    | some root =>
      obtain ⟨hlt, hroot⟩ := List.getElem?_eq_some_iff.mp hget
      obtain ⟨rest, hremove⟩ := swapRemove_of_lt hlt
      rw [hroot] at hremove
      obtain ⟨before, after, after', hroots, rfl, rfl, hperm⟩ := swapRemove_eq hremove
      have hsize : size (tree.roots.drop before.length) =
          1 + size root.children + size after := by
        simp [hroots]
      have hnext : size (tree.roots.drop (before.length + 1)) = size after := by
        rw [← List.tail_drop, hroots, List.drop_left, List.tail_cons]
      dsimp only
      split_ifs with hhash
      · simp [finalizeRootAt, hremove]
      · split
        · rfl
        · exact ih _ _ _ (by omega)
        · split
          · rfl
          · rw [hremove]
            refine ih _ _ _ ?_
            have hafter := size_perm hperm
            dsimp only
            split_ifs
            · rw [List.append_assoc, List.drop_left, size_append]
              omega
            · rw [List.drop_left]
              omega

end Operations

/-! ## Sequences of operations -/

section Reachable

variable [DecidableEq H] [LinearOrder N] (chain : Ancestry H N) (E : Type)

/-- A tree after operations that succeeded; ancestors are imported first. -/
inductive Reachable : {V : Type} → ForkTree H N V → Prop
  | new {V : Type} : Reachable (ForkTree.new : ForkTree H N V)
  | rebalance {V : Type} {tree : ForkTree H N V} (h : Reachable tree) : Reachable tree.rebalance
  | importNode {V : Type} {tree tree' : ForkTree H N V} {hash : H} {data : V} {isRoot : Bool}
      (h : Reachable tree)
      (order : ∀ x ∈ nodesOf tree.roots, chain.isDescendentOf hash x.hash = false)
      (step : tree.importNode hash (chain.number hash) data (chain.answer E) =
        some (.ok (tree', isRoot))) : Reachable tree'
  | prune {V : Type} {tree tree' : ForkTree H N V} {hash : H} {predicate : V → Bool}
      {removed : List (H × N × V)} (h : Reachable tree)
      (step : tree.prune hash (chain.number hash) (chain.answer E) predicate =
        some (.ok (tree', removed))) : Reachable tree'
  | finalizeRoot {V : Type} {tree tree' : ForkTree H N V} {hash : H} {data : Option V}
      (h : Reachable tree) (step : tree.finalizeRoot hash = some (tree', data)) : Reachable tree'
  | finalize {V : Type} {tree tree' : ForkTree H N V} {hash : H} {result : FinalizationResult V}
      (h : Reachable tree)
      (step : tree.finalize hash (chain.number hash) (chain.answer E) =
        some (.ok (tree', result))) : Reachable tree'
  | finalizeWithAncestors {V : Type} {tree tree' : ForkTree H N V} {hash : H}
      {result : FinalizationResult V} (h : Reachable tree)
      (step : tree.finalizeWithAncestors hash (chain.number hash) (chain.answer E) =
        some (.ok (tree', result))) : Reachable tree'
  | finalizeWithDescendentIf {V : Type} {tree tree' : ForkTree H N V} {hash : H}
      {predicate : V → Bool} {result : FinalizationResult V} (h : Reachable tree)
      (step : tree.finalizeWithDescendentIf hash (chain.number hash) (chain.answer E) predicate =
        .ok (tree', result)) : Reachable tree'
  | drainFilter {V : Type} {tree tree' : ForkTree H N V} {filter : H → N → V → FilterAction}
      {removed : List (H × N × V)} (h : Reachable tree)
      (step : tree.drainFilter filter = some (tree', removed)) : Reachable tree'
  | map {V W : Type} {tree : ForkTree H N V} {tree' : ForkTree H N W} {f : H → N → V → W}
      (h : Reachable tree) (step : tree.map f = some tree') : Reachable tree'

variable {chain} {E}

theorem Reachable.shaped {V : Type} {tree : ForkTree H N V} (h : Reachable chain E tree) :
    Shaped chain tree.roots := by
  induction h with
  | new => exact .nil
  | rebalance _ ih => exact rebalance_shaped ih
  | importNode _ order step ih =>
    obtain ⟨result, hresult, hshaped⟩ := importNode_spec (E := E) ih _ order
    exact hshaped _ _ (Option.some.inj (hresult.symm.trans step))
  | prune _ step ih => exact prune_shaped ih step
  | finalizeRoot _ step ih => exact finalizeRoot_shaped ih step
  | finalize _ step ih => exact finalize_shaped ih step
  | finalizeWithAncestors _ step ih => exact finalizeWithAncestors_shaped ih step
  | finalizeWithDescendentIf _ step ih => exact finalizeWithDescendentIf_shaped ih step
  | drainFilter _ step ih =>
    obtain ⟨tree', removed, hresult, hshaped⟩ := drainFilter_spec ih _
    cases hresult.symm.trans step
    exact hshaped
  | map _ step ih =>
    obtain ⟨tree', hresult, hshaped⟩ := map_spec ih _
    cases hresult.symm.trans step
    exact hshaped

/-- The hashes in the tree are distinct, and a node lies above another one exactly where its
block is an ancestor. -/
theorem Reachable.above_iff_descendent {V : Type} {tree : ForkTree H N V}
    (h : Reachable chain E tree) :
    ((nodesOf tree.roots).map Node.hash).Nodup ∧
      ∀ a ∈ nodesOf tree.roots, ∀ b ∈ nodesOf tree.roots,
        Above tree.roots a b ↔ chain.isDescendentOf a.hash b.hash = true :=
  ⟨h.shaped.hasShape.nodup, h.shaped.hasShape.above_iff⟩

end Reachable

def pathAncestry (α : Type) [DecidableEq α] : Ancestry (List α) ℕ where
  isDescendentOf a b := decide (a <+: b ∧ a ≠ b)
  number := List.length
  irrefl a := by simp
  trans {a b c} hab hbc := by
    simp only [decide_eq_true_eq] at *
    refine ⟨hab.1.trans hbc.1, ?_⟩
    rintro rfl
    exact hab.2 (hab.1.eq_of_length (Nat.le_antisymm hab.1.length_le hbc.1.length_le))
  chain {a b c} hac hbc := by
    simp only [decide_eq_true_eq] at *
    rcases List.prefix_or_prefix_of_prefix hac.1 hbc.1 with h | h
    · by_cases heq : a = b
      · exact .inl heq
      · exact .inr (.inl ⟨h, heq⟩)
    · by_cases heq : b = a
      · exact .inl heq.symm
      · exact .inr (.inr ⟨h, heq⟩)
  number_lt {a b} hab := by
    simp only [decide_eq_true_eq] at hab
    refine Nat.lt_of_le_of_ne hab.1.length_le fun heq => hab.2 (hab.1.eq_of_length heq)

/-- Two branches below one block; the finalization of that block makes them the roots. -/
theorem Reachable.above_iff_descendent_forked :
    ∃ tree : ForkTree (List ℕ) ℕ Unit,
      ((nodesOf tree.roots).map Node.hash = [[1, 2], [1, 2, 4], [1, 3]]) ∧
      ((nodesOf tree.roots).map Node.hash).Nodup ∧
      ∀ a ∈ nodesOf tree.roots, ∀ b ∈ nodesOf tree.roots,
        Above tree.roots a b ↔ (pathAncestry ℕ).isDescendentOf a.hash b.hash = true := by
  have h₁ : Reachable (pathAncestry ℕ) Unit
      (⟨[⟨[1], 1, (), []⟩], none⟩ : ForkTree (List ℕ) ℕ Unit) := .importNode .new (by decide) rfl
  have h₂ : Reachable (pathAncestry ℕ) Unit
      (⟨[⟨[1], 1, (), [⟨[1, 3], 2, (), []⟩]⟩], none⟩ : ForkTree (List ℕ) ℕ Unit) :=
    @Reachable.importNode _ _ _ _ _ _ _ _ _ [1, 3] () _ h₁ (by decide) rfl
  have h₃ : Reachable (pathAncestry ℕ) Unit
      (⟨[⟨[1], 1, (), [⟨[1, 3], 2, (), []⟩, ⟨[1, 2], 2, (), []⟩]⟩], none⟩ :
        ForkTree (List ℕ) ℕ Unit) :=
    @Reachable.importNode _ _ _ _ _ _ _ _ _ [1, 2] () _ h₂ (by decide) rfl
  have h₄ : Reachable (pathAncestry ℕ) Unit
      (⟨[⟨[1], 1, (), [⟨[1, 2], 2, (), [⟨[1, 2, 4], 3, (), []⟩]⟩, ⟨[1, 3], 2, (), []⟩]⟩], none⟩ :
        ForkTree (List ℕ) ℕ Unit) :=
    @Reachable.importNode _ _ _ _ _ _ _ _ _ [1, 2, 4] () _ h₃ (by decide) rfl
  have h₅ : Reachable (pathAncestry ℕ) Unit
      (⟨[⟨[1, 2], 2, (), [⟨[1, 2, 4], 3, (), []⟩]⟩, ⟨[1, 3], 2, (), []⟩], some 1⟩ :
        ForkTree (List ℕ) ℕ Unit) :=
    @Reachable.finalizeRoot _ _ _ _ _ _ _ _ _ [1] _ h₄ rfl
  exact ⟨_, rfl, h₅.above_iff_descendent⟩

end PolkadotSdk.ForkTree
