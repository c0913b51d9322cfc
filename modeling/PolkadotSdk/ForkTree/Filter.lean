import Mathlib
import PolkadotSdk.ForkTree.Prune
import PolkadotSdk.ForkTree.Shape

/-! # What a filter keeps and what a map changes

Nodes of a forest may look alike, so a node is told apart by its line: the items from its root
down to it. A filter keeps lines whole, and those it does not keep are handed out by their last
item. A map leaves every node at its place.
-/

namespace PolkadotSdk.ForkTree

variable {H N V W : Type}

/-! ## Lines -/

mutual

def Node.lines : Node H N V → List (List (H × N × V))
  | ⟨hash, number, data, children⟩ =>
    [(hash, number, data)] :: (lines children).map ((hash, number, data) :: ·)

def lines : List (Node H N V) → List (List (H × N × V))
  | [] => []
  | node :: rest => node.lines ++ lines rest

end

@[simp] theorem lines_nil : lines ([] : List (Node H N V)) = [] := rfl

@[simp] theorem lines_cons (node : Node H N V) (rest : List (Node H N V)) :
    lines (node :: rest) =
      [item node] :: (lines node.children).map (item node :: ·) ++ lines rest := by
  cases node
  rfl

variable (forest : List (Node H N V))

theorem lines_eq_flatMap : lines forest = forest.flatMap fun node => lines [node] := by
  induction forest with
  | nil => rfl
  | cons node rest ih => simp [ih]

theorem lines_perm {xs ys : List (Node H N V)} (h : xs.Perm ys) : (lines xs).Perm (lines ys) := by
  rw [lines_eq_flatMap xs, lines_eq_flatMap ys]
  exact h.flatMap_right _

theorem ne_nil_of_mem_lines {forest : List (Node H N V)} {line : List (H × N × V)}
    (h : line ∈ lines forest) : line ≠ [] := by
  induction forest with
  | nil => cases h
  | cons node rest ih =>
    simp only [lines_cons, List.cons_append, List.mem_cons, List.mem_append, List.mem_map] at h
    rcases h with rfl | ⟨below, -, rfl⟩ | h
    · simp
    · simp
    · exact ih h

theorem lines_last : (lines forest).filterMap List.getLast? = items forest := by
  induction forest using forest_induction with
  | nil => rfl
  | cons node rest ihChildren ihRest =>
    have hbelow : ((lines node.children).map (item node :: ·)).filterMap List.getLast? =
        (lines node.children).filterMap List.getLast? := by
      rw [List.filterMap_map]
      refine List.filterMap_congr fun line hline => ?_
      exact List.getLast?_cons_of_ne_nil (ne_nil_of_mem_lines hline)
    rw [lines_cons, List.filterMap_append, List.filterMap_cons, hbelow, ihChildren, ihRest,
      items_cons]
    rfl

theorem lines_rebalanceRoots : (lines (rebalanceRoots forest)).Perm (lines forest) := by
  have hsort : ∀ keyed : List (Nat × Node H N V),
      (lines (sortByDepth keyed)).Perm (lines (keyed.map Prod.snd)) :=
    fun keyed => lines_perm (sortByDepth_perm keyed).symm
  refine (hsort _).trans ?_
  induction forest using forest_induction with
  | nil => exact .nil
  | cons node rest ihChildren ihRest =>
    obtain ⟨hash, number, data, children⟩ := node
    simp only [rebalanceKeyed, Node.rebalance, List.map_cons, lines_cons, item]
    exact ((((hsort _).trans ihChildren).map _).cons _).append ihRest

/-! ## The actions of a filter -/

section Filter

variable (filter : H → N → V → FilterAction)

def ancestorLines (line : List (H × N × V)) : List (List (H × N × V)) := line.dropLast.inits.tail

def action (line : List (H × N × V)) : Option FilterAction :=
  if line.dropLast.all fun x => decide (filter x.1 x.2.1 x.2.2 = .keepNode) then
    line.getLast?.map fun x => filter x.1 x.2.1 x.2.2
  else none

/-- The node is not removed, and the strict ancestors are kept, or one with all below it. -/
def retained (line : List (H × N × V)) : Bool :=
  ((ancestorLines line).all (fun ancestor => decide (action filter ancestor = some .keepNode)) ||
    (ancestorLines line).any fun ancestor => decide (action filter ancestor = some .keepTree)) &&
  decide (action filter line ≠ some .remove)

variable {filter} {x y : H × N × V} {line : List (H × N × V)}

theorem action_cons (h : line ≠ []) :
    action filter (x :: line) =
      if filter x.1 x.2.1 x.2.2 = .keepNode then action filter line else none := by
  unfold action
  rw [List.dropLast_cons_of_ne_nil h, List.getLast?_cons_of_ne_nil h, List.all_cons]
  split_ifs <;> simp_all

theorem ancestorLines_cons (h : line ≠ []) :
    ancestorLines (x :: line) = [x] :: (ancestorLines line).map (x :: ·) := by
  obtain ⟨y, rest, rfl⟩ := List.exists_cons_of_ne_nil h
  unfold ancestorLines
  cases rest <;> simp [List.dropLast]

theorem ne_nil_of_mem_ancestorLines {ancestor : List (H × N × V)}
    (h : ancestor ∈ ancestorLines line) : ancestor ≠ [] := by
  unfold ancestorLines at h
  cases hline : line.dropLast with
  | nil => simp [hline] at h
  | cons y rest =>
    rw [hline, List.inits_cons, List.tail_cons] at h
    obtain ⟨below, -, rfl⟩ := List.mem_map.mp h
    exact List.cons_ne_nil _ _

theorem retained_singleton : retained filter [x] = decide (filter x.1 x.2.1 x.2.2 ≠ .remove) := by
  simp [retained, ancestorLines, action]

theorem retained_cons (h : line ≠ []) :
    retained filter (x :: line) = match filter x.1 x.2.1 x.2.2 with
      | .remove => false
      | .keepTree => true
      | .keepNode => retained filter line := by
  have hown : action filter [x] = some (filter x.1 x.2.1 x.2.2) := rfl
  have hbelow : ∀ ancestor ∈ ancestorLines line, action filter (x :: ancestor) =
      if filter x.1 x.2.1 x.2.2 = .keepNode then action filter ancestor else none :=
    fun ancestor hmem => action_cons (ne_nil_of_mem_ancestorLines hmem)
  unfold retained
  rw [ancestorLines_cons h, action_cons h, List.all_cons, List.any_cons, hown, List.all_map,
    List.any_map]
  cases hfilter : filter x.1 x.2.1 x.2.2 with
  | remove => simpa [hfilter] using fun ancestor hmem => by simp [hbelow ancestor hmem, hfilter]
  | keepTree => simp
  | keepNode =>
    have hsame : ∀ ancestor ∈ ancestorLines line,
        action filter (x :: ancestor) = action filter ancestor := fun ancestor hmem => by
      rw [hbelow ancestor hmem, if_pos hfilter]
    rw [if_pos rfl, Bool.eq_iff_iff]
    simp only [Function.comp_apply, Bool.and_eq_true, Bool.or_eq_true, List.all_eq_true,
      List.any_eq_true, decide_eq_true_eq, reduceCtorEq, Option.some.injEq, true_and, false_or]
    refine and_congr_left fun _ => or_congr ?_ ?_
    · exact forall₂_congr fun ancestor hmem => by rw [hsame ancestor hmem]
    · exact exists_congr fun ancestor => and_congr_right fun hmem => by rw [hsame ancestor hmem]

end Filter

/-! ## The parts that are removed -/

section Cut

variable (visit : Visit H N V W)

mutual

def Node.cut : Node H N V → List (Node H N V)
  | ⟨hash, number, data, children⟩ =>
    match visit ⟨hash, number, data, children⟩ with
    | none => [⟨hash, number, data, children⟩]
    | some (_, descend) => if descend then cutForest children else []

def cutForest : List (Node H N V) → List (Node H N V)
  | [] => []
  | node :: rest => node.cut ++ cutForest rest

end

theorem cut_eq (node : Node H N V) :
    node.cut visit = match visit node with
      | none => [node]
      | some (_, descend) => cutForest visit (if descend then node.children else []) := by
  cases node
  unfold Node.cut
  split
  · rfl
  · rename_i kept descend _
    cases descend <;> simp [cutForest]

theorem cutForest_eq_flatMap (forest : List (Node H N V)) :
    cutForest visit forest = forest.flatMap (Node.cut visit) := by
  induction forest with
  | nil => rfl
  | cons node rest ih => rw [cutForest, ih, List.flatMap_cons]

theorem cutForest_append (xs ys : List (Node H N V)) :
    cutForest visit (xs ++ ys) = cutForest visit xs ++ cutForest visit ys := by
  simp [cutForest_eq_flatMap]

theorem cutForest_reverse (forest : List (Node H N V)) :
    (cutForest visit forest.reverse).Perm (cutForest visit forest) := by
  rw [cutForest_eq_flatMap, cutForest_eq_flatMap]
  exact (List.reverse_perm forest).flatMap_right _

theorem drainQueue_cut (queue : List (Option Nat × Node H N V)) (acc : Drained H N V W) :
    ((drainQueue visit queue acc).removed ++
        cutForest visit ((drainQueue visit queue acc).nextQueue.map Prod.snd)).Perm
      (acc.removed ++ cutForest visit (acc.nextQueue.map Prod.snd) ++
        cutForest visit (queue.map Prod.snd)) := by
  induction queue generalizing acc with
  | nil => simp [drainQueue, cutForest]
  | cons entry queue ih =>
    obtain ⟨parentIdx, node⟩ := entry
    rw [List.map_cons, cutForest, cut_eq, drainQueue]
    cases hvisit : visit node with
    | none =>
      refine (ih _).trans ?_
      simp only [List.append_assoc]
      exact List.perm_append_comm_assoc _ _ _ |>.append_left _
    | some result =>
      obtain ⟨kept, descend⟩ := result
      dsimp only
      generalize (if descend then node.children else []) = children
      refine (ih _).trans ?_
      have hqueued : (cutForest visit ((children.reverse.map fun c =>
          (some acc.output.length, c)).map Prod.snd)).Perm (cutForest visit children) := by
        rw [List.map_map]
        simpa [Function.comp_def] using cutForest_reverse visit children
      simp only [List.map_append, cutForest_append, List.append_assoc]
      exact ((hqueued.append_right _).append_left _).append_left _

theorem drainLevels_cut (fuel : Nat) {queue : List (Option Nat × Node H N V)}
    {output out : List (Option Nat × Node H N W)} {removed rem : List (Node H N V)}
    (h : drainLevels visit fuel queue output removed = some (out, rem)) :
    rem.Perm (removed ++ cutForest visit (queue.map Prod.snd)) := by
  induction fuel generalizing queue output removed with
  | zero => cases h
  | succ fuel ih =>
    match hqueue : queue with
    | [] =>
      cases h
      simp [cutForest]
    | entry :: rest =>
      have hcut := drainQueue_cut visit (entry :: rest) ⟨output, removed, []⟩
      simp only [List.map_nil, cutForest, List.append_nil] at hcut
      exact (ih h).trans hcut

theorem rebuild_removed {roots removed : List (Node H N V)} {forest : List (Node H N W)}
    (h : rebuild visit roots = some (forest, removed)) :
    removed.Perm (cutForest visit roots) := by
  obtain ⟨⟨out, rem⟩, hdrain, h⟩ := Option.bind_eq_some_iff.mp h
  obtain ⟨_, -, h⟩ := Option.map_eq_some_iff.mp h
  cases h
  have hcut := drainLevels_cut visit _ hdrain
  rw [List.map_map] at hcut
  exact hcut.trans (by simpa [Function.comp_def] using cutForest_reverse visit roots)

end Cut

/-! ## Draining by a filter -/

section Drain

variable (filter : H → N → V → FilterAction)

theorem filter_below (keep : Bool → Bool) (node : Node H N V) :
    (lines [node]).filter (fun line => keep (retained filter line)) =
      match filter node.hash node.number node.data with
      | .remove => (lines [node]).filter fun _ => keep false
      | .keepTree => (lines [node]).filter fun _ => keep true
      | .keepNode => [[item node]].filter (fun _ => keep true) ++
          ((lines node.children).filter fun line => keep (retained filter line)).map
            (item node :: ·) := by
  have hown : retained filter [item node] =
      decide (filter node.hash node.number node.data ≠ .remove) := retained_singleton
  have hbelow : ∀ line ∈ lines node.children, retained filter (item node :: line) =
      match filter node.hash node.number node.data with
      | .remove => false
      | .keepTree => true
      | .keepNode => retained filter line :=
    fun line hline => retained_cons (ne_nil_of_mem_lines hline)
  have hlines : lines [node] = [[item node]] ++ (lines node.children).map (item node :: ·) := by
    simp
  -- Where the node is not kept by itself, all lines through it have the same fate.
  have hall : ∀ fate : Bool, retained filter [item node] = fate →
      (∀ line ∈ lines node.children, retained filter (item node :: line) = fate) →
      (lines [node]).filter (fun line => keep (retained filter line)) =
        (lines [node]).filter fun _ => keep fate := by
    intro fate hfirst hrest
    refine List.filter_congr fun line hline => ?_
    rw [hlines, List.mem_append, List.mem_singleton, List.mem_map] at hline
    rcases hline with rfl | ⟨below, hmem, rfl⟩
    · rw [hfirst]
    · rw [hrest below hmem]
  cases hfilter : filter node.hash node.number node.data with
  | remove =>
    rw [hfilter] at hown hbelow
    exact hall false hown hbelow
  | keepTree =>
    rw [hfilter] at hown hbelow
    exact hall true hown hbelow
  | keepNode =>
    rw [hfilter] at hown hbelow
    rw [hlines, List.filter_append, List.filter_map]
    refine congrArg₂ (· ++ ·) ?_ (congrArg _ (List.filter_congr fun line hline => ?_))
    · simp [List.filter_cons, hown]
    · rw [Function.comp_apply, hbelow line hline]

theorem lines_grownForest (forest : List (Node H N V)) :
    lines (grownForest (visitFilter filter) forest) = (lines forest).filter (retained filter) := by
  induction forest using forest_induction with
  | nil => rfl
  | cons node rest ihChildren ihRest =>
    have hsplit : lines (node :: rest) = lines [node] ++ lines rest := by simp
    have hnode := filter_below filter id node
    simp only [id] at hnode
    rw [hsplit, List.filter_append, hnode, grownForest]
    cases hfilter : filter node.hash node.number node.data with
    | remove =>
      have hgrown : node.grown (visitFilter filter) = none := by
        simp [grown_eq, visitFilter, hfilter]
      simp [hgrown, ihRest]
    | keepTree =>
      have hgrown : node.grown (visitFilter filter) = some node := by
        simp [grown_eq, visitFilter, hfilter]
      simp [hgrown, ihRest]
    | keepNode =>
      have hgrown : node.grown (visitFilter filter) =
          some { node with children := grownForest (visitFilter filter) node.children } := by
        simp [grown_eq, visitFilter, hfilter]
      simp [hgrown, ihRest, ihChildren, item]

theorem items_cutForest (forest : List (Node H N V)) :
    items (cutForest (visitFilter filter) forest) =
      ((lines forest).filter fun line => !retained filter line).filterMap List.getLast? := by
  induction forest using forest_induction with
  | nil => rfl
  | cons node rest ihChildren ihRest =>
    have hsplit : lines (node :: rest) = lines [node] ++ lines rest := by simp
    rw [hsplit, List.filter_append, filter_below filter (!·) node, cutForest, cut_eq,
      items_append, ihRest, List.filterMap_append]
    congr 1
    cases hfilter : filter node.hash node.number node.data with
    | remove =>
      simp only [visitFilter, hfilter, Bool.not_false, List.filter_true]
      exact (lines_last [node]).symm
    | keepTree => simp [visitFilter, hfilter, cutForest]
    | keepNode =>
      simp only [visitFilter, hfilter, Bool.not_true, List.filter_false, List.nil_append,
        if_true]
      rw [ihChildren, List.filterMap_map]
      refine List.filterMap_congr fun line hline => ?_
      exact (List.getLast?_cons_of_ne_nil
        (ne_nil_of_mem_lines (List.mem_of_mem_filter hline))).symm

/-- The filter keeps the lines of the retained nodes, and hands out all other nodes once. -/
theorem drainFilter_partition (tree : ForkTree H N V) :
    ∃ tree' removed, tree.drainFilter filter = some (tree', removed) ∧
      tree'.bestFinalizedNumber = tree.bestFinalizedNumber ∧
      (lines tree'.roots).Perm ((lines tree.roots).filter (retained filter)) ∧
      removed.Perm (((lines tree.roots).filter fun line => !retained filter line).filterMap
        List.getLast?) := by
  obtain ⟨removed, hrebuild⟩ := rebuild_eq (visitFilter filter) tree.roots
  have hremoved : (removedItems removed).Perm
      (((lines tree.roots).filter fun line => !retained filter line).filterMap List.getLast?) := by
    rw [← items_cutForest]
    exact (removedItems_perm removed).trans (items_perm (rebuild_removed _ hrebuild))
  have hlines := lines_grownForest filter tree.roots
  rw [drainFilter, hrebuild]
  cases removed with
  | nil => exact ⟨_, _, rfl, rfl, .of_eq hlines, hremoved⟩
  | cons node rest =>
    exact ⟨_, _, rfl, rfl, (lines_rebalanceRoots _).trans (.of_eq hlines), hremoved⟩

end Drain

/-! ## Mapping the data -/

section Map

variable (f : H → N → V → W)

def mapItem : H × N × V → H × N × W
  | (hash, number, data) => (hash, number, f hash number data)

theorem grown_visitMap (node : Node H N V) :
    node.grown (visitMap f) = some ⟨node.hash, node.number, f node.hash node.number node.data,
      grownForest (visitMap f) node.children⟩ := by
  simp [grown_eq, visitMap]

theorem grownForest_visitMap (forest : List (Node H N V)) :
    grownForest (visitMap f) forest = forest.map fun node =>
      ⟨node.hash, node.number, f node.hash node.number node.data,
        grownForest (visitMap f) node.children⟩ := by
  rw [grownForest_eq]
  simp [grown_visitMap]

theorem nodeAt_visitMap (path : List Nat) (forest : List (Node H N V)) :
    (nodeAt path (grownForest (visitMap f) forest)).map item =
      (nodeAt path forest).map fun node => mapItem f (item node) := by
  induction path generalizing forest with
  | nil => rfl
  | cons i path ih =>
    cases path with
    | nil =>
      simp only [nodeAt]
      rw [grownForest_visitMap, List.getElem?_map, Option.map_map]
      rfl
    | cons j path =>
      rw [nodeAt_cons (List.cons_ne_nil _ _), nodeAt_cons (List.cons_ne_nil _ _),
        grownForest_visitMap, List.getElem?_map]
      cases forest[i]? with
      | none => rfl
      | some node => exact ih node.children

theorem items_visitMap (forest : List (Node H N V)) :
    items (grownForest (visitMap f) forest) = (items forest).map (mapItem f) := by
  induction forest using forest_induction with
  | nil => rfl
  | cons node rest ihChildren ihRest =>
    rw [grownForest, grown_visitMap]
    simp [ihChildren, ihRest, item, mapItem]

/-- The map leaves every node at its place, with its data replaced. -/
theorem map_faithful (tree : ForkTree H N V) :
    ∃ tree', tree.map f = some tree' ∧
      tree'.bestFinalizedNumber = tree.bestFinalizedNumber ∧
      (∀ path, (nodeAt path tree'.roots).map item =
        (nodeAt path tree.roots).map fun node => mapItem f (item node)) ∧
      (nodeIter tree'.roots).map item =
        (nodeIter tree.roots).map fun node => mapItem f (item node) := by
  obtain ⟨removed, hrebuild⟩ := rebuild_eq (visitMap f) tree.roots
  rw [map, hrebuild]
  refine ⟨_, rfl, rfl, fun path => nodeAt_visitMap f path tree.roots, ?_⟩
  rw [nodeIter_eq, nodeIter_eq]
  exact (items_visitMap f tree.roots).trans List.map_map

end Map

/-- Both ways to rebuild a tree are faithful: a filter keeps the lines of the retained nodes and
hands out every other node once, and a map changes no more than the data. -/
theorem rebuild_faithful (tree : ForkTree H N V) (filter : H → N → V → FilterAction)
    (f : H → N → V → W) :
    (∃ tree' removed, tree.drainFilter filter = some (tree', removed) ∧
      tree'.bestFinalizedNumber = tree.bestFinalizedNumber ∧
      (lines tree'.roots).Perm ((lines tree.roots).filter (retained filter)) ∧
      removed.Perm (((lines tree.roots).filter fun line => !retained filter line).filterMap
        List.getLast?)) ∧
    ∃ tree', tree.map f = some tree' ∧
      tree'.bestFinalizedNumber = tree.bestFinalizedNumber ∧
      (∀ path, (nodeAt path tree'.roots).map item =
        (nodeAt path tree.roots).map fun node => mapItem f (item node)) ∧
      (nodeIter tree'.roots).map item =
        (nodeIter tree.roots).map fun node => mapItem f (item node) :=
  ⟨drainFilter_partition filter tree, map_faithful f tree⟩

end PolkadotSdk.ForkTree
