import Mathlib
import PolkadotSdk.ForkTree.Forest

/-! # Rebuilding a tree through a flat queue

`map` and `drain_filter` take the tree apart level by level and put it together from the
end of the flat list. The result is the forest one gets by visiting every node in place.
-/

namespace PolkadotSdk.ForkTree

variable {H N V W : Type}

section Grown

variable (visit : Visit H N V W)

mutual

def Node.grown : Node H N V → Option (Node H N W)
  | ⟨hash, number, data, children⟩ =>
    (visit ⟨hash, number, data, children⟩).map fun (kept, descend) =>
      if descend then { kept with children := kept.children ++ grownForest children } else kept

def grownForest : List (Node H N V) → List (Node H N W)
  | [] => []
  | node :: rest =>
    match node.grown with
    | some kept => kept :: grownForest rest
    | none => grownForest rest

end

theorem grown_eq (node : Node H N V) :
    node.grown visit = (visit node).map fun (kept, descend) =>
      if descend then { kept with children := kept.children ++ grownForest visit node.children }
      else kept := by
  cases node
  rfl

theorem grown_of_visit {visit : Visit H N V W} {node : Node H N V} {kept : Node H N W}
    {descend : Bool} (h : visit node = some (kept, descend)) :
    node.grown visit = some { kept with
      children := kept.children ++ grownForest visit (if descend then node.children else []) } := by
  cases kept
  cases descend <;> simp [grown_eq, h, grownForest]

theorem grownForest_eq (forest : List (Node H N V)) :
    grownForest visit forest = forest.filterMap (Node.grown visit) := by
  induction forest with
  | nil => rfl
  | cons node rest ih =>
    cases h : node.grown visit <;> simp [grownForest, h, ih]

def completed (queue : List (Option Nat × Node H N V)) : List (Option Nat × Node H N W) :=
  queue.filterMap fun (parentIdx, node) => (node.grown visit).map fun kept => (parentIdx, kept)

theorem completed_map (parentIdx : Option Nat) (nodes : List (Node H N V)) :
    completed visit (nodes.map fun node => (parentIdx, node)) =
      (grownForest visit nodes).map fun node => (parentIdx, node) := by
  rw [grownForest_eq, completed, List.filterMap_map, List.map_filterMap]
  rfl

end Grown

/-! ## Handing nodes back -/

private theorem modify_append_left {α : Type} {xs : List α} {i : Nat} (h : i < xs.length)
    (f : α → α) (ys : List α) : (xs ++ ys).modify i f = xs.modify i f ++ ys := by
  induction xs generalizing i with
  | nil => simp at h
  | cons x xs ih =>
    cases i with
    | zero => rfl
    | succ i => simpa using ih (by simpa using h)

private theorem modify_concat {α : Type} (xs : List α) (x : α) (f : α → α) :
    (xs ++ [x]).modify xs.length f = xs ++ [f x] := by
  induction xs with
  | nil => rfl
  | cons y xs ih => simpa using ih

def give (entry : Option Nat × Node H N W) (output : List (Option Nat × Node H N W)) :
    List (Option Nat × Node H N W) :=
  match entry.1 with
  | some parentIdx => output.modify parentIdx (pushChild entry.2)
  | none => output

@[simp] theorem length_give (entry : Option Nat × Node H N W)
    (output : List (Option Nat × Node H N W)) : (give entry output).length = output.length := by
  unfold give
  split <;> simp

def ParentsBelow (n : Nat) (entries : List (Option Nat × Node H N V)) : Prop :=
  ∀ entry ∈ entries, ∃ parentIdx < n, entry.1 = some parentIdx

theorem ParentsBelow.completed {visit : Visit H N V W} {n : Nat}
    {queue : List (Option Nat × Node H N V)} (h : ParentsBelow n queue) :
    ParentsBelow n (completed visit queue) := by
  intro entry hentry
  obtain ⟨⟨parentIdx, node⟩, hmem, hgrown⟩ := List.mem_filterMap.mp hentry
  obtain ⟨kept, -, rfl⟩ := Option.map_eq_some_iff.mp hgrown
  exact h _ hmem

theorem length_foldr_give (entries output : List (Option Nat × Node H N W)) :
    (entries.foldr give output).length = output.length := by
  induction entries with
  | nil => rfl
  | cons entry entries ih => simpa using ih

theorem foldr_give_append {entries : List (Option Nat × Node H N W)}
    {output : List (Option Nat × Node H N W)} (h : ParentsBelow output.length entries)
    (more : List (Option Nat × Node H N W)) :
    entries.foldr give (output ++ more) = entries.foldr give output ++ more := by
  induction entries with
  | nil => rfl
  | cons entry entries ih =>
    obtain ⟨parentIdx, hlt, hparent⟩ := h entry (by simp)
    have hlt' : parentIdx < (entries.foldr give output).length := by
      rwa [length_foldr_give]
    rw [List.foldr_cons, List.foldr_cons, ih (fun e he => h e (by simp [he]))]
    simp [give, hparent, modify_append_left hlt']

theorem handBack_append {output entries : List (Option Nat × Node H N W)}
    (h : ParentsBelow output.length entries) (roots : List (Node H N W)) :
    handBack (output ++ entries) roots (output ++ entries).length =
      handBack (entries.foldr give output) roots output.length := by
  induction entries using List.reverseRecOn generalizing output with
  | nil => simp
  | append_singleton entries entry ih =>
    obtain ⟨parentIdx, hlt, hparent⟩ := h entry (by simp)
    obtain ⟨parent, node⟩ := entry
    obtain rfl : parent = some parentIdx := hparent
    have hlt' : parentIdx < (output ++ entries).length := by
      rw [List.length_append]
      omega
    have hbefore : ParentsBelow (output.modify parentIdx (pushChild node)).length entries := by
      rw [List.length_modify]
      exact fun e he => h e (by simp [he])
    rw [← List.append_assoc, List.length_append, List.length_singleton, handBack]
    simp only [List.getLast?_append, List.getLast?_singleton, Option.some_or, List.dropLast_concat,
      if_pos hlt', modify_append_left hlt]
    have hlength : (output ++ entries).length =
        (output.modify parentIdx (pushChild node) ++ entries).length := by simp
    rw [hlength, ih hbefore]
    simp [give]

theorem handBack_roots (nodes roots : List (Node H N W)) :
    handBack (nodes.map fun node => (none, node)) roots nodes.length =
      some (roots ++ nodes.reverse) := by
  induction nodes using List.reverseRecOn generalizing roots with
  | nil => simp [handBack]
  | append_singleton nodes node ih =>
    rw [List.length_append, List.length_singleton, handBack]
    simp [ih]

/-! ## One level of the queue -/

section Level

variable (visit : Visit H N V W)

theorem foldr_give_children (output : List (Option Nat × Node H N W)) (parentIdx : Option Nat)
    (kept : Node H N W) (children : List (Node H N V)) :
    (completed visit (children.reverse.map fun c => (some output.length, c))).foldr give
        (output ++ [(parentIdx, kept)]) =
      output ++ [(parentIdx, { kept with
        children := kept.children ++ grownForest visit children })] := by
  induction children using List.reverseRecOn with
  | nil =>
    cases kept
    simp [completed, grownForest]
  | append_singleton children child ih =>
    rw [grownForest_eq] at ih ⊢
    cases hchild : child.grown visit with
    | none => simpa [completed, hchild] using ih
    | some grown =>
      have hsplit : completed visit
          ((children ++ [child]).reverse.map fun c => (some output.length, c)) =
          (some output.length, grown) ::
            completed visit (children.reverse.map fun c => (some output.length, c)) := by
        simp [completed, hchild]
      rw [hsplit, List.foldr_cons, ih]
      simp [give, modify_concat, pushChild, hchild]

/-- Draining one level: once everything that is queued has grown and gone back, the output
ends with what the drained queue grows into. -/
theorem drainQueue_grown (queue : List (Option Nat × Node H N V)) (acc : Drained H N V W)
    (hnext : ParentsBelow acc.output.length acc.nextQueue) :
    ParentsBelow (drainQueue visit queue acc).output.length
        (drainQueue visit queue acc).nextQueue ∧
      (completed visit (drainQueue visit queue acc).nextQueue).foldr give
          (drainQueue visit queue acc).output =
        (completed visit acc.nextQueue).foldr give acc.output ++ completed visit queue := by
  induction queue generalizing acc with
  | nil => exact ⟨hnext, by simp [drainQueue, completed]⟩
  | cons entry queue ih =>
    obtain ⟨parentIdx, node⟩ := entry
    cases hvisit : visit node with
    | none =>
      have hgrown : node.grown visit = none := by simp [grown_eq, hvisit]
      simpa [drainQueue, hvisit, completed, hgrown] using
        ih { acc with removed := acc.removed ++ [node] } hnext
    | some result =>
      obtain ⟨kept, descend⟩ := result
      let children := if descend then node.children else []
      let queued := children.reverse.map fun c => (some acc.output.length, c)
      have hnext' : ParentsBelow (acc.output ++ [(parentIdx, kept)]).length
          (acc.nextQueue ++ queued) := by
        intro entry hentry
        rw [List.length_append, List.length_singleton]
        rcases List.mem_append.mp hentry with hmem | hmem
        · obtain ⟨i, hlt, hi⟩ := hnext entry hmem
          exact ⟨i, by omega, hi⟩
        · obtain ⟨c, -, rfl⟩ := List.mem_map.mp hmem
          exact ⟨acc.output.length, by omega, rfl⟩
      obtain ⟨hbelow, hfold⟩ := ih
        { acc with
          output := acc.output ++ [(parentIdx, kept)]
          nextQueue := acc.nextQueue ++ queued } hnext'
      have hsplit : completed visit (acc.nextQueue ++ queued) =
          completed visit acc.nextQueue ++ completed visit queued := by
        simp [completed]
      simp only [drainQueue, hvisit]
      refine ⟨hbelow, hfold.trans ?_⟩
      rw [hsplit, List.foldr_append, foldr_give_children visit,
        foldr_give_append hnext.completed, List.append_assoc]
      simp [completed, grown_of_visit hvisit, children]

theorem size_drainQueue (queue : List (Option Nat × Node H N V)) (acc : Drained H N V W) :
    size ((drainQueue visit queue acc).nextQueue.map Prod.snd) + queue.length ≤
      size (acc.nextQueue.map Prod.snd) + size (queue.map Prod.snd) := by
  induction queue generalizing acc with
  | nil => simp [drainQueue]
  | cons entry queue ih =>
    obtain ⟨parentIdx, node⟩ := entry
    cases hvisit : visit node with
    | none =>
      have := ih { acc with removed := acc.removed ++ [node] }
      simp only [drainQueue, hvisit, List.length_cons, List.map_cons, size_cons]
      dsimp only at this
      omega
    | some result =>
      obtain ⟨kept, descend⟩ := result
      have hle : size (if descend then node.children else []) ≤ size node.children := by
        split <;> simp
      simp only [drainQueue, hvisit, List.length_cons, List.map_cons, size_cons]
      generalize (if descend then node.children else []) = children at hle ⊢
      have hqueued : size ((children.reverse.map fun c =>
          (some acc.output.length, c)).map Prod.snd) = size children := by
        simpa [Function.comp_def] using size_perm (List.reverse_perm children)
      have := ih { acc with
        output := acc.output ++ [(parentIdx, kept)]
        nextQueue :=
          acc.nextQueue ++ children.reverse.map fun c => (some acc.output.length, c) }
      simp only [List.map_append, size_append] at this
      omega

theorem drainLevels_grown (fuel : Nat) (queue : List (Option Nat × Node H N V))
    (output : List (Option Nat × Node H N W)) (removed : List (Node H N V))
    (hfuel : size (queue.map Prod.snd) < fuel) (roots : List (Node H N W)) :
    ∃ out rem, drainLevels visit fuel queue output removed = some (out, rem) ∧
      handBack out roots out.length =
        handBack (output ++ completed visit queue) roots
          (output ++ completed visit queue).length := by
  induction fuel generalizing queue output removed with
  | zero => omega
  | succ fuel ih =>
    match hqueue : queue with
    | [] => exact ⟨output, removed, rfl, by simp [completed]⟩
    | entry :: rest =>
      let drained := drainQueue visit (entry :: rest) ⟨output, removed, []⟩
      have hsize : size (drained.nextQueue.map Prod.snd) + (rest.length + 1) ≤
          0 + size ((entry :: rest).map Prod.snd) :=
        size_drainQueue visit (entry :: rest) ⟨output, removed, []⟩
      obtain ⟨hbelow, hfold⟩ := drainQueue_grown visit (entry :: rest)
        ⟨output, removed, []⟩ (fun e he => absurd he (by simp))
      obtain ⟨out, rem, hout, hback⟩ :=
        ih drained.nextQueue drained.output drained.removed (by omega)
      refine ⟨out, rem, hout, hback.trans ?_⟩
      rw [handBack_append hbelow.completed, ← length_foldr_give, hfold]
      simp [completed]

end Level

/-- The tree is rebuilt as if every node were visited in place. -/
theorem rebuild_eq (visit : Visit H N V W) (roots : List (Node H N V)) :
    ∃ removed, rebuild visit roots = some (grownForest visit roots, removed) := by
  have hqueue : ((roots.reverse.map fun node => ((none : Option Nat), node)).map Prod.snd) =
      roots.reverse := by
    simp [Function.comp_def]
  obtain ⟨out, rem, hout, hback⟩ := drainLevels_grown visit (size roots + 1)
    (roots.reverse.map fun node => (none, node)) [] [] (by
      rw [hqueue, size_perm (List.reverse_perm _)]
      omega) []
  refine ⟨rem, ?_⟩
  have hreverse : grownForest visit roots.reverse = (grownForest visit roots).reverse := by
    rw [grownForest_eq, grownForest_eq, List.filterMap_reverse]
  have hroots := handBack_roots (grownForest visit roots.reverse) []
  simp only [List.nil_append, completed_map, List.length_map] at hback
  rw [rebuild, hout]
  simp [hback.trans hroots, hreverse]

end PolkadotSdk.ForkTree
