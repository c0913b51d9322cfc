import PolkadotSdk.ForkTree.Shape

/-! # The roots of a fork tree

What finalizing a root takes out of a forest in which every node is below an ancestor, whatever
the order in which the blocks were imported.
-/

namespace PolkadotSdk.ForkTree

variable {H N V E : Type}

/-! ## Every node is below an ancestor -/

section Rooted

variable [LT N] (chain : Ancestry H N)

def Rooted (roots : List (Node H N V)) : Prop :=
  ∀ node ∈ nodesOf roots, node.number = chain.number node.hash ∧
    ∀ child ∈ node.children, chain.isDescendentOf node.hash child.hash = true

variable {chain}

theorem rooted_cons {node : Node H N V} {rest : List (Node H N V)} :
    Rooted chain (node :: rest) ↔
      (node.number = chain.number node.hash ∧
        ∀ child ∈ node.children, chain.isDescendentOf node.hash child.hash = true) ∧
      Rooted chain node.children ∧ Rooted chain rest := by
  unfold Rooted
  rw [nodesOf_cons, List.forall_mem_cons, List.forall_mem_append]

theorem rooted_append {xs ys : List (Node H N V)} :
    Rooted chain (xs ++ ys) ↔ Rooted chain xs ∧ Rooted chain ys := by
  unfold Rooted
  rw [nodesOf_append, List.forall_mem_append]

theorem Rooted.below {base : H} {forest : List (Node H N V)} (h : Rooted chain forest)
    (hbase : ∀ child ∈ forest, chain.isDescendentOf base child.hash = true) :
    ∀ x ∈ nodesOf forest, chain.isDescendentOf base x.hash = true := by
  induction forest using forest_induction with
  | nil => simp
  | cons node rest ihChildren ihRest =>
    obtain ⟨⟨-, hnode⟩, hchildren, hrest⟩ := rooted_cons.mp h
    obtain ⟨hbaseNode, hbaseRest⟩ := List.forall_mem_cons.mp hbase
    rw [nodesOf_cons, List.forall_mem_cons, List.forall_mem_append]
    refine ⟨hbaseNode, ihChildren hchildren fun child hchild => ?_, ihRest hrest hbaseRest⟩
    exact chain.trans hbaseNode (hnode child hchild)

end Rooted

/-! ## Operations -/

section Operations

variable [DecidableEq H] [LinearOrder N] {chain : Ancestry H N} {hash : H}

def rootOf (tree : ForkTree H N V) (hash : H) : Option (Node H N V) :=
  tree.roots.find? fun root => decide (root.hash = hash)

omit [LinearOrder N] in
theorem finalizeRoot_eq (tree : ForkTree H N V) (hash : H) :
    tree.finalizeRoot hash = some (match rootOf tree hash with
      | none => (tree, none)
      | some root => (⟨root.children, some root.number⟩, some root.data)) := by
  unfold finalizeRoot rootOf
  cases hposition : tree.roots.findIdx? fun node => decide (node.hash = hash) with
  | none =>
    rw [List.find?_eq_none.mpr (by simpa using hposition)]
  | some position =>
    obtain ⟨hlt, hhash, hearlier⟩ := List.findIdx?_eq_some_iff_getElem.mp hposition
    obtain ⟨rest, hremove⟩ := swapRemove_of_lt hlt
    have hfind : tree.roots.find? (fun node => decide (node.hash = hash)) =
        some tree.roots[position] := List.find?_eq_some_iff_getElem.mpr
      ⟨hhash, position, hlt, rfl, fun j hj => by simpa using hearlier j hj⟩
    simp [hfind, finalizeRootAt, hremove]

/-! ## Finalizing a block with its ancestors -/

section Round

variable {before after after' : List (Node H N V)} {root : Node H N V}

def opened (chain : Ancestry H N) (hash : H) (root : Node H N V) (rest : List (Node H N V)) :
    List (Node H N V) :=
  if chain.isDescendentOf root.hash hash then rest ++ root.children else rest

omit [DecidableEq H] in
theorem mem_nodesOf_opened (hperm : after'.Perm after) {node : Node H N V}
    (hnode : node ∈ nodesOf (opened chain hash root (before ++ after'))) :
    node ∈ nodesOf (before ++ root :: after) := by
  have hafter := (nodesOf_perm hperm).mem_iff (a := node)
  simp only [nodesOf_append, nodesOf_cons, List.mem_append, List.mem_cons]
  unfold opened at hnode
  split_ifs at hnode <;> simp only [nodesOf_append, List.mem_append] at hnode <;> tauto

omit [DecidableEq H] in
theorem nodesOf_opened_or (h : Rooted chain (before ++ root :: after)) (hperm : after'.Perm after)
    (hhash : root.hash ≠ hash) {node : Node H N V}
    (hnode : node ∈ nodesOf (before ++ root :: after)) :
    node ∈ nodesOf (opened chain hash root (before ++ after')) ∨ node.hash ≠ hash := by
  have hafter := (nodesOf_perm hperm).mem_iff (a := node)
  obtain ⟨-, hrest⟩ := rooted_append.mp h
  obtain ⟨⟨-, hroot⟩, hchildren, -⟩ := rooted_cons.mp hrest
  simp only [nodesOf_append, nodesOf_cons, List.mem_append, List.mem_cons] at hnode
  by_cases heq : node = root
  · exact .inr (heq ▸ hhash)
  unfold opened
  split_ifs with hancestor <;> simp only [nodesOf_append, List.mem_append]
  · tauto
  · have hno : node ∈ nodesOf root.children → node.hash ≠ hash := by
      rintro hbelow rfl
      exact hancestor (hchildren.below hroot node hbelow)
    tauto

end Round

end Operations

end PolkadotSdk.ForkTree
