import Mathlib
import PolkadotSdk.ForkTree.Model

/-! # Forests and block ancestry

A forest is shaped like the chain when a node lies above another one exactly where its
block is an ancestor of the other block. The shape is kept as a local condition (every
node is an ancestor of the nodes below it, and separate trees are unrelated), which every
operation that only takes nodes away preserves. The path condition is derived from it.
-/

namespace PolkadotSdk.ForkTree

variable {H N V W E : Type}

/-! ## Nodes of a forest -/

@[elab_as_elim]
theorem forest_induction {motive : List (Node H N V) → Prop} (nil : motive [])
    (cons : ∀ node rest, motive node.children → motive rest → motive (node :: rest)) :
    ∀ forest, motive forest
  | [] => nil
  | ⟨_, _, _, children⟩ :: rest =>
    cons _ _ (forest_induction nil cons children) (forest_induction nil cons rest)

@[simp] theorem size_nil : size ([] : List (Node H N V)) = 0 := rfl

@[simp] theorem size_cons (node : Node H N V) (rest : List (Node H N V)) :
    size (node :: rest) = 1 + size node.children + size rest := by
  cases node
  rfl

@[simp] theorem size_append (xs ys : List (Node H N V)) : size (xs ++ ys) = size xs + size ys := by
  induction xs with
  | nil => simp
  | cons x xs ih => simp [ih, Nat.add_assoc]

@[simp] theorem nodesOf_nil : nodesOf ([] : List (Node H N V)) = [] := rfl

@[simp] theorem nodesOf_cons (node : Node H N V) (rest : List (Node H N V)) :
    nodesOf (node :: rest) = node :: (nodesOf node.children ++ nodesOf rest) := by
  cases node
  rfl

@[simp] theorem nodesOf_append (xs ys : List (Node H N V)) :
    nodesOf (xs ++ ys) = nodesOf xs ++ nodesOf ys := by
  induction xs with
  | nil => rfl
  | cons x xs ih => simp [ih]

variable {forest : List (Node H N V)}

theorem mem_nodesOf {x : Node H N V} :
    x ∈ nodesOf forest ↔ ∃ root ∈ forest, x = root ∨ x ∈ nodesOf root.children := by
  induction forest with
  | nil => simp
  | cons node rest ih => simp [ih, or_assoc]

theorem mem_nodesOf_of_mem {x : Node H N V} (h : x ∈ forest) :
    x ∈ nodesOf forest :=
  mem_nodesOf.mpr ⟨x, h, .inl rfl⟩

theorem mem_nodesOf_of_child {root x : Node H N V} (hroot : root ∈ forest)
    (hx : x ∈ nodesOf root.children) : x ∈ nodesOf forest :=
  mem_nodesOf.mpr ⟨root, hroot, .inr hx⟩

theorem nodesOf_perm {xs ys : List (Node H N V)} (h : xs.Perm ys) :
    (nodesOf xs).Perm (nodesOf ys) := by
  have hflat : ∀ zs : List (Node H N V),
      nodesOf zs = zs.flatMap fun z => z :: nodesOf z.children := by
    intro zs
    induction zs with
    | nil => rfl
    | cons z zs ih => simp [ih]
  rw [hflat, hflat]
  exact h.flatMap_right _

theorem size_eq_length (forest : List (Node H N V)) : size forest = (nodesOf forest).length := by
  induction forest using forest_induction with
  | nil => rfl
  | cons node rest ihChildren ihRest => simp [ihChildren, ihRest]; omega

theorem size_perm {xs ys : List (Node H N V)} (h : xs.Perm ys) : size xs = size ys := by
  rw [size_eq_length, size_eq_length, (nodesOf_perm h).length_eq]

theorem iterate_eq (fuel : Nat) (forest : List (Node H N V)) (h : size forest ≤ fuel) :
    iterate fuel forest = nodesOf forest := by
  induction fuel generalizing forest with
  | zero =>
    cases forest with
    | nil => rfl
    | cons node rest => simp at h
  | succ fuel ih =>
    cases forest with
    | nil => rfl
    | cons node rest =>
      have hsize : size (node.children ++ rest) ≤ fuel := by
        simp only [size_cons, size_append] at h ⊢
        omega
      simp [iterate, ih _ hsize]

theorem nodeIter_eq (roots : List (Node H N V)) : nodeIter roots = nodesOf roots :=
  iterate_eq _ _ (Nat.le_refl _)

/-! ## Ancestry -/

/-- A strict forest order on block hashes, which determine the numbers. -/
structure Ancestry (H N : Type) [LT N] where
  isDescendentOf : H → H → Bool
  number : H → N
  irrefl : ∀ a, isDescendentOf a a = false
  trans : ∀ {a b c}, isDescendentOf a b = true → isDescendentOf b c = true →
    isDescendentOf a c = true
  chain : ∀ {a b c}, isDescendentOf a c = true → isDescendentOf b c = true →
    a = b ∨ isDescendentOf a b = true ∨ isDescendentOf b a = true
  number_lt : ∀ {a b}, isDescendentOf a b = true → number a < number b

namespace Ancestry

variable [LT N] (chain : Ancestry H N)

def answer (E : Type) (base block : H) : Except E Bool := .ok (chain.isDescendentOf base block)

def Apart (a b : H) : Prop :=
  a ≠ b ∧ chain.isDescendentOf a b = false ∧ chain.isDescendentOf b a = false

variable {chain}

theorem Apart.symm {a b : H} (h : chain.Apart a b) : chain.Apart b a := ⟨h.1.symm, h.2.2, h.2.1⟩

theorem asymm {a b : H} (h : chain.isDescendentOf a b = true) :
    chain.isDescendentOf b a = false := by
  cases hba : chain.isDescendentOf b a with
  | false => rfl
  | true => exact absurd (chain.trans h hba) (by simp [chain.irrefl])

theorem ne_of_descendent {a b : H} (h : chain.isDescendentOf a b = true) : a ≠ b := by
  rintro rfl
  simp [chain.irrefl] at h

end Ancestry

/-! ## Shape -/

section Shape

variable [LT N] (chain : Ancestry H N)

def Separate (xs ys : List (Node H N V)) : Prop :=
  ∀ x ∈ nodesOf xs, ∀ y ∈ nodesOf ys, chain.Apart x.hash y.hash

inductive Shaped : List (Node H N V) → Prop
  | nil : Shaped []
  | cons {node rest} (number : node.number = chain.number node.hash)
      (above : ∀ x ∈ nodesOf node.children, chain.isDescendentOf node.hash x.hash = true)
      (children : Shaped node.children) (separate : Separate chain [node] rest)
      (others : Shaped rest) : Shaped (node :: rest)

variable {chain}

variable {xs ys : List (Node H N V)}

theorem Separate.symm (h : Separate chain xs ys) :
    Separate chain ys xs :=
  fun y hy x hx => (h x hx y hy).symm

variable {node : Node H N V}

theorem shaped_cons {rest : List (Node H N V)} :
    Shaped chain (node :: rest) ↔
      Shaped chain [node] ∧ Separate chain [node] rest ∧ Shaped chain rest := by
  constructor
  · intro h
    cases h with
    | cons number above children separate rest =>
      exact ⟨.cons number above children (fun _ _ y hy => absurd hy (by simp)) .nil,
        separate, rest⟩
  · rintro ⟨hnode, hseparate, hrest⟩
    cases hnode with
    | cons number above children _ _ => exact .cons number above children hseparate hrest

theorem shaped_append :
    Shaped chain (xs ++ ys) ↔ Shaped chain xs ∧ Separate chain xs ys ∧ Shaped chain ys := by
  induction xs with
  | nil =>
    refine ⟨fun h => ⟨.nil, fun x hx => absurd hx (by simp), h⟩, fun h => h.2.2⟩
  | cons x xs ih =>
    have hsplit : Separate chain [x] (xs ++ ys) ↔
        Separate chain [x] xs ∧ Separate chain [x] ys := by
      simp only [Separate, nodesOf_append, List.mem_append]
      grind
    have hjoin : Separate chain (x :: xs) ys ↔
        Separate chain [x] ys ∧ Separate chain xs ys := by
      simp only [Separate, nodesOf_cons, List.mem_cons, List.mem_append, nodesOf_nil,
        List.not_mem_nil, or_false]
      grind
    have hcons : Shaped chain (x :: xs) ↔
        Shaped chain [x] ∧ Separate chain [x] xs ∧ Shaped chain xs := shaped_cons
    rw [List.cons_append, shaped_cons, ih, hsplit, hjoin, hcons]
    constructor
    · rintro ⟨hx, ⟨hxs, hys⟩, hshaped, hseparate, hrest⟩
      exact ⟨⟨hx, hxs, hshaped⟩, ⟨hys, hseparate⟩, hrest⟩
    · rintro ⟨⟨hx, hxs, hshaped⟩, ⟨hys, hseparate⟩, hrest⟩
      exact ⟨hx, ⟨hxs, hys⟩, hshaped, hseparate, hrest⟩

theorem Shaped.perm (h : Shaped chain xs) (hperm : xs.Perm ys) : Shaped chain ys := by
  induction hperm with
  | nil => exact h
  | cons x hperm ih =>
    obtain ⟨hx, hseparate, hrest⟩ := shaped_cons.mp h
    refine shaped_cons.mpr ⟨hx, ?_, ih hrest⟩
    exact fun a ha b hb => hseparate a ha b ((nodesOf_perm hperm).mem_iff.mpr hb)
  | swap x y rest =>
    have hsplit : Shaped chain ([y] ++ [x] ++ rest) := h
    obtain ⟨hpair, hseparate, hrest⟩ := shaped_append.mp hsplit
    obtain ⟨hy, hyx, hx⟩ := shaped_append.mp hpair
    have hpair' : Shaped chain ([x] ++ [y]) := shaped_append.mpr ⟨hx, hyx.symm, hy⟩
    refine shaped_append.mpr ⟨hpair', fun a ha => hseparate a ?_, hrest⟩
    exact (nodesOf_perm (List.Perm.swap x y [])).mem_iff.mpr ha
  | trans _ _ ih₁ ih₂ => exact ih₂ (ih₁ h)

variable {forest : List (Node H N V)}

theorem Shaped.tree (h : Shaped chain forest) (hnode : node ∈ forest) : Shaped chain [node] := by
  induction forest with
  | nil => exact absurd hnode (by simp)
  | cons root rest ih =>
    obtain ⟨hroot, _, hrest⟩ := shaped_cons.mp h
    rcases List.mem_cons.mp hnode with rfl | hnode
    · exact hroot
    · exact ih hrest hnode

theorem Shaped.children (h : Shaped chain [node]) : Shaped chain node.children := by
  cases h with
  | cons _ _ children _ _ => exact children

theorem Shaped.above (h : Shaped chain [node]) :
    ∀ x ∈ nodesOf node.children, chain.isDescendentOf node.hash x.hash = true := by
  cases h with
  | cons _ above _ _ _ => exact above

theorem Shaped.number_eq (h : Shaped chain forest) :
    ∀ x ∈ nodesOf forest, x.number = chain.number x.hash := by
  induction h with
  | nil => simp
  | cons number _ _ _ _ ihChildren ihRest =>
    intro x hx
    simp only [nodesOf_cons, List.mem_cons, List.mem_append] at hx
    rcases hx with rfl | hx | hx
    · exact number
    · exact ihChildren x hx
    · exact ihRest x hx

theorem Shaped.nodup (h : Shaped chain forest) : ((nodesOf forest).map Node.hash).Nodup := by
  induction h with
  | nil => simp
  | @cons node rest number above children separate _ ihChildren ihRest =>
    simp only [nodesOf_cons, List.map_cons, List.map_append, List.nodup_cons,
      List.nodup_append, List.mem_append, List.mem_map]
    refine ⟨?_, ihChildren, ihRest, ?_⟩
    · rintro (⟨x, hx, hhash⟩ | ⟨x, hx, hhash⟩)
      · exact chain.ne_of_descendent (above x hx) hhash.symm
      · exact (separate node (by simp) x hx).1 hhash.symm
    · rintro _ ⟨x, hx, rfl⟩ _ ⟨y, hy, rfl⟩
      exact (separate x (by simp [hx]) y hy).1

end Shape

/-! ## Paths -/

inductive Above : List (Node H N V) → Node H N V → Node H N V → Prop
  | top {roots a b} (ha : a ∈ roots) (hb : b ∈ nodesOf a.children) : Above roots a b
  | deeper {roots root a b} (hroot : root ∈ roots) (h : Above root.children a b) : Above roots a b

variable {roots : List (Node H N V)} {a b : Node H N V}

theorem Above.mem_children (h : Above roots a b) : b ∈ nodesOf a.children := by
  induction h with
  | top _ hb => exact hb
  | deeper _ _ ih => exact ih

theorem above_iff : Above roots a b ↔ a ∈ nodesOf roots ∧ b ∈ nodesOf a.children := by
  constructor
  · intro h
    refine ⟨?_, h.mem_children⟩
    induction h with
    | top ha _ => exact mem_nodesOf_of_mem ha
    | deeper hroot _ ih => exact mem_nodesOf_of_child hroot ih
  · rintro ⟨ha, hb⟩
    induction roots using forest_induction with
    | nil => simp at ha
    | cons node rest ihChildren ihRest =>
      simp only [nodesOf_cons, List.mem_cons, List.mem_append] at ha
      rcases ha with rfl | ha | ha
      · exact .top List.mem_cons_self hb
      · exact .deeper List.mem_cons_self (ihChildren ha)
      · cases ihRest ha with
        | top ha hb => exact .top (List.mem_cons_of_mem _ ha) hb
        | deeper hroot h => exact .deeper (List.mem_cons_of_mem _ hroot) h

theorem mem_nodesOf_of_below (ha : a ∈ nodesOf roots) (hb : b ∈ nodesOf a.children) :
    b ∈ nodesOf roots := by
  induction roots using forest_induction with
  | nil => simp at ha
  | cons node rest ihChildren ihRest =>
    simp only [nodesOf_cons, List.mem_cons, List.mem_append] at ha ⊢
    rcases ha with rfl | ha | ha
    · exact .inr (.inl hb)
    · exact .inr (.inl (ihChildren ha))
    · exact .inr (.inr (ihRest ha))

variable [LT N] {chain : Ancestry H N}

/-- Blocks are numbered as in the chain and occur once, and the path to a node passes through
exactly its ancestors. -/
structure HasShape (chain : Ancestry H N) (roots : List (Node H N V)) : Prop where
  number : ∀ x ∈ nodesOf roots, x.number = chain.number x.hash
  nodup : ((nodesOf roots).map Node.hash).Nodup
  above_iff : ∀ a ∈ nodesOf roots, ∀ b ∈ nodesOf roots,
    Above roots a b ↔ chain.isDescendentOf a.hash b.hash = true

section

variable (h : Shaped chain roots)
include h

theorem Shaped.descendent_of_above (hab : Above roots a b) :
    chain.isDescendentOf a.hash b.hash = true := by
  induction hab with
  | top ha hb => exact (h.tree ha).above _ hb
  | deeper hroot _ ih => exact ih (h.tree hroot).children

theorem Shaped.above_of_descendent (ha : a ∈ nodesOf roots)
    (hb : b ∈ nodesOf roots) (hab : chain.isDescendentOf a.hash b.hash = true) :
    Above roots a b := by
  induction h with
  | nil => simp at ha
  | @cons node rest _ above _ separate _ ihChildren ihRest =>
    have hforest : nodesOf (node :: rest) = nodesOf [node] ++ nodesOf rest := by simp
    rw [hforest, List.mem_append] at ha hb
    rcases ha with ha | ha <;> rcases hb with hb | hb
    · simp only [nodesOf_cons, nodesOf_nil, List.append_nil, List.mem_cons] at ha hb
      rcases ha with rfl | ha <;> rcases hb with rfl | hb
      · simp [chain.irrefl] at hab
      · exact .top List.mem_cons_self hb
      · simp [Ancestry.asymm (above _ ha)] at hab
      · exact .deeper List.mem_cons_self (ihChildren ha hb)
    · simp [(separate _ ha _ hb).2.1] at hab
    · simp [(separate _ hb _ ha).2.2] at hab
    · cases ihRest ha hb with
      | top ha hb => exact .top (List.mem_cons_of_mem _ ha) hb
      | deeper hroot h => exact .deeper (List.mem_cons_of_mem _ hroot) h

theorem Shaped.eq_of_hash (ha : a ∈ nodesOf roots)
    (hb : b ∈ nodesOf roots) (hhash : a.hash = b.hash) : a = b :=
  List.inj_on_of_nodup_map h.nodup ha hb hhash

theorem Shaped.mem_children (ha : a ∈ nodesOf roots)
    (hb : b ∈ nodesOf roots) (hab : chain.isDescendentOf a.hash b.hash = true) :
    b ∈ nodesOf a.children :=
  (h.above_of_descendent ha hb hab).mem_children

theorem Shaped.hasShape :
    HasShape chain roots :=
  ⟨h.number_eq, h.nodup, fun _ ha _ hb => ⟨h.descendent_of_above, h.above_of_descendent ha hb⟩⟩

end

theorem HasShape.shaped (h : HasShape chain roots) : Shaped chain roots := by
  induction roots using forest_induction with
  | nil => exact .nil
  | cons node rest ihChildren ihRest =>
    have hforest : nodesOf (node :: rest) = nodesOf [node] ++ nodesOf rest := by simp
    have hdisjoint : ∀ x ∈ nodesOf [node], ∀ y ∈ nodesOf rest, x.hash ≠ y.hash := by
      have hnodup := h.nodup
      rw [hforest, List.map_append, List.nodup_append] at hnodup
      exact fun x hx y hy =>
        hnodup.2.2 _ (List.mem_map_of_mem hx) _ (List.mem_map_of_mem hy)
    have hpart : ∀ {part : List (Node H N V)}, (nodesOf part).Sublist (nodesOf (node :: rest)) →
        HasShape chain part := by
      intro part hsub
      refine ⟨fun x hx => h.number x (hsub.subset hx), h.nodup.sublist (hsub.map _), ?_⟩
      intro a ha b hb
      rw [← h.above_iff a (hsub.subset ha) b (hsub.subset hb), ForkTree.above_iff,
        ForkTree.above_iff]
      exact and_congr_left fun _ => iff_of_true ha (hsub.subset ha)
    have hbelow : ∀ {x y : Node H N V}, x ∈ nodesOf (node :: rest) →
        y ∈ nodesOf (node :: rest) → chain.isDescendentOf x.hash y.hash = true →
        y ∈ nodesOf x.children :=
      fun hx hy hxy => ((h.above_iff _ hx _ hy).mpr hxy).mem_children
    refine .cons (h.number node (by simp)) (fun x hx => ?_) (ihChildren (hpart ?_)) ?_
      (ihRest (hpart ?_))
    · exact (h.above_iff node (by simp) x (by simp [hx])).mp (.top List.mem_cons_self hx)
    · rw [nodesOf_cons]
      exact (List.sublist_append_left _ _).cons _
    · intro x hx y hy
      have hx' : x ∈ nodesOf (node :: rest) := hforest ▸ List.mem_append_left _ hx
      have hy' : y ∈ nodesOf (node :: rest) := hforest ▸ List.mem_append_right _ hy
      refine ⟨hdisjoint x hx y hy, ?_, ?_⟩
      · by_contra hxy
        have hmem := mem_nodesOf_of_below hx (hbelow hx' hy' (by simpa using hxy))
        exact hdisjoint y hmem y hy rfl
      · by_contra hyx
        have hmem := mem_nodesOf_of_below hy (hbelow hy' hx' (by simpa using hyx))
        exact hdisjoint x hx x hmem rfl
    · rw [nodesOf_cons]
      exact (List.sublist_append_right _ _).cons _

/-! ## Taking nodes away -/

/-- The second forest with some trees left out at every level, in any order. -/
inductive Thins : List (Node H N W) → List (Node H N V) → Prop
  | nil : Thins [] []
  | keep {node' node rest' rest} (hash : node'.hash = node.hash)
      (number : node'.number = node.number) (children : Thins node'.children node.children)
      (others : Thins rest' rest) : Thins (node' :: rest') (node :: rest)
  | drop {rest' node rest} (h : Thins rest' rest) : Thins rest' (node :: rest)
  | perm {xs ys forest} (h : Thins xs forest) (hperm : xs.Perm ys) : Thins ys forest

namespace Thins

omit [LT N] in
theorem refl (forest : List (Node H N V)) : Thins forest forest := by
  induction forest using forest_induction with
  | nil => exact .nil
  | cons node rest ihChildren ihRest => exact .keep rfl rfl ihChildren ihRest

omit [LT N] in
theorem of_sublist {xs ys : List (Node H N V)} (h : xs.Sublist ys) : Thins xs ys := by
  induction h with
  | slnil => exact .nil
  | cons _ _ ih => exact .drop ih
  | cons_cons _ _ ih => exact .keep rfl rfl (refl _) ih

omit [LT N] in
theorem hash_mem {forest' : List (Node H N W)} {forest : List (Node H N V)}
    (h : Thins forest' forest) :
    ∀ x' ∈ nodesOf forest', ∃ x ∈ nodesOf forest, x.hash = x'.hash := by
  induction h with
  | nil => simp
  | keep hash _ _ _ ihChildren ihRest =>
    intro x' hx'
    simp only [nodesOf_cons, List.mem_cons, List.mem_append] at hx'
    rcases hx' with rfl | hx' | hx'
    · exact ⟨_, by simp, hash.symm⟩
    · obtain ⟨x, hx, hhash⟩ := ihChildren x' hx'
      exact ⟨x, by simp [hx], hhash⟩
    · obtain ⟨x, hx, hhash⟩ := ihRest x' hx'
      exact ⟨x, by simp [hx], hhash⟩
  | drop _ ih =>
    intro x' hx'
    obtain ⟨x, hx, hhash⟩ := ih x' hx'
    exact ⟨x, by simp [hx], hhash⟩
  | perm _ hperm ih => exact fun x' hx' => ih x' ((nodesOf_perm hperm).mem_iff.mpr hx')

theorem shaped {forest' : List (Node H N W)} {forest : List (Node H N V)}
    (h : Thins forest' forest) (hshape : Shaped chain forest) : Shaped chain forest' := by
  induction h with
  | nil => exact .nil
  | @keep node' node rest' rest hash number children hrest ihChildren ihRest =>
    cases hshape with
    | cons hnumber above shapedChildren separate shapedRest =>
      refine .cons (by rw [number, hash, hnumber]) ?_ (ihChildren shapedChildren) ?_
        (ihRest shapedRest)
      · intro x' hx'
        obtain ⟨x, hx, hhash⟩ := children.hash_mem x' hx'
        rw [hash, ← hhash]
        exact above x hx
      · intro x' hx' y' hy'
        have htree : Thins [node'] [node] := .keep hash number children .nil
        obtain ⟨x, hx, hxhash⟩ := htree.hash_mem x' hx'
        obtain ⟨y, hy, hyhash⟩ := hrest.hash_mem y' hy'
        rw [← hxhash, ← hyhash]
        exact separate x hx y hy
  | drop _ ih => exact ih (shaped_cons.mp hshape).2.2
  | perm _ hperm ih => exact (ih hshape).perm hperm

end Thins

end PolkadotSdk.ForkTree
