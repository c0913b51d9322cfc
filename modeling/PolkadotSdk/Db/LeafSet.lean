import PolkadotSdk.Blockchain.Headers

/-! # The leaves of the block tree

The leaf set keeps the blocks without a child by number, the highest number first, and the blocks
of one number in the order in which they came.
-/

namespace PolkadotSdk.Db

structure LeafSet (H : Type) where
  storage : List (Nat × H)
  sorted : storage.Pairwise fun a b => b.1 ≤ a.1

namespace LeafSet

variable {H : Type} [DecidableEq H]

instance : Membership (Nat × H) (LeafSet H) := ⟨fun leaves leaf => leaf ∈ leaves.storage⟩

instance (leaf : Nat × H) (leaves : LeafSet H) : Decidable (leaf ∈ leaves) :=
  inferInstanceAs (Decidable (leaf ∈ leaves.storage))

def filter (leaves : LeafSet H) (keep : Nat × H → Bool) : LeafSet H :=
  ⟨leaves.storage.filter keep, leaves.sorted.filter keep⟩

/-- Behind the leaves of the same or a higher number. -/
def insertLeaf (leaves : LeafSet H) (leaf : Nat × H) : LeafSet H where
  storage := leaves.storage.orderedInsert (fun a b => b.1 < a.1) leaf
  sorted := by
    obtain ⟨storage, hsorted⟩ := leaves
    induction storage with
    | nil => simp
    | cons first rest ih =>
      rw [List.pairwise_cons] at hsorted
      rw [List.orderedInsert_cons]
      split
      · rename_i hlt
        refine .cons (fun other hother => ?_) (.cons hsorted.1 hsorted.2)
        rcases List.mem_cons.mp hother with rfl | hother
        · exact Nat.le_of_lt hlt
        · exact (hsorted.1 other hother).trans (Nat.le_of_lt hlt)
      · rename_i hle
        refine .cons (fun other hother => ?_) (ih hsorted.2)
        rcases (List.mem_orderedInsert _).mp hother with rfl | hother
        · exact Nat.le_of_not_lt hle
        · exact hsorted.1 other hother

def highestLeaf (leaves : LeafSet H) : Option (Nat × H) :=
  leaves.storage.head?.bind fun first =>
    (leaves.storage.takeWhile fun leaf => leaf.1 = first.1).getLast?

/-- The leaves dropped are returned as well. `none` is a leaf that is there twice. -/
def revert (leaves : LeafSet H) (best : Nat × H) : Option (LeafSet H × List (Nat × H)) :=
  let removed := leaves.storage.filter (best.1 < ·.1)
  let kept := leaves.filter (·.1 ≤ best.1)
  if removed.Nodup then
    some (if best ∈ kept then kept else kept.insertLeaf best, removed)
  else none

variable {leaves : LeafSet H} {leaf other : Nat × H}

omit [DecidableEq H] in
@[simp] theorem mem_filter {keep : Nat × H → Bool} :
    leaf ∈ leaves.filter keep ↔ leaf ∈ leaves ∧ keep leaf = true := List.mem_filter

omit [DecidableEq H] in
@[simp] theorem mem_insertLeaf : other ∈ leaves.insertLeaf leaf ↔ other = leaf ∨ other ∈ leaves :=
  List.mem_orderedInsert _

omit [DecidableEq H] in
theorem highestLeaf_mem (h : leaves.highestLeaf = some leaf) :
    leaf ∈ leaves ∧ ∀ other ∈ leaves, other.1 ≤ leaf.1 := by
  obtain ⟨storage, hsorted⟩ := leaves
  obtain ⟨first, hfirst, hlast⟩ := Option.bind_eq_some_iff.mp h
  obtain ⟨rest, rfl⟩ := List.head?_eq_some_iff.mp hfirst
  have hmem := List.mem_of_getLast? hlast
  have hnumber : leaf.1 = first.1 := by simpa using List.mem_takeWhile_imp hmem
  refine ⟨(List.takeWhile_sublist _).subset hmem, fun other hother => ?_⟩
  rw [hnumber]
  rcases List.mem_cons.mp hother with rfl | hother
  · exact le_rfl
  · exact (List.pairwise_cons.mp hsorted).1 other hother

omit [DecidableEq H] in
theorem highestLeaf_of_mem (h : leaf ∈ leaves) : ∃ highest, leaves.highestLeaf = some highest := by
  obtain ⟨storage, hsorted⟩ := leaves
  cases storage with
  | nil => exact absurd h List.not_mem_nil
  | cons first rest =>
    refine Option.isSome_iff_exists.mp ?_
    simp [highestLeaf, List.takeWhile_cons, List.getLast?_isSome]

end LeafSet

end PolkadotSdk.Db
