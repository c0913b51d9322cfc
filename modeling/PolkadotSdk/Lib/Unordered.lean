import Mathlib

/-! # Lists whose order carries no meaning

The order in which a hash set is iterated, and the removal of an element of a vector by
moving the last one into its place.
-/

namespace PolkadotSdk

universe u

/-- One way of ordering a collection: any permutation of it. -/
structure Shuffle (α : Type u) where
  apply : List α → List α
  perm : ∀ xs, (apply xs).Perm xs

namespace Shuffle

def asGiven (α : Type u) : Shuffle α := ⟨id, fun _ => .rfl⟩

variable {α : Type u} (order : Shuffle α)

@[simp] theorem mem_apply {xs : List α} {x : α} : x ∈ order.apply xs ↔ x ∈ xs :=
  (order.perm xs).mem_iff

end Shuffle

/-- `Vec::swap_remove`: the last element takes the place of the one taken out. -/
def swapRemove {α : Type u} (xs : List α) (i : Nat) : Option (α × List α) :=
  match xs[i]?, xs.getLast? with
  | some x, some last => some (x, (xs.set i last).dropLast)
  | _, _ => none

theorem split_of_getElem? {α : Type u} {xs : List α} {x : α} {i : Nat} (h : xs[i]? = some x) :
    ∃ before after, xs = before ++ x :: after ∧ before.length = i := by
  obtain ⟨hlt, hx⟩ := List.getElem?_eq_some_iff.mp h
  refine ⟨xs.take i, xs.drop (i + 1), ?_, ?_⟩
  · rw [← hx, List.getElem_cons_drop, List.take_append_drop]
  · rw [List.length_take]
    omega

theorem swapRemove_eq {α : Type u} {xs rest : List α} {x : α} {i : Nat}
    (h : swapRemove xs i = some (x, rest)) :
    ∃ before after after', xs = before ++ x :: after ∧ before.length = i ∧
      rest = before ++ after' ∧ after'.Perm after := by
  unfold swapRemove at h
  split at h
  · rename_i y last hget hlast
    cases h
    obtain ⟨before, after, rfl, rfl⟩ := split_of_getElem? hget
    have hset : (before ++ x :: after).set before.length last = before ++ last :: after := by
      simp
    rw [hset]
    cases after using List.reverseRecOn with
    | nil => exact ⟨before, [], [], rfl, rfl, by simp, .nil⟩
    | append_singleton after final =>
      obtain rfl : final = last := by
        rw [← List.cons_append, ← List.append_assoc, List.getLast?_concat] at hlast
        exact Option.some.inj hlast
      refine ⟨before, after ++ [final], final :: after, rfl, rfl, ?_,
        (List.perm_append_singleton _ _).symm⟩
      rw [← List.cons_append, ← List.append_assoc, List.dropLast_concat]
  · cases h

end PolkadotSdk
