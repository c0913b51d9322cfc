import Mathlib
import PolkadotSdk.Lib.OrderedMap

/-! # Sums over the entries of a map

A quantity that every entry of a map contributes to, and how it changes when an entry
is added, removed or replaced.
-/

namespace PolkadotSdk.OrderedMap

open Std

variable {K V : Type} [LinearOrder K]

theorem toList_nodup_entries (map : ExtTreeMap K V) : map.toList.Nodup :=
  map.distinct_keys_toList.imp fun hne heq => hne (by simp [heq])

theorem toList_insert_perm {map : ExtTreeMap K V} {key : K} (h : map[key]? = none) (value : V) :
    (map.insert key value).toList.Perm ((key, value) :: map.toList) := by
  have hfresh : (key, value) ∉ map.toList := by
    rw [ExtTreeMap.mem_toList_iff_getElem?_eq_some]
    simp [h]
  rw [List.perm_ext_iff_of_nodup (toList_nodup_entries _)
    (List.nodup_cons.mpr ⟨hfresh, toList_nodup_entries _⟩)]
  rintro ⟨other, v⟩
  rw [List.mem_cons, ExtTreeMap.mem_toList_iff_getElem?_eq_some,
    ExtTreeMap.mem_toList_iff_getElem?_eq_some, getElem?_insert]
  by_cases heq : key = other
  · subst heq
    simp [h, eq_comm]
  · simp [heq, Ne.symm heq]

theorem size_insert_of_none {map : ExtTreeMap K V} {key : K} (h : map[key]? = none) (value : V) :
    (map.insert key value).size = map.size + 1 := by
  rw [ExtTreeMap.size_insert, if_neg]
  simp [contains_of_none h]

theorem insert_erase (map : ExtTreeMap K V) (key : K) (value : V) :
    (map.erase key).insert key value = map.insert key value := by
  apply ExtTreeMap.ext_getElem?
  intro other
  rw [getElem?_insert, getElem?_insert, getElem?_erase]
  split <;> rfl

theorem insert_self {map : ExtTreeMap K V} {key : K} {value : V} (h : map[key]? = some value) :
    map.insert key value = map := by
  apply ExtTreeMap.ext_getElem?
  intro other
  rw [getElem?_insert]
  split
  · rename_i heq
    rw [← heq, h]
  · rfl

def total (f : K → V → Nat) (map : ExtTreeMap K V) : Nat :=
  (map.toList.map fun entry => f entry.1 entry.2).sum

variable {f : K → V → Nat} {map : ExtTreeMap K V} {key : K}

@[simp] theorem total_empty : total f (∅ : ExtTreeMap K V) = 0 := rfl

theorem total_eq_zero (h : ∀ key value, map[key]? = some value → f key value = 0) :
    total f map = 0 := by
  refine List.sum_eq_zero fun n hn => ?_
  obtain ⟨entry, hentry, rfl⟩ := List.mem_map.mp hn
  exact h _ _ (mem_toList_iff.mp hentry)

theorem total_insert_of_none (h : map[key]? = none) (value : V) :
    total f (map.insert key value) = f key value + total f map := by
  rw [total, ((toList_insert_perm h value).map _).sum_eq, List.map_cons, List.sum_cons, total]

theorem total_erase_of_some {value : V} (h : map[key]? = some value) :
    total f map = f key value + total f (map.erase key) := by
  have hnone : (map.erase key)[key]? = none := by simp
  rw [← total_insert_of_none hnone value, insert_erase, insert_self h]

theorem total_insert_of_some {value : V} (h : map[key]? = some value) (value' : V) :
    total f (map.insert key value') + f key value = total f map + f key value' := by
  have hnone : (map.erase key)[key]? = none := by simp
  rw [← insert_erase, total_insert_of_none hnone, total_erase_of_some h]
  omega

theorem total_congr {W : Type} {g : V → W} {c : W → Nat} {map map' : ExtTreeMap K V}
    (h : ∀ key : K, map[key]?.map g = map'[key]?.map g) :
    total (fun _ value => c (g value)) map = total (fun _ value => c (g value)) map' := by
  have hsum : ∀ m : ExtTreeMap K V, total (fun _ value => c (g value)) m =
      ((m.map fun _ value => g value).toList.map fun entry => c entry.2).sum := by
    intro m
    rw [ExtTreeMap.toList_map, List.map_map]
    rfl
  have hmap : (map.map fun _ value => g value) = map'.map fun _ value => g value := by
    apply ExtTreeMap.ext_getElem?
    intro key
    rw [ExtTreeMap.getElem?_map, ExtTreeMap.getElem?_map, h]
  rw [hsum, hsum, hmap]

end PolkadotSdk.OrderedMap
