import Mathlib

/-! # Maps and sets over a linear order

The lookup rules of ordered maps and sets, with key equality in place of a
comparison that returns `eq`.
-/

namespace PolkadotSdk.OrderedMap

open Std

variable {K V : Type} [LinearOrder K]

/-- The comparison of a linear order is transitive. Mathlib derives this from a stronger
instance in two steps; maps over a linear order find it here in one. -/
instance transCmp_compare {α : Type} [LinearOrder α] :
    TransCmp (compare : α → α → Ordering) :=
  LawfulBCmp.toTransCmp

instance lawfulBEq_linearOrder {α : Type} [LinearOrder α] : LawfulBEq α :=
  inferInstance

theorem getElem?_insert (map : ExtTreeMap K V) (key other : K) (value : V) :
    (map.insert key value)[other]? = if key = other then some value else map[other]? := by
  simp [ExtTreeMap.getElem?_insert]

theorem getElem?_insertIfNew (map : ExtTreeMap K V) (key other : K) (value : V) :
    (map.insertIfNew key value)[other]? =
      if key = other then some (map[key]?.getD value) else map[other]? := by
  rw [ExtTreeMap.getElem?_insertIfNew]
  by_cases heq : key = other
  · subst heq
    cases hget : map[key]? <;> simp [ExtTreeMap.mem_iff_isSome_getElem?, hget]
  · simp [heq]

theorem getElem?_erase (map : ExtTreeMap K V) (key other : K) :
    (map.erase key)[other]? = if key = other then none else map[other]? := by
  simp [ExtTreeMap.getElem?_erase]

theorem mem_erase {set : ExtTreeSet K} {key other : K} :
    other ∈ set.erase key ↔ other ≠ key ∧ other ∈ set := by
  rw [ExtTreeSet.mem_erase, ne_eq, ne_eq, Std.compare_eq_iff_eq, eq_comm]

theorem mem_insert {set : ExtTreeSet K} {key other : K} :
    other ∈ set.insert key ↔ other = key ∨ other ∈ set := by
  rw [ExtTreeSet.mem_insert, Std.compare_eq_iff_eq, eq_comm]

variable {map : ExtTreeMap K V} {key : K}

variable {value : V}

theorem of_insert {other : K} {found : V} (h : (map.insert key value)[other]? = some found) :
    key = other ∧ value = found ∨ map[other]? = some found := by
  rw [getElem?_insert] at h
  split_ifs at h with heq
  · exact .inl ⟨heq, Option.some.inj h⟩
  · exact .inr h

theorem of_erase {other : K} (h : (map.erase key)[other]? = some value) :
    key ≠ other ∧ map[other]? = some value := by
  rw [getElem?_erase] at h
  split_ifs at h with heq
  exact ⟨heq, h⟩

theorem contains_of_some (h : map[key]? = some value) : map.contains key = true := by
  rw [ExtTreeMap.contains_eq_isSome_getElem?, h, Option.isSome_some]

theorem contains_of_none (h : map[key]? = none) : map.contains key = false := by
  rw [ExtTreeMap.contains_eq_isSome_getElem?, h, Option.isSome_none]

theorem size_erase_of_some (h : map[key]? = some value) : (map.erase key).size + 1 = map.size := by
  have hpos : 0 < map.toList.length :=
    List.length_pos_of_mem (ExtTreeMap.mem_toList_iff_getElem?_eq_some.mpr h)
  rw [ExtTreeMap.length_toList] at hpos
  rw [ExtTreeMap.size_erase, if_pos (contains_of_some h)]
  omega

theorem size_insert_of_some (h : map[key]? = some value) (value' : V) :
    (map.insert key value').size = map.size := by
  rw [ExtTreeMap.size_insert, if_pos (contains_of_some h)]

theorem mem_toList_iff : (key, value) ∈ map.toList ↔ map[key]? = some value :=
  ExtTreeMap.mem_toList_iff_getElem?_eq_some

theorem keys_nodup (map : ExtTreeMap K V) : map.keys.Nodup :=
  map.distinct_keys.imp fun hne heq => hne (by simp [heq])

theorem mem_keys_iff : key ∈ map.keys ↔ ∃ value, map[key]? = some value := by
  rw [ExtTreeMap.mem_keys, ExtTreeMap.mem_iff_isSome_getElem?, Option.isSome_iff_exists]

variable (keys : List K)

theorem getElem?_eraseAll (map : ExtTreeMap K V) (key : K) :
    (keys.foldl (·.erase ·) map)[key]? = if key ∈ keys then none else map[key]? := by
  induction keys generalizing map with
  | nil => simp
  | cons k keys ih =>
    rw [List.foldl_cons, ih, getElem?_erase]
    by_cases hmem : key ∈ keys
    · simp [hmem]
    · by_cases heq : k = key
      · simp [heq]
      · have hne : ¬ key = k := fun h => heq h.symm
        simp [hmem, heq, hne]

theorem getElem?_insertAll (value : V) (map : ExtTreeMap K V) (key : K) :
    (keys.foldl (fun map key => map.insert key value) map)[key]? =
      if key ∈ keys then some value else map[key]? := by
  induction keys generalizing map with
  | nil => simp
  | cons k keys ih =>
    rw [List.foldl_cons, ih, getElem?_insert]
    by_cases hmem : key ∈ keys
    · simp [hmem]
    · by_cases heq : k = key
      · simp [heq]
      · have hne : ¬ key = k := fun h => heq h.symm
        simp [hmem, heq, hne]

variable (set : ExtTreeSet K)

theorem mem_eraseAll (key : K) : key ∈ keys.foldl (·.erase ·) set ↔ key ∈ set ∧ key ∉ keys := by
  induction keys generalizing set with
  | nil => simp
  | cons k keys ih =>
    rw [List.foldl_cons, ih, mem_erase, List.mem_cons, not_or]
    constructor
    · rintro ⟨⟨hne, hset⟩, hkeys⟩
      exact ⟨hset, hne, hkeys⟩
    · rintro ⟨hset, hne, hkeys⟩
      exact ⟨⟨hne, hset⟩, hkeys⟩

theorem mem_insertAll (key : K) : key ∈ keys.foldl (·.insert ·) set ↔ key ∈ set ∨ key ∈ keys := by
  induction keys generalizing set with
  | nil => simp
  | cons k keys ih => rw [List.foldl_cons, ih, mem_insert, List.mem_cons, or_assoc, or_left_comm]

theorem erase_of_none (h : map[key]? = none) : map.erase key = map := by
  apply ExtTreeMap.ext_getElem?
  intro other
  rw [getElem?_erase]
  split
  · rename_i heq
    rw [← heq, h]
  · rfl

theorem toList_nodup : set.toList.Nodup :=
  set.distinct_toList.imp fun hne heq => hne (by simp [heq])

end PolkadotSdk.OrderedMap
