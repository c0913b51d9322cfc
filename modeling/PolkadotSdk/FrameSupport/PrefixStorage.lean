import Mathlib
import PolkadotSdk.Lib.Loop
import PolkadotSdk.Lib.OrderedMap

/-! # The storage below the prefix of a map

What a storage map stores, by the raw keys below its prefix. Reads see the overlay of the
current block over the backend. Which of the two has a key matters where keys are removed
under a limit: the keys of the overlay go without being counted, and the backend is walked
from its first key whether or not that key is removed already.
-/

namespace PolkadotSdk.FrameSupport

open Std

/-- The visible values, the keys of the backend in their order, and the keys that the overlay
mentions. -/
structure PrefixStorage (K V : Type) [LinearOrder K] where
  values : ExtTreeMap K V
  backend : List K
  written : List K
  known : ∀ (key : K) (value : V), values[key]? = some value → key ∈ backend ∨ key ∈ written

namespace PrefixStorage

variable {K V : Type} [LinearOrder K] (storage : PrefixStorage K V)

def empty : PrefixStorage K V where
  values := ∅
  backend := []
  written := []
  known := by simp

def get (key : K) : Option V := storage.values[key]?

def contains (key : K) : Bool := (storage.get key).isSome

def put (key : K) (value : V) : PrefixStorage K V where
  values := storage.values.insert key value
  backend := storage.backend
  written := key :: storage.written
  known := by
    intro other old h
    rcases OrderedMap.of_insert h with ⟨rfl, -⟩ | h
    · exact .inr List.mem_cons_self
    · exact (storage.known other old h).imp_right (List.mem_cons_of_mem _)

def kill (key : K) : PrefixStorage K V where
  values := storage.values.erase key
  backend := storage.backend
  written := key :: storage.written
  known := by
    intro other old h
    exact (storage.known other old (OrderedMap.of_erase h).2).imp_right (List.mem_cons_of_mem _)

def store (key : K) : Option V → PrefixStorage K V
  | some value => storage.put key value
  | none => storage.kill key

def after (previous : Option K) (key : K) : Bool :=
  match previous with
  | none => true
  | some previous => decide (previous < key)

def nextKey (previous : Option K) : Option K := storage.values.keys.find? (after previous)

/-- Remove what the overlay mentions and the first `limit` keys of the backend. Returns whether
there are more, and how many were visited. -/
def clearPrefix (inside : K → Bool) (limit : Nat) : (Bool × Nat) × PrefixStorage K V :=
  let keys := storage.backend.filter inside
  let visited := keys.take limit
  let removed := storage.written.filter inside ++ visited
  ((decide (limit < keys.length), visited.length),
    { values := removed.foldl (·.erase ·) storage.values
      backend := storage.backend
      written := visited ++ storage.written
      known := by
        intro key value h
        rw [OrderedMap.getElem?_eraseAll] at h
        split_ifs at h
        exact (storage.known key value h).imp_right (List.mem_append_right _) })

def commit : PrefixStorage K V where
  values := storage.values
  backend := storage.values.keys
  written := []
  known := fun _ value h => .inl (OrderedMap.mem_keys_iff.mpr ⟨value, h⟩)

variable {storage}

theorem get_store (storage : PrefixStorage K V) (key : K) (value : Option V) (other : K) :
    (storage.store key value).get other = if key = other then value else storage.get other := by
  cases value with
  | some value => exact OrderedMap.getElem?_insert _ _ _ _
  | none => exact OrderedMap.getElem?_erase _ _ _

theorem nextKey_some {previous : Option K} {key : K} (h : storage.nextKey previous = some key) :
    after previous key = true ∧ ∃ value, storage.get key = some value :=
  ⟨List.find?_some h, OrderedMap.mem_keys_iff.mp (List.mem_of_find?_eq_some h)⟩

theorem size_store (storage : PrefixStorage K V) (key : K) (value : Option V) :
    (storage.store key value).values.size + (storage.get key).isSome.toNat =
      storage.values.size + value.isSome.toNat := by
  cases hget : storage.get key with
  | some old =>
    cases value with
    | some value =>
      have hsize := OrderedMap.size_insert_of_some hget value
      simp [store, put, hsize]
    | none =>
      have hsize := OrderedMap.size_erase_of_some hget
      simp [store, kill, hsize]
  | none =>
    cases value with
    | some value =>
      have hsize : (storage.values.insert key value).size = storage.values.size + 1 := by
        rw [ExtTreeMap.size_insert, OrderedMap.contains_of_none hget, if_neg (by simp)]
      simp [store, put, hsize]
    | none =>
      have herase : storage.values.erase key = storage.values := OrderedMap.erase_of_none hget
      simp [store, kill, herase]

theorem clearPrefix_completed {inside : K → Bool} {limit : Nat}
    (h : (storage.clearPrefix inside limit).1.1 = false) (key : K) :
    (storage.clearPrefix inside limit).2.get key =
      if inside key then none else storage.get key := by
  have hall : (storage.backend.filter inside).take limit = storage.backend.filter inside := by
    refine List.take_of_length_le ?_
    simpa [clearPrefix] using h
  have hremoved : (storage.clearPrefix inside limit).2.get key =
      if key ∈ storage.written.filter inside ++ storage.backend.filter inside then none
      else storage.get key := by
    rw [← hall]
    exact OrderedMap.getElem?_eraseAll _ _ _
  rw [hremoved]
  cases hget : storage.get key with
  | none => simp
  | some value =>
    have hknown := storage.known key value hget
    have hmem : key ∈ storage.written.filter inside ++ storage.backend.filter inside ↔
        inside key = true := by
      simp only [List.mem_append, List.mem_filter]
      tauto
    simp only [hmem]

theorem clearPrefix_outside {inside : K → Bool} {key : K} (h : inside key = false) (limit : Nat) :
    (storage.clearPrefix inside limit).2.get key = storage.get key := by
  refine (OrderedMap.getElem?_eraseAll _ _ _).trans (if_neg fun hmem => ?_)
  rcases List.mem_append.mp hmem with hmem | hmem
  · simp [(List.mem_filter.mp hmem).2] at h
  · simp [(List.mem_filter.mp (List.mem_of_mem_take hmem)).2] at h

theorem size_eq_zero (h : ∀ key, storage.get key = none) : storage.values.size = 0 := by
  rw [← ExtTreeMap.length_keys, List.length_eq_zero_iff, List.eq_nil_iff_forall_not_mem]
  intro key hkey
  obtain ⟨value, hvalue⟩ := OrderedMap.mem_keys_iff.mp hkey
  simp [show storage.values[key]? = none from h key] at hvalue

def remaining (storage : PrefixStorage K V) (previous : Option K) : Nat :=
  (storage.values.keys.filter (after previous)).length

theorem remaining_le (previous : Option K) : storage.remaining previous ≤ storage.values.size := by
  rw [← ExtTreeMap.length_keys]
  exact List.length_filter_le _ _

theorem remaining_lt {previous : Option K} {key : K} (h : storage.nextKey previous = some key)
    (value : Option V) : (storage.store key value).remaining (some key) <
      storage.remaining previous := by
  obtain ⟨hafter, old, hold⟩ := nextKey_some h
  have hfresh : key ∉ (storage.store key value).values.keys.filter (after (some key)) := by
    simp [after]
  have hnodup : ((storage.store key value).values.keys.filter (after (some key))).Nodup :=
    (OrderedMap.keys_nodup _).filter _
  have hsubset : key :: (storage.store key value).values.keys.filter (after (some key)) ⊆
      storage.values.keys.filter (after previous) := by
    intro other hother
    rcases List.mem_cons.mp hother with rfl | hother
    · exact List.mem_filter.mpr ⟨OrderedMap.mem_keys_iff.mpr ⟨old, hold⟩, hafter⟩
    · obtain ⟨hkey, hlt⟩ := List.mem_filter.mp hother
      obtain ⟨found, hfound⟩ := OrderedMap.mem_keys_iff.mp hkey
      have hlt : key < other := by simpa [after] using hlt
      have hget := get_store storage key value other
      rw [if_neg hlt.ne] at hget
      refine List.mem_filter.mpr ⟨OrderedMap.mem_keys_iff.mpr ⟨found, hget.symm.trans hfound⟩, ?_⟩
      cases previous with
      | none => rfl
      | some previous =>
        have hprevious : previous < key := by simpa [after] using hafter
        simpa [after] using hprevious.trans hlt
  exact ((List.nodup_cons.mpr ⟨hfresh, hnodup⟩).subperm hsubset).length_le

end PrefixStorage

end PolkadotSdk.FrameSupport
