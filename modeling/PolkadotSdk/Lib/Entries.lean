import Mathlib

/-! # Maps as lists of entries

An insertion-ordered map, as the list of its entries. The rules for lookups need the keys to be
distinct; removing an entry, or changing its value, keeps the order of the others.
-/

namespace PolkadotSdk.Entries

universe u v

variable {K : Type u} {V : Type v}

def keys (entries : List (K × V)) : List K := entries.map Prod.fst

@[simp] theorem keys_nil : keys ([] : List (K × V)) = [] := rfl

@[simp] theorem keys_cons (entry : K × V) (entries : List (K × V)) :
    keys (entry :: entries) = entry.1 :: keys entries := rfl

variable {entries : List (K × V)} {key : K}

theorem mem_keys : key ∈ keys entries ↔ ∃ value, (key, value) ∈ entries := by
  simp [keys]

variable [DecidableEq K]

def get : List (K × V) → K → Option V
  | [], _ => none
  | (key, value) :: entries, wanted => if key = wanted then some value else get entries wanted

def remove (entries : List (K × V)) (key : K) : List (K × V) :=
  entries.filter fun entry => entry.1 ≠ key

def modify (entries : List (K × V)) (key : K) (f : V → V) : List (K × V) :=
  entries.map fun entry => if entry.1 = key then (entry.1, f entry.2) else entry

theorem mem_of_get {value : V} (h : get entries key = some value) : (key, value) ∈ entries := by
  induction entries with
  | nil => cases h
  | cons entry entries ih =>
    obtain ⟨k, v⟩ := entry
    by_cases hk : k = key
    · subst hk
      simp only [get, if_true, Option.some.injEq] at h
      exact h ▸ List.mem_cons_self
    · simp only [get, if_neg hk] at h
      exact List.mem_cons_of_mem _ (ih h)

theorem get_of_mem {value : V} (hkeys : (keys entries).Nodup) (h : (key, value) ∈ entries) :
    get entries key = some value := by
  induction entries with
  | nil => cases h
  | cons entry entries ih =>
    obtain ⟨k, v⟩ := entry
    obtain ⟨hnew, hrest⟩ := List.nodup_cons.mp hkeys
    rcases List.mem_cons.mp h with heq | hmem
    · cases heq
      simp [get]
    · have hne : k ≠ key := fun heq => hnew (heq ▸ mem_keys.mpr ⟨value, hmem⟩)
      simpa [get, hne] using ih hrest hmem

theorem get_eq_none : get entries key = none ↔ key ∉ keys entries := by
  induction entries with
  | nil => simp [get]
  | cons entry entries ih =>
    obtain ⟨k, v⟩ := entry
    by_cases hk : k = key
    · simp [get, hk]
    · simp [get, hk, ih, Ne.symm hk]

theorem get_filter (entries : List (K × V)) (p : K → Bool) (key : K) :
    get (entries.filter fun entry => p entry.1) key = if p key then get entries key else none := by
  induction entries with
  | nil => simp [get]
  | cons entry entries ih =>
    obtain ⟨k, v⟩ := entry
    by_cases hp : p k = true
    · simp only [List.filter_cons, hp, if_true, get, ih]
      by_cases hk : k = key
      · subst hk
        simp [hp]
      · simp [hk]
    · simp only [List.filter_cons, hp, Bool.false_eq_true, if_false, get, ih]
      by_cases hk : k = key
      · subst hk
        simp [hp]
      · simp [hk]

theorem get_remove (entries : List (K × V)) (key other : K) :
    get (remove entries key) other = if other = key then none else get entries other := by
  have h := get_filter entries (fun k => decide (k ≠ key)) other
  simp only [decide_eq_true_eq, ne_eq] at h
  rw [remove, h, ite_not]

theorem get_mapValues {W : Type*} (entries : List (K × V)) (f : K → V → W) (key : K) :
    get (entries.map fun entry => (entry.1, f entry.1 entry.2)) key =
      (get entries key).map (f key) := by
  induction entries with
  | nil => rfl
  | cons entry entries ih =>
    obtain ⟨k, v⟩ := entry
    by_cases hk : k = key
    · simp [get, hk]
    · simpa [get, hk] using ih

theorem modify_eq_map (entries : List (K × V)) (key : K) (f : V → V) :
    modify entries key f =
      entries.map fun entry => (entry.1, if entry.1 = key then f entry.2 else entry.2) := by
  refine List.map_congr_left fun entry _ => ?_
  split_ifs <;> rfl

theorem get_modify (entries : List (K × V)) (key other : K) (f : V → V) :
    get (modify entries key f) other =
      if other = key then (get entries other).map f else get entries other := by
  rw [modify_eq_map, get_mapValues entries fun k v => if k = key then f v else v]
  split_ifs with h
  · rfl
  · exact Option.map_id'

@[simp] theorem keys_modify (entries : List (K × V)) (key : K) (f : V → V) :
    keys (modify entries key f) = keys entries := by
  simp only [keys, modify, List.map_map]
  refine List.map_congr_left fun entry _ => ?_
  simp only [Function.comp_apply]
  split_ifs <;> rfl

theorem modify_congr (hkeys : (keys entries).Nodup) {f g : V → V}
    (h : ∀ value, get entries key = some value → f value = g value) :
    modify entries key f = modify entries key g := by
  refine List.map_congr_left fun entry hentry => ?_
  by_cases hkey : entry.1 = key
  · have hvalue : get entries key = some entry.2 := get_of_mem hkeys (hkey ▸ hentry)
    simp [hkey, h entry.2 hvalue]
  · simp [hkey]

theorem modify_of_none (h : get entries key = none) (f : V → V) :
    modify entries key f = entries := by
  rw [get_eq_none] at h
  refine (List.map_congr_left fun entry hentry => ?_).trans (List.map_id entries)
  have hne : entry.1 ≠ key := fun heq => h (heq ▸ mem_keys.mpr ⟨entry.2, hentry⟩)
  simp [hne]

def upsert (entries : List (K × V)) (key : K) (new : V) (f : V → V) : List (K × V) :=
  if key ∈ keys entries then modify entries key f else entries ++ [(key, f new)]

theorem get_append (entries rest : List (K × V)) (key : K) :
    get (entries ++ rest) key = (get entries key).or (get rest key) := by
  induction entries with
  | nil => rfl
  | cons entry entries ih =>
    obtain ⟨k, v⟩ := entry
    by_cases hk : k = key
    · simp [get, hk]
    · simpa [get, hk] using ih

theorem get_upsert (entries : List (K × V)) (key other : K) (new : V) (f : V → V) :
    get (upsert entries key new f) other =
      if other = key then some (f ((get entries key).getD new)) else get entries other := by
  unfold upsert
  split_ifs with hmem hother hother
  · subst hother
    cases hvalue : get entries other with
    | none => exact absurd hmem (get_eq_none.mp hvalue)
    | some value => simp [get_modify, hvalue]
  · rw [get_modify, if_neg hother]
  · subst hother
    simp [get_append, get_eq_none.mpr hmem, get]
  · simp [get_append, get, Ne.symm hother]

end PolkadotSdk.Entries
