import Mathlib

/-! # Visiting a map in key order

A loop over the entries of an ordered map that rewrites, drops or reads each value
and may fail. When no entry fails, the loop is the corresponding pure operation on
the whole map.
-/

namespace PolkadotSdk.MapTraversal

open Std

variable {K V B : Type} [Ord K] [TransOrd K] [LawfulEqOrd K]

def putOrErase (map : ExtTreeMap K V) (key : K) : Option V → ExtTreeMap K V
  | some value => map.insert key value
  | none => map.erase key

/-- Rewrite every value; an inner `none` drops the entry, an outer one is a failure. -/
def alterAll (f : V → Option (Option V)) (map : ExtTreeMap K V) : Option (ExtTreeMap K V) :=
  map.toList.foldlM (fun acc entry => (f entry.2).map (putOrErase acc entry.1)) map

/-- Read every value with an update in place; a `none` is a failure. -/
def readAll (f : V → Option (B × V)) (map : ExtTreeMap K V) :
    Option (List (K × B) × ExtTreeMap K V) :=
  map.toList.foldlM (fun acc entry => (f entry.2).map fun (out, value) =>
    (acc.1 ++ [(entry.1, out)], acc.2.insert entry.1 value)) ([], map)

theorem keys_nodup (map : ExtTreeMap K V) : (map.toList.map (·.1)).Nodup := by
  have hdistinct := map.distinct_keys_toList
  rw [List.nodup_iff_pairwise_ne, List.pairwise_map]
  exact hdistinct.imp fun hne heq => hne (by simp [heq])

theorem getElem?_of_mem_toList {map : ExtTreeMap K V} {entry : K × V} (h : entry ∈ map.toList) :
    map[entry.1]? = some entry.2 :=
  ExtTreeMap.mem_toList_iff_getElem?_eq_some.mp h

theorem getElem?_putOrErase_self (map : ExtTreeMap K V) (key : K) (value : Option V) :
    (putOrErase map key value)[key]? = value := by
  cases value <;> simp [putOrErase]

theorem getElem?_putOrErase_other (map : ExtTreeMap K V) {key other : K} (value : Option V)
    (h : other ≠ key) : (putOrErase map key value)[other]? = map[other]? := by
  have hcmp : ¬ compare key other = .eq := by simpa using fun heq => h heq.symm
  cases value <;> simp [putOrErase, ExtTreeMap.getElem?_insert, ExtTreeMap.getElem?_erase, hcmp]

omit [LawfulEqOrd K] in
private theorem foldEntries_get {W : Type} {f : ExtTreeMap K W → K × V → ExtTreeMap K W}
    {g : Option W → V → Option W}
    (hself : ∀ map entry, (f map entry)[entry.1]? = g map[entry.1]? entry.2)
    (hother : ∀ map entry, ∀ other ≠ entry.1, (f map entry)[other]? = map[other]?)
    {entries : List (K × V)} (hnodup : (entries.map (·.1)).Nodup) (acc : ExtTreeMap K W) :
    (∀ entry ∈ entries, (entries.foldl f acc)[entry.1]? = g acc[entry.1]? entry.2) ∧
      ∀ key, key ∉ entries.map (·.1) → (entries.foldl f acc)[key]? = acc[key]? := by
  induction entries generalizing acc with
  | nil => exact ⟨by simp, fun _ _ => rfl⟩
  | cons entry entries ih =>
    obtain ⟨hnot, hnodup⟩ := List.nodup_cons.mp hnodup
    obtain ⟨hin, hout⟩ := ih hnodup (f acc entry)
    constructor
    · intro e he
      rcases List.mem_cons.mp he with rfl | he
      · rw [List.foldl_cons, hout e.1 hnot, hself]
      · have hne : e.1 ≠ entry.1 := fun heq => hnot (List.mem_map.mpr ⟨e, he, heq⟩)
        rw [List.foldl_cons, hin e he, hother acc entry e.1 hne]
    · intro key hkey
      obtain ⟨hne, hkey⟩ : key ≠ entry.1 ∧ key ∉ entries.map (·.1) := by
        simpa only [List.map_cons, List.mem_cons, not_or] using hkey
      rw [List.foldl_cons, hout key hkey, hother acc entry key hne]

theorem getElem?_foldl_toList {W : Type} {f : ExtTreeMap K W → K × V → ExtTreeMap K W}
    {g : Option W → V → Option W}
    (hself : ∀ map entry, (f map entry)[entry.1]? = g map[entry.1]? entry.2)
    (hother : ∀ map entry, ∀ other ≠ entry.1, (f map entry)[other]? = map[other]?)
    (map : ExtTreeMap K V) (acc : ExtTreeMap K W) (key : K) :
    (map.toList.foldl f acc)[key]? = map[key]?.elim acc[key]? (g acc[key]?) := by
  obtain ⟨hin, hout⟩ := foldEntries_get hself hother (keys_nodup map) acc
  cases hget : map[key]? with
  | some value => exact hin (key, value) (ExtTreeMap.mem_toList_iff_getElem?_eq_some.mpr hget)
  | none =>
    apply hout
    intro hmem
    obtain ⟨entry, hentry, rfl⟩ := List.mem_map.mp hmem
    simp [getElem?_of_mem_toList hentry] at hget

omit [LawfulEqOrd K] in
private theorem alterEntries_eq {f : V → Option (Option V)} (entries : List (K × V))
    (hok : ∀ entry ∈ entries, (f entry.2).isSome) (acc : ExtTreeMap K V) :
    entries.foldlM (fun acc entry => (f entry.2).map (putOrErase acc entry.1)) acc =
      some (entries.foldl (fun acc entry => putOrErase acc entry.1 (f entry.2).join) acc) := by
  induction entries generalizing acc with
  | nil => rfl
  | cons entry entries ih =>
    obtain ⟨hentry, hok⟩ := List.forall_mem_cons.mp hok
    obtain ⟨value, hvalue⟩ := Option.isSome_iff_exists.mp hentry
    simp [List.foldlM_cons, hvalue, ih hok]

theorem alterAll_eq (f : V → Option (Option V)) (map : ExtTreeMap K V)
    (hok : ∀ (key : K) value, map[key]? = some value → (f value).isSome) :
    ∃ altered, alterAll f map = some altered ∧
      ∀ key : K, altered[key]? = map[key]?.bind fun value => (f value).join := by
  refine ⟨_, alterEntries_eq map.toList
    (fun entry hmem => hok entry.1 entry.2 (getElem?_of_mem_toList hmem)) map, fun key => ?_⟩
  rw [getElem?_foldl_toList (g := fun _ value => (f value).join)
    (fun acc entry => getElem?_putOrErase_self acc entry.1 (f entry.2).join)
    (fun acc entry other => getElem?_putOrErase_other acc (f entry.2).join) map map key]
  cases map[key]? <;> simp

omit [LawfulEqOrd K] in
private theorem readEntries_spec {f : V → Option (B × V)} {out : V → B} {next : V → V}
    (entries : List (K × V)) (hok : ∀ entry ∈ entries, f entry.2 = some (out entry.2, next entry.2))
    (outs : List (K × B)) (acc : ExtTreeMap K V) :
    entries.foldlM (fun acc entry => (f entry.2).map fun (out, value) =>
        (acc.1 ++ [(entry.1, out)], acc.2.insert entry.1 value)) (outs, acc) =
      some (outs ++ entries.map (fun entry => (entry.1, out entry.2)),
        entries.foldl (fun acc entry => acc.insert entry.1 (next entry.2)) acc) := by
  induction entries generalizing outs acc with
  | nil => simp
  | cons entry entries ih =>
    have hentry := hok entry (by simp)
    simp only [List.foldlM_cons, hentry, Option.map_some, Option.bind_eq_bind, Option.bind_some]
    rw [ih (fun e he => hok e (by simp [he]))]
    simp

theorem readAll_eq {f : V → Option (B × V)} (out : V → B) (next : V → V) (map : ExtTreeMap K V)
    (hok : ∀ (key : K) value, map[key]? = some value → f value = some (out value, next value)) :
    readAll f map =
      some ((map.map fun _ value => out value).toList, map.map fun _ value => next value) := by
  unfold readAll
  rw [readEntries_spec map.toList
    (fun entry hmem => hok entry.1 entry.2 (getElem?_of_mem_toList hmem)) [] map]
  have hnext : map.toList.foldl (fun acc entry => acc.insert entry.1 (next entry.2)) map =
      map.map fun _ value => next value := by
    apply ExtTreeMap.ext_getElem?
    intro key
    have hget := getElem?_foldl_toList (g := fun _ value => some (next value))
      (fun acc entry => getElem?_putOrErase_self acc entry.1 (some (next entry.2)))
      (fun acc entry other => getElem?_putOrErase_other acc (some (next entry.2))) map map key
    rw [ExtTreeMap.getElem?_map]
    refine hget.trans ?_
    cases map[key]? <;> rfl
  rw [hnext, ExtTreeMap.toList_map, List.nil_append]

end PolkadotSdk.MapTraversal
