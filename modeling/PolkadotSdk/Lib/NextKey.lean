import Mathlib
import PolkadotSdk.Lib.MapEntries

/-! # The next key of an ordered set

A set of keys that is read one next key after the other, and the merge of such a set with a map
over it that adds keys and masks others. Asking again for the key after the last one goes
through all keys in their order.
-/

namespace PolkadotSdk.NextKey

open Std MapEntries

variable {K V : Type} [Ord K] {P Q : K → Prop} {key : K}

/-- The least key after a key that has the property, if there is one. -/
def IsNext (P : K → Prop) (key : K) : Option K → Prop
  | some next => P next ∧ compare key next = .lt ∧
      ∀ other, P other → compare key other = .lt → other ≠ next → compare next other = .lt
  | none => ∀ other, P other → ¬ compare key other = .lt

theorem IsNext.congr {next : Option K} (h : IsNext P key next)
    (hiff : ∀ other, compare key other = .lt → (P other ↔ Q other)) : IsNext Q key next := by
  cases next with
  | none => exact fun other hother hlt => h other ((hiff other hlt).mpr hother) hlt
  | some next =>
    obtain ⟨hnext, hlt, hleast⟩ := h
    exact ⟨(hiff next hlt).mp hnext, hlt, fun other hother hlt' =>
      hleast other ((hiff other hlt').mpr hother) hlt'⟩

/-! ## Merging -/

/-- `next` is the next key of the set alone. An entry says whether its key is there. -/
def merge [DecidableEq K] (next : K → Option K) : List (K × Bool) → Option K → Option K
  | [], below => below
  | (above, live) :: rest, below =>
    let cmp := below.map (compare · above)
    if cmp = some .lt then below
    else if live then some above
    else if cmp = some .eq then merge next rest (next above)
    else merge next rest below

variable {passed : K → Prop}

theorem IsNext.mask {above : K} {below : Option K}
    (hbelow : IsNext (fun other => P other ∧ ¬ passed other) key below)
    (hne : ∀ next ∈ below, next ≠ above) :
    IsNext (fun other => P other ∧ ¬ (passed other ∨ other = above)) key below := by
  cases below with
  | none => exact fun other hother => hbelow other ⟨hother.1, fun h => hother.2 (.inl h)⟩
  | some next =>
    obtain ⟨⟨hmem, hfresh⟩, hlt, hleast⟩ := hbelow
    refine ⟨⟨hmem, fun h => h.elim hfresh (hne next rfl)⟩, hlt, fun other hother => ?_⟩
    exact hleast other ⟨hother.1, fun h => hother.2 (.inl h)⟩

omit [Ord K] in
theorem masked_iff {above other : K} {rest : List (K × Bool)} :
    ((other, true) ∈ rest ∨
      (P other ∧ ¬ (passed other ∨ other = above) ∧ ∀ live, (other, live) ∉ rest)) ↔
    ((other, true) ∈ (above, false) :: rest ∨
      (P other ∧ ¬ passed other ∧ ∀ live, (other, live) ∉ (above, false) :: rest)) := by
  have hcons : ∀ live, (other, live) ∈ (above, false) :: rest ↔
      (other = above ∧ live = false) ∨ (other, live) ∈ rest := by
    intro live
    rw [List.mem_cons, Prod.mk.injEq]
  constructor
  · rintro (h | ⟨hp, hfresh, habsent⟩)
    · exact .inl (List.mem_cons_of_mem _ h)
    · refine .inr ⟨hp, fun h => hfresh (.inl h), fun live h => ?_⟩
      rcases (hcons live).mp h with ⟨heq, -⟩ | h
      · exact hfresh (.inr heq)
      · exact habsent live h
  · rintro (h | ⟨hp, hfresh, habsent⟩)
    · rcases (hcons true).mp h with ⟨-, hlive⟩ | h
      · cases hlive
      · exact .inl h
    · refine .inr ⟨hp, ?_, fun live h => habsent live (List.mem_cons_of_mem _ h)⟩
      rintro (h | heq)
      · exact hfresh h
      · exact habsent false ((hcons false).mpr (.inl ⟨heq, rfl⟩))

variable [TransOrd K]

def liveAfter (shown : ExtTreeMap K (Option V)) (key : K) : List (K × Bool) :=
  (entriesAfter shown key).map fun entry => (entry.1, entry.2.isSome)

theorem liveAfter_sorted (shown : ExtTreeMap K (Option V)) (key : K) :
    (liveAfter shown key).Pairwise fun a b => compare a.1 b.1 = .lt := by
  unfold liveAfter entriesAfter
  rw [List.pairwise_map]
  exact (ExtTreeMap.ordered_keys_toList (t := shown)).filter _

variable [LawfulEqOrd K]

theorem lt_of_not_lt {a b : K} (h : ¬ compare a b = .lt) (hne : a ≠ b) : compare b a = .lt := by
  cases hcmp : compare a b with
  | lt => exact absurd hcmp h
  | eq => exact absurd (LawfulEqCmp.eq_of_compare hcmp) hne
  | gt => exact OrientedCmp.lt_of_gt hcmp

theorem IsNext.skip {above : K} {next : Option K}
    (hbelow : IsNext (fun other => P other ∧ ¬ passed other) key (some above))
    (hpassed : ∀ other, passed other → compare other above = .lt) (hnext : IsNext P above next) :
    IsNext (fun other => P other ∧ ¬ (passed other ∨ other = above)) key next := by
  obtain ⟨-, hlt, hleast⟩ := hbelow
  -- the keys that are left come after the one that is masked
  have habove : ∀ other, P other ∧ ¬ (passed other ∨ other = above) →
      compare key other = .lt → compare above other = .lt := fun other hother hkey =>
    hleast other ⟨hother.1, fun h => hother.2 (.inl h)⟩ hkey fun heq => hother.2 (.inr heq)
  cases next with
  | none => exact fun other hother hkey => hnext other hother.1 (habove other hother hkey)
  | some next =>
    obtain ⟨hmem, hgt, hfirst⟩ := hnext
    refine ⟨⟨hmem, ?_⟩, TransCmp.lt_trans hlt hgt, fun other hother hkey => ?_⟩
    · rintro (hpass | rfl)
      · have hloop := TransCmp.lt_trans (hpassed next hpass) hgt
        simp [ReflCmp.compare_self] at hloop
      · simp [ReflCmp.compare_self] at hgt
    · exact hfirst other hother.1 (habove other hother hkey)

variable {next : K → Option K}

/-- Keys that were passed are masked: they have no value and come before all other entries. -/
theorem merge_isNext_of_passed [DecidableEq K] (hnext : ∀ key, IsNext P key (next key))
    {entries : List (K × Bool)} (hsorted : entries.Pairwise fun a b => compare a.1 b.1 = .lt)
    (hafter : ∀ entry ∈ entries, compare key entry.1 = .lt) (passed : K → Prop)
    (hpassed : ∀ other, passed other → ∀ entry ∈ entries, compare other entry.1 = .lt)
    {below : Option K} (hbelow : IsNext (fun other => P other ∧ ¬ passed other) key below) :
    IsNext (fun other => (other, true) ∈ entries ∨
      (P other ∧ ¬ passed other ∧ ∀ live, (other, live) ∉ entries)) key
      (merge next entries below) := by
  induction entries generalizing passed below with
  | nil => exact hbelow.congr fun other _ => by simp
  | cons entry rest ih =>
    obtain ⟨above, live⟩ := entry
    obtain ⟨hfirst, hsorted⟩ := List.pairwise_cons.mp hsorted
    obtain ⟨hkey, hafter⟩ := List.forall_mem_cons.mp hafter
    have hmem : ∀ other live', (other, live') ∈ (above, live) :: rest →
        other = above ∨ compare above other = .lt := by
      intro other live' h
      rcases List.mem_cons.mp h with heq | h
      · exact .inl (congrArg Prod.fst heq)
      · exact .inr (hfirst _ h)
    unfold merge
    dsimp only
    split_ifs with hless hlive hequal
    · -- the set has a key before the first entry
      obtain ⟨first, rfl, hcmp⟩ := Option.map_eq_some_iff.mp hless
      obtain ⟨⟨hp, hfresh⟩, hlt, hleast⟩ := hbelow
      refine ⟨.inr ⟨hp, hfresh, fun live' h => ?_⟩, hlt, ?_⟩
      · rcases hmem _ _ h with rfl | h
        · simp [ReflCmp.compare_self] at hcmp
        · simp [OrientedCmp.gt_of_lt h] at hcmp
      · rintro other (h | ⟨hp', hfresh', -⟩) hkey' hne
        · rcases hmem _ _ h with rfl | h
          · exact hcmp
          · exact TransCmp.lt_trans hcmp h
        · exact hleast other ⟨hp', hfresh'⟩ hkey' hne
    · -- the first entry is there, and the set has no key before it
      refine ⟨.inl (by simp [hlive]), hkey, ?_⟩
      rintro other (h | ⟨hp, hfresh, habsent⟩) hkey' hne
      · exact (hmem _ _ h).resolve_left hne
      · cases below with
        | none => exact absurd hkey' (hbelow other ⟨hp, hfresh⟩)
        | some first =>
          have hle : ¬ compare first above = .lt := by simpa using hless
          by_cases hother : other = first
          · subst hother
            exact lt_of_not_lt hle hne
          · have hgt := hbelow.2.2 other ⟨hp, hfresh⟩ hkey' hother
            by_cases hfirst' : first = above
            · exact hfirst' ▸ hgt
            · exact TransCmp.lt_trans (lt_of_not_lt hle hfirst') hgt
    all_goals
      have hdead : live = false := by simpa using hlive
      rw [hdead] at hpassed ⊢
      have hpassed' : ∀ other, passed other ∨ other = above → ∀ entry ∈ rest,
          compare other entry.1 = .lt := by
        rintro other (h | rfl) entry hentry
        · exact hpassed other h entry (List.mem_cons_of_mem _ hentry)
        · exact hfirst entry hentry
    · -- the next key of the set is masked
      obtain ⟨first, rfl, hcmp⟩ := Option.map_eq_some_iff.mp hequal
      cases LawfulEqCmp.eq_of_compare hcmp
      refine (ih hsorted hafter _ hpassed' (hbelow.skip ?_ (hnext _))).congr fun _ _ =>
        masked_iff
      exact fun other h => hpassed other h _ List.mem_cons_self
    · -- a key that the set does not have is masked
      refine (ih hsorted hafter _ hpassed' (hbelow.mask ?_)).congr fun _ _ => masked_iff
      rintro first rfl rfl
      simp [ReflCmp.compare_self] at hequal

/-! ## Maps over a set -/

/-- A key is there if the map gives it a value, or does not mention it and the set has it. -/
def Merged (P : K → Prop) (shown : ExtTreeMap K (Option V)) (key : K) : Prop :=
  match shown[key]? with
  | some value => value.isSome
  | none => P key

/-- The next key of a set with a map over it. -/
def nextMerged [DecidableEq K] (next : K → Option K) (shown : ExtTreeMap K (Option V)) (key : K) :
    Option K :=
  merge next (liveAfter shown key) (next key)

theorem mem_liveAfter {shown : ExtTreeMap K (Option V)} {other : K} {live : Bool} :
    (other, live) ∈ liveAfter shown key ↔
      compare key other = .lt ∧
        ∃ value : Option V, shown[other]? = some value ∧ value.isSome = live := by
  unfold liveAfter entriesAfter
  rw [List.mem_map]
  constructor
  · rintro ⟨⟨other', value⟩, hmem, heq⟩
    obtain ⟨hmem, hlt⟩ := List.mem_filter.mp hmem
    cases heq
    exact ⟨by simpa using hlt, value, ExtTreeMap.mem_toList_iff_getElem?_eq_some.mp hmem, rfl⟩
  · rintro ⟨hlt, value, hvalue, rfl⟩
    refine ⟨(other, value), List.mem_filter.mpr ⟨?_, by simpa using hlt⟩, rfl⟩
    exact ExtTreeMap.mem_toList_iff_getElem?_eq_some.mpr hvalue

omit [LawfulEqOrd K] in
theorem nextMerged_empty [DecidableEq K] (next : K → Option K) (key : K) :
    nextMerged next (∅ : ExtTreeMap K (Option V)) key = next key := by
  have hnil : (∅ : ExtTreeMap K (Option V)).toList = [] := by simp [← List.length_eq_zero_iff]
  rw [nextMerged, liveAfter, entriesAfter, hnil]
  rfl

theorem nextMerged_isNext [DecidableEq K] (hnext : ∀ key, IsNext P key (next key))
    (shown : ExtTreeMap K (Option V)) (key : K) :
    IsNext (Merged P shown) key (nextMerged next shown key) := by
  have hmerge := merge_isNext_of_passed hnext (liveAfter_sorted shown key)
    (fun entry hentry => (mem_liveAfter.mp hentry).1)
    (fun _ => False) (fun _ h => h.elim) ((hnext key).congr fun _ _ => by simp)
  refine hmerge.congr fun other hlt => ?_
  simp only [mem_liveAfter, hlt, true_and, not_false_eq_true]
  unfold Merged
  cases hvalue : shown[other]? with
  | none => simp
  | some value => simp

/-! ## Going through all keys -/

def collect (next : K → Option K) : Nat → K → List K
  | 0, _ => []
  | fuel + 1, key =>
    match next key with
    | none => []
    | some found => found :: collect next fuel found

/-- With enough fuel the keys that are found are those after the first one, in their order. -/
theorem collect_spec (hnext : ∀ key, IsNext P key (next key)) (candidates : List K)
    (hcandidates : ∀ key, P key → key ∈ candidates) {fuel : Nat}
    (hfuel : (candidates.filter fun other => compare key other == .lt).length ≤ fuel) :
    (collect next fuel key).Pairwise (fun a b => compare a b = .lt) ∧
      ∀ other, other ∈ collect next fuel key ↔ P other ∧ compare key other = .lt := by
  induction fuel generalizing key with
  | zero =>
    refine ⟨.nil, fun other => ⟨fun h => absurd h List.not_mem_nil, fun ⟨hp, hlt⟩ => ?_⟩⟩
    have hmem : other ∈ candidates.filter fun other => compare key other == .lt :=
      List.mem_filter.mpr ⟨hcandidates other hp, by simp [hlt]⟩
    rw [List.length_eq_zero_iff.mp (Nat.le_zero.mp hfuel)] at hmem
    cases hmem
  | succ fuel ih =>
    have hkey := hnext key
    unfold collect
    cases hfound : next key with
    | none =>
      rw [hfound] at hkey
      exact ⟨.nil, fun other => ⟨fun h => absurd h List.not_mem_nil,
        fun ⟨hp, hlt⟩ => absurd hlt (hkey other hp)⟩⟩
    | some found =>
      rw [hfound] at hkey
      obtain ⟨hp, hlt, hleast⟩ := hkey
      -- the key that was found is left out of the candidates
      have hshorter : (candidates.filter fun other => compare found other == .lt).length <
          (candidates.filter fun other => compare key other == .lt).length := by
        have hfilter : (candidates.filter fun other => compare found other == .lt) =
            (candidates.filter fun other => compare key other == .lt).filter
              fun other => compare found other == .lt := by
          rw [List.filter_filter]
          refine List.filter_congr fun other _ => ?_
          by_cases h : compare found other = .lt
          · simp [h, TransCmp.lt_trans hlt h]
          · simp [h]
        rw [hfilter, List.length_filter_lt_length_iff_exists]
        refine ⟨found, List.mem_filter.mpr ⟨hcandidates found hp, by simp [hlt]⟩, ?_⟩
        simp [ReflCmp.compare_self]
      obtain ⟨hsorted, hmem⟩ := @ih found (by omega)
      refine ⟨List.pairwise_cons.mpr ⟨fun other h => ((hmem other).mp h).2, hsorted⟩, ?_⟩
      intro other
      rw [List.mem_cons, hmem]
      constructor
      · rintro (rfl | ⟨hp', hlt'⟩)
        · exact ⟨hp, hlt⟩
        · exact ⟨hp', TransCmp.lt_trans hlt hlt'⟩
      · rintro ⟨hp', hlt'⟩
        by_cases heq : other = found
        · exact .inl heq
        · exact .inr ⟨hp', hleast other hp' hlt' heq⟩

def collectWith {σ : Type} (ask : σ → K → Option (Option K × σ)) :
    Nat → σ → K → Option (List K × σ)
  | 0, s, _ => some ([], s)
  | fuel + 1, s, key =>
    (ask s key).bind fun
      | (none, s) => some ([], s)
      | (some found, s) => (collectWith ask fuel s found).map fun (rest, s) => (found :: rest, s)

omit [Ord K] [TransOrd K] [LawfulEqOrd K] in
theorem collectWith_eq {σ : Type} {I : σ → Prop} {ask : σ → K → Option (Option K × σ)}
    (hask : ∀ s key, I s → ∃ t, ask s key = some (next key, t) ∧ I t) (fuel : Nat) {s : σ}
    (hs : I s) (key : K) :
    ∃ t, collectWith ask fuel s key = some (collect next fuel key, t) ∧ I t := by
  induction fuel generalizing s key with
  | zero => exact ⟨s, rfl, hs⟩
  | succ fuel ih =>
    obtain ⟨t, ht, hinv⟩ := hask s key hs
    unfold collectWith collect
    rw [ht]
    cases hnext : next key with
    | none => exact ⟨t, rfl, hinv⟩
    | some found =>
      obtain ⟨u, hu, hinv'⟩ := ih hinv found
      exact ⟨u, by simp [hu], hinv'⟩

def nextIn (keys : ExtTreeSet K) (key : K) : Option K :=
  keys.toList.find? fun other => compare key other == .lt

theorem nextIn_isNext (keys : ExtTreeSet K) (key : K) :
    IsNext (· ∈ keys) key (nextIn keys key) := by
  unfold nextIn
  cases hfind : keys.toList.find? fun other => compare key other == .lt with
  | none =>
    intro other hother hlt
    have hnot := List.find?_eq_none.mp hfind other (ExtTreeSet.mem_toList.mpr hother)
    simp [hlt] at hnot
  | some found =>
    obtain ⟨hlt, before, after, hsplit, hbefore⟩ := List.find?_eq_some_iff_append.mp hfind
    have hordered := ExtTreeSet.ordered_toList (t := keys)
    rw [hsplit, List.pairwise_append, List.pairwise_cons] at hordered
    refine ⟨ExtTreeSet.mem_toList.mp (List.mem_of_find?_eq_some hfind), by simpa using hlt, ?_⟩
    intro other hother hkey hne
    have hmem : other ∈ before ++ found :: after := by
      rw [← hsplit]
      exact ExtTreeSet.mem_toList.mpr hother
    rcases List.mem_append.mp hmem with h | h
    · have hnot := hbefore other h
      simp [hkey] at hnot
    · exact hordered.2.1.1 other ((List.mem_cons.mp h).resolve_left hne)

end PolkadotSdk.NextKey
