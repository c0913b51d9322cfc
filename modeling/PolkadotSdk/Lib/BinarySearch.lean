import Mathlib

/-! # Binary search

What the callers of a binary search may rely on: the position of the key in a sorted list, or
the position at which it can be inserted. Nothing is said about a list that is not sorted.
-/

namespace PolkadotSdk

variable {K : Type} [LinearOrder K]

structure BinarySearch (K : Type) [LinearOrder K] where
  search : List K → K → Except Nat Nat
  found : ∀ keys key i, keys.Pairwise (· ≤ ·) → search keys key = .ok i → keys[i]? = some key
  missing : ∀ keys key i, keys.Pairwise (· ≤ ·) → search keys key = .error i →
    i ≤ keys.length ∧ (∀ k ∈ keys.take i, k < key) ∧ ∀ k ∈ keys.drop i, key < k

namespace BinarySearch

def position (search : BinarySearch K) (keys : List K) (key : K) : Nat :=
  match search.search keys key with
  | .ok i => i
  | .error i => i

variable {keys : List K} (search : BinarySearch K)

theorem position_spec (hsorted : keys.Pairwise (· < ·)) (key : K) :
    (∀ k ∈ keys.take (search.position keys key), k < key) ∧
      ∀ k ∈ keys.drop (search.position keys key), key ≤ k := by
  have hle : keys.Pairwise (· ≤ ·) := hsorted.imp le_of_lt
  unfold position
  cases hsearch : search.search keys key with
  | error i =>
    obtain ⟨-, hbelow, habove⟩ := search.missing keys key i hle hsearch
    exact ⟨hbelow, fun k hk => le_of_lt (habove k hk)⟩
  | ok i =>
    have hget := search.found keys key i hle hsearch
    obtain ⟨hlt, hkey⟩ := List.getElem?_eq_some_iff.mp hget
    dsimp only
    rw [← List.take_append_drop i keys, List.pairwise_append] at hsorted
    obtain ⟨-, hdrop, hcross⟩ := hsorted
    rw [List.drop_eq_getElem_cons hlt, hkey] at hdrop hcross ⊢
    refine ⟨fun k hk => hcross k hk key List.mem_cons_self, fun k hk => ?_⟩
    rcases List.mem_cons.mp hk with rfl | hk
    · exact le_refl _
    · exact le_of_lt ((List.pairwise_cons.mp hdrop).1 k hk)

theorem position_le (hsorted : keys.Pairwise (· < ·)) (key : K) :
    search.position keys key ≤ keys.length := by
  have hle : keys.Pairwise (· ≤ ·) := hsorted.imp le_of_lt
  unfold position
  cases hsearch : search.search keys key with
  | error i => exact (search.missing keys key i hle hsearch).1
  | ok i =>
    exact Nat.le_of_lt (List.getElem?_eq_some_iff.mp (search.found keys key i hle hsearch)).1

variable {key : K}

theorem position_append {below above : List K} (hsorted : (below ++ above).Pairwise (· < ·))
    (hbelow : ∀ k ∈ below, k < key) (habove : ∀ k ∈ above, key ≤ k) :
    search.position (below ++ above) key = below.length := by
  obtain ⟨htake, hdrop⟩ := search.position_spec hsorted key
  have hle := search.position_le hsorted key
  rw [List.length_append] at hle
  rcases Nat.lt_trichotomy (search.position (below ++ above) key) below.length with h | h | h
  · rw [List.drop_append_of_le_length h.le, List.drop_eq_getElem_cons h] at hdrop
    exact absurd (hbelow _ (List.getElem_mem h)) (not_lt.mpr (hdrop _ List.mem_cons_self))
  · exact h
  · cases above with
    | nil => exact absurd hle (by simpa using h)
    | cons first rest =>
      have hfirst : first ∈ (below ++ first :: rest).take
          (search.position (below ++ first :: rest) key) := by
        rw [List.take_append, List.mem_append]
        right
        obtain ⟨m, hm⟩ : ∃ m, search.position (below ++ first :: rest) key - below.length =
            m + 1 := ⟨_, (Nat.succ_pred_eq_of_pos (Nat.sub_pos_of_lt h)).symm⟩
        rw [hm, List.take_succ_cons]
        exact List.mem_cons_self
      exact absurd (htake first hfirst) (not_lt.mpr (habove first List.mem_cons_self))

theorem search_of_getElem? (hsorted : keys.Pairwise (· < ·)) {i : Nat} (hkey : keys[i]? = some key) :
    search.search keys key = .ok i := by
  have hle : keys.Pairwise (· ≤ ·) := hsorted.imp le_of_lt
  obtain ⟨hi, rfl⟩ := List.getElem?_eq_some_iff.mp hkey
  cases hsearch : search.search keys keys[i] with
  | ok j =>
    obtain ⟨hj, heq⟩ := List.getElem?_eq_some_iff.mp (search.found keys _ j hle hsearch)
    rcases Nat.lt_trichotomy j i with hlt | rfl | hgt
    · exact absurd heq (ne_of_lt (List.pairwise_iff_getElem.mp hsorted j i hj hi hlt))
    · rfl
    · exact absurd heq.symm (ne_of_lt (List.pairwise_iff_getElem.mp hsorted i j hi hj hgt))
  | error j =>
    obtain ⟨-, hbelow, habove⟩ := search.missing keys _ j hle hsearch
    rcases Nat.lt_or_ge i j with hlt | hge
    · have hmem : keys[i] ∈ keys.take j := List.mem_take_iff_getElem.mpr ⟨i, by omega, rfl⟩
      exact absurd (hbelow _ hmem) (lt_irrefl _)
    · have hmem : keys[i] ∈ keys.drop j :=
        List.mem_drop_iff_getElem.mpr ⟨i - j, by omega, by simp [Nat.add_sub_cancel' hge]⟩
      exact absurd (habove _ hmem) (lt_irrefl _)

theorem search_of_forall_lt (hsorted : keys.Pairwise (· < ·)) (hkey : ∀ k ∈ keys, key < k) :
    search.search keys key = .error 0 := by
  have hle : keys.Pairwise (· ≤ ·) := hsorted.imp le_of_lt
  cases hsearch : search.search keys key with
  | ok j =>
    have hmem := List.mem_of_getElem? (search.found keys key j hle hsearch)
    exact absurd (hkey key hmem) (lt_irrefl _)
  | error j =>
    obtain ⟨hj, hbelow, -⟩ := search.missing keys key j hle hsearch
    cases j with
    | zero => rfl
    | succ j =>
      have hlt : 0 < keys.length := by omega
      have hmem : keys[0] ∈ keys.take (j + 1) :=
        List.mem_take_iff_getElem.mpr ⟨0, by omega, rfl⟩
      exact absurd (hbelow _ hmem) (not_lt_of_gt (hkey _ (List.getElem_mem hlt)))

def scanFrom (key : K) : Nat → List K → Except Nat Nat
  | i, [] => .error i
  | i, k :: keys =>
    if k < key then scanFrom key (i + 1) keys else if k = key then .ok i else .error i

private theorem scanFrom_ok {i j : Nat} (h : scanFrom key i keys = .ok j) :
    i ≤ j ∧ keys[j - i]? = some key := by
  induction keys generalizing i with
  | nil => cases h
  | cons k keys ih =>
    unfold scanFrom at h
    split_ifs at h with hlt heq
    · obtain ⟨hle, hget⟩ := ih h
      refine ⟨by omega, ?_⟩
      rw [show j - i = (j - (i + 1)) + 1 by omega, List.getElem?_cons_succ]
      exact hget
    · cases h
      rw [Nat.sub_self, List.getElem?_cons_zero, heq]
      exact ⟨Nat.le_refl _, rfl⟩

private theorem scanFrom_error {i j : Nat} (hsorted : keys.Pairwise (· ≤ ·))
    (h : scanFrom key i keys = .error j) :
    i ≤ j ∧ j - i ≤ keys.length ∧ (∀ k ∈ keys.take (j - i), k < key) ∧
      ∀ k ∈ keys.drop (j - i), key < k := by
  induction keys generalizing i with
  | nil =>
    cases h
    simp
  | cons k keys ih =>
    obtain ⟨hfirst, hrest⟩ := List.pairwise_cons.mp hsorted
    unfold scanFrom at h
    split_ifs at h with hlt heq
    · obtain ⟨hle, hlen, hbelow, habove⟩ := ih hrest h
      have hsub : j - i = (j - (i + 1)) + 1 := by omega
      rw [hsub]
      refine ⟨by omega, by rw [List.length_cons]; omega, ?_, by simpa using habove⟩
      simpa using ⟨hlt, hbelow⟩
    · cases h
      have hgt : key < k := lt_of_le_of_ne (not_lt.mp hlt) (Ne.symm heq)
      rw [Nat.sub_self]
      refine ⟨Nat.le_refl _, Nat.zero_le _, by simp, fun other hother => ?_⟩
      rcases List.mem_cons.mp hother with rfl | hother
      · exact hgt
      · exact lt_of_lt_of_le hgt (hfirst other hother)

def scan (K : Type) [LinearOrder K] : BinarySearch K where
  search keys key := scanFrom key 0 keys
  found _ _ _ _ h := by simpa using (scanFrom_ok h).2
  missing _ _ _ hsorted h := by simpa using (scanFrom_error hsorted h).2

end BinarySearch

end PolkadotSdk
