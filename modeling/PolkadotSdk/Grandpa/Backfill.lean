import PolkadotSdk.Grandpa.AuthoritySet
import PolkadotSdk.Lib.Run

/-! # Back-filled set changes

A node that was warp synced records the set changes from the sync on, and inserts those before it
in ascending order as it downloads the old blocks. The set id of an inserted change is the one
after its left neighbour's. A search takes the next recorded change as its answer, and only the
first one is checked for missing data before it, so a gap between the two halves goes unseen.
-/

namespace PolkadotSdk.Grandpa

structure Backfill where
  changes : AuthoritySetChanges := []
  inserted : Nat := 0
  appended : Nat := 0
  deriving DecidableEq, Repr

namespace Backfill

inductive Op where
  | append
  | insert (setId : Nat)
  deriving DecidableEq, Repr

/-- `ends` is the last block of each set, `first` the first set whose end is recorded at once. -/
def step (ends : Nat → Nat) (first : Nat) (search : BinarySearch Nat) (s : Backfill) :
    Op → Option Backfill
  | .append =>
    let setId := first + s.appended
    some { s with changes := s.changes.append setId (ends setId), appended := s.appended + 1 }
  | .insert setId =>
    match s.changes.insert search (ends setId) with
    | none => none
    | some (.error _) => some s
    | some (.ok changes) => some { s with changes, inserted := s.inserted + 1 }

def Ascending (first : Nat) (s : Backfill) : Op → Prop
  | .append => True
  | .insert setId => setId < first ∧ setId ≤ s.inserted

instance (first : Nat) (s : Backfill) (op : Op) : Decidable (s.Ascending first op) := by
  unfold Ascending
  split <;> infer_instance

/-- Some of the old changes are missing below the new ones. -/
def Gap (first : Nat) (s : Backfill) : Prop :=
  0 < s.inserted ∧ s.inserted < first ∧ 0 < s.appended

structure IsChange (ends : Nat → Nat) (n setId lastBlock : Nat) : Prop where
  last : lastBlock = ends setId
  upTo : n ≤ lastBlock
  after : ∀ earlier < setId, ends earlier < n

/-! ## The recorded sets -/

def sets (first : Nat) (s : Backfill) : List Nat :=
  List.range s.inserted ++ List.range' first s.appended

/-- The list records the true ends of the sets from 0 on and of those from `first` on. -/
structure Records (ends : Nat → Nat) (first : Nat) (s : Backfill) : Prop where
  changes : s.changes = (s.sets first).map fun setId => (setId, ends setId)
  inserted : s.inserted ≤ first

variable {ends : Nat → Nat} {first : Nat} {search : BinarySearch Nat} {s : Backfill}

theorem getElem?_sets (i : Nat) :
    (s.sets first)[i]? =
      if i < s.inserted then some i
      else if i - s.inserted < s.appended then some (first + (i - s.inserted)) else none := by
  unfold sets
  rw [List.getElem?_append, List.length_range]
  split_ifs with hi ha
  · exact List.getElem?_range hi
  · rw [List.getElem?_range' ha, Nat.one_mul]
  · rw [List.getElem?_eq_none (by simpa using ha)]

section

variable (h : Records ends first s)
include h

theorem Records.sorted : (s.sets first).Pairwise (· < ·) := by
  rw [sets, List.pairwise_append]
  refine ⟨List.pairwise_lt_range, List.pairwise_lt_range', fun a ha b hb => ?_⟩
  rw [List.mem_range] at ha
  rw [List.mem_range'_1] at hb
  exact Nat.lt_of_lt_of_le (Nat.lt_of_lt_of_le ha h.inserted) hb.1

theorem Records.numbers : s.changes.numbers = (s.sets first).map ends := by
  rw [AuthoritySetChanges.numbers, h.changes, List.map_map]
  rfl

theorem Records.numbers_sorted (hends : StrictMono ends) : s.changes.numbers.Pairwise (· < ·) := by
  rw [h.numbers, List.pairwise_map]
  exact h.sorted.imp fun hlt => hends hlt

theorem Records.getElem? (i : Nat) :
    s.changes[i]? = (s.sets first)[i]?.map fun setId => (setId, ends setId) := by
  rw [h.changes, List.getElem?_map]

end

/-! ## Steps -/

theorem sets_split {setId : Nat} (hle : setId ≤ s.inserted) :
    s.sets first = List.range setId ++
      (List.range' setId (s.inserted - setId) ++ List.range' first s.appended) := by
  have happend := @List.range'_append 0 setId (s.inserted - setId) 1
  rw [Nat.one_mul, Nat.zero_add, Nat.add_sub_cancel' hle] at happend
  rw [sets, List.range_eq_range', List.range_eq_range', ← happend, List.append_assoc]

theorem Records.position (h : Records ends first s) (hends : StrictMono ends) {setId : Nat}
    (hfirst : setId < first) (hle : setId ≤ s.inserted) :
    search.position s.changes.numbers (ends setId) = setId := by
  have hsorted := h.numbers_sorted hends
  rw [h.numbers, sets_split hle, List.map_append] at hsorted ⊢
  rw [search.position_append hsorted, List.length_map, List.length_range]
  · simp only [List.mem_map, List.mem_range]
    rintro _ ⟨earlier, hearlier, rfl⟩
    exact hends hearlier
  · simp only [List.mem_map, List.mem_append, List.mem_range'_1]
    rintro _ ⟨later, hlater, rfl⟩
    exact hends.monotone (by omega)

theorem insertIdx_length_append {α : Type} (xs ys : List α) (a : α) :
    (xs ++ ys).insertIdx xs.length a = xs ++ a :: ys := by
  induction xs with
  | nil => rfl
  | cons x xs ih => simp [ih]

theorem Records.insert (h : Records ends first s) (hends : StrictMono ends) {setId : Nat}
    (hfirst : setId < first) (hle : setId ≤ s.inserted) :
    s.changes.insert search (ends setId) =
      if setId < s.inserted then some (.error setId)
      else some (.ok (s.changes.insertIdx setId (setId, ends setId))) := by
  have hleft : (if setId = 0 then some 0 else s.changes[setId - 1]?.map (·.1 + 1)) =
      some setId := by
    split_ifs with hzero
    · rw [hzero]
    · rw [h.getElem?, getElem?_sets, if_pos (by omega)]
      exact congrArg some (by dsimp only; omega)
  have hlength : s.inserted ≤ s.changes.length := by
    rw [h.changes, List.length_map, sets, List.length_append, List.length_range]
    exact Nat.le_add_right _ _
  have hright : s.changes[setId]?.map Prod.fst = some setId ↔ setId < s.inserted := by
    rw [h.getElem?, getElem?_sets]
    split_ifs <;> simp <;> omega
  rw [AuthoritySetChanges.insert, h.position hends hfirst hle]
  simp only [hleft, hright, ne_eq]
  by_cases hlt : setId < s.inserted
  · rw [if_pos ⟨by omega, hlt⟩, if_pos hlt]
  · rw [if_neg fun hand => hlt hand.2, if_pos (by omega), if_neg hlt]

theorem Records.step (h : Records ends first s) (hends : StrictMono ends) {op : Op}
    (hop : s.Ascending first op) :
    ∃ s', s.step ends first search op = some s' ∧ Records ends first s' := by
  cases op with
  | append =>
    refine ⟨_, rfl, ?_, h.inserted⟩
    change s.changes ++ [(first + s.appended, ends (first + s.appended))] = _
    rw [h.changes, sets, sets, List.range'_concat]
    simp
  | insert setId =>
    obtain ⟨hfirst, hle⟩ := hop
    rw [Backfill.step, h.insert hends hfirst hle]
    by_cases hlt : setId < s.inserted
    · rw [if_pos hlt]
      exact ⟨s, rfl, h⟩
    · obtain rfl : setId = s.inserted := by omega
      rw [if_neg hlt]
      refine ⟨_, rfl, ?_, hfirst⟩
      have hplace := insertIdx_length_append
        ((List.range s.inserted).map fun setId => (setId, ends setId))
        ((List.range' first s.appended).map fun setId => (setId, ends setId))
        (s.inserted, ends s.inserted)
      rw [List.length_map, List.length_range, ← List.map_append] at hplace
      change s.changes.insertIdx s.inserted (s.inserted, ends s.inserted) = _
      rw [h.changes, sets, hplace, sets, List.range_succ]
      simp

/-! ## Searches -/

section

variable (h : Records ends first s) (hends : StrictMono ends)
include h hends

theorem Records.getSetId_eq_set
    {n setId lastBlock : Nat} (hset : s.changes.getSetId search n = .set setId lastBlock) :
    ∃ i, (s.sets first)[i]? = some setId ∧ (i = 0 → setId = 0) ∧ lastBlock = ends setId ∧
      n ≤ ends setId ∧ ∀ j < i, ∀ earlier ∈ (s.sets first)[j]?, ends earlier < n := by
  obtain ⟨hbelow, habove⟩ := search.position_spec (h.numbers_sorted hends) n
  unfold AuthoritySetChanges.getSetId at hset
  split_ifs at hset
  dsimp only at hset
  rw [h.getElem?] at hset
  cases hget : (s.sets first)[search.position s.changes.numbers n]? with
  | none => rw [hget] at hset; cases hset
  | some found =>
    rw [hget, Option.map_some] at hset
    dsimp only at hset
    split_ifs at hset with hmissing
    cases hset
    refine ⟨_, hget, fun hzero => by_contra fun hne => hmissing ⟨hzero, hne⟩, rfl, ?_, ?_⟩
    · refine habove _ (List.mem_of_getElem? (i := 0) ?_)
      rw [List.getElem?_drop, Nat.add_zero, h.numbers, List.getElem?_map, ← h.numbers, hget]
      rfl
    · intro j hj earlier hearlier
      refine hbelow _ (List.mem_of_getElem? (i := j) ?_)
      rw [List.getElem?_take_of_lt hj, h.numbers, List.getElem?_map, hearlier]
      rfl

theorem Records.isChange
    {n setId lastBlock : Nat} (hset : s.changes.getSetId search n = .set setId lastBlock)
    (hgap : s.Gap first → n ≤ ends (s.inserted - 1) ∨ ends (first - 1) < n) :
    IsChange ends n setId lastBlock := by
  obtain ⟨i, hget, hzero, hlast, hle, hbefore⟩ := h.getSetId_eq_set hends hset
  refine ⟨hlast, hlast ▸ hle, fun earlier hearlier => ?_⟩
  suffices hpred : ends (setId - 1) < n from
    Nat.lt_of_le_of_lt (hends.monotone (by omega)) hpred
  have hi : i ≠ 0 := fun heq => by have := hzero heq; omega
  have hleft := hbefore (i - 1) (by omega)
  have hinserted := h.inserted
  rw [getElem?_sets] at hget hleft
  split_ifs at hget with hlow hhigh
  · cases hget
    rw [if_pos (by omega)] at hleft
    exact hleft _ rfl
  · cases hget
    by_cases hborder : i = s.inserted
    · -- the left neighbour is the last of the old changes
      rw [if_pos (by omega)] at hleft
      have hprev := hleft _ rfl
      by_cases hfull : s.inserted = first
      · rwa [show first + (i - s.inserted) - 1 = i - 1 by omega]
      · rcases hgap ⟨by omega, by omega, by omega⟩ with hn | hn
        · rw [← hborder] at hn
          exact absurd hn (Nat.not_le.mpr hprev)
        · rwa [show first + (i - s.inserted) - 1 = first - 1 by omega]
    · rw [if_neg (by omega), if_pos (by omega)] at hleft
      rw [show first + (i - s.inserted) - 1 = first + (i - 1 - s.inserted) by omega]
      exact hleft _ rfl

theorem Records.iterFrom_eq_some {n : Nat}
    {later : AuthoritySetChanges} (hiter : s.changes.iterFrom search n = some later) :
    ∃ i, later.map Prod.fst = (s.sets first).drop i ∧
      ∀ setId ∈ (s.sets first)[i]?, n < ends setId := by
  have hsorted := h.numbers_sorted hends
  have hnumber : ∀ (i : Nat) (setId : Nat), (s.sets first)[i]? = some setId →
      s.changes.numbers[i]? = some (ends setId) := by
    intro i setId hget
    rw [h.numbers, List.getElem?_map, hget]
    rfl
  have hdrop : ∀ i, (s.changes.drop i).map Prod.fst = (s.sets first).drop i := fun i => by
    rw [h.changes, ← List.map_drop, List.map_map]
    exact List.map_id _
  unfold AuthoritySetChanges.iterFrom at hiter
  cases hsearch : search.search s.changes.numbers n with
  | ok i =>
    refine ⟨i + 1, ?_, fun setId hget => ?_⟩
    · rw [hsearch] at hiter
      dsimp only at hiter
      split at hiter <;> (try split_ifs at hiter) <;> cases hiter <;> exact hdrop _
    · have hfound := search.found _ n i (hsorted.imp le_of_lt) hsearch
      obtain ⟨hi, hn⟩ := List.getElem?_eq_some_iff.mp hfound
      obtain ⟨hi', hn'⟩ := List.getElem?_eq_some_iff.mp (hnumber (i + 1) setId hget)
      rw [← hn, ← hn']
      exact List.pairwise_iff_getElem.mp hsorted i (i + 1) hi hi' (Nat.lt_succ_self i)
  | error i =>
    refine ⟨i, ?_, fun setId hget => ?_⟩
    · rw [hsearch] at hiter
      dsimp only at hiter
      split at hiter <;> (try split_ifs at hiter) <;> cases hiter <;> exact hdrop _
    · obtain ⟨-, -, habove⟩ := search.missing _ n i (hsorted.imp le_of_lt) hsearch
      refine habove _ (List.mem_of_getElem? (i := 0) ?_)
      rw [List.getElem?_drop, Nat.add_zero, hnumber i setId hget]

theorem Records.no_missing {n : Nat}
    {later : AuthoritySetChanges} (hiter : s.changes.iterFrom search n = some later)
    (hgap : s.Gap first → ends (s.inserted - 1) ≤ n) :
    (later.map Prod.fst).IsChain fun setId next => next = setId + 1 := by
  obtain ⟨i, hlater, hafter⟩ := h.iterFrom_eq_some hends hiter
  rw [hlater]
  by_cases hi : s.inserted ≤ i
  · have hnew : (s.sets first).drop i = (List.range' first s.appended).drop (i - s.inserted) := by
      rw [sets, List.drop_append, List.drop_eq_nil_of_le (by simpa using hi), List.length_range,
        List.nil_append]
    rw [hnew]
    exact (List.isChain_range' first s.appended 1).drop _
  · -- the block is below the end of an inserted set, so there is no gap
    have hbelow : n < ends (s.inserted - 1) := by
      have hn := hafter i (by rw [getElem?_sets, if_pos (by omega)]; rfl)
      exact Nat.lt_of_lt_of_le hn (hends.monotone (by omega))
    have hwhole : s.sets first = List.range' 0 (s.inserted + s.appended) := by
      have hinserted := h.inserted
      by_cases hfull : s.inserted = first
      · have happend := @List.range'_append 0 s.inserted s.appended 1
        rw [Nat.one_mul, Nat.zero_add, hfull] at happend
        rw [sets, List.range_eq_range', hfull, happend]
      · have hnone : s.appended = 0 := by
          by_contra hsome
          have := hgap ⟨by omega, by omega, by omega⟩
          omega
        rw [sets, hnone, List.range_eq_range']
        simp
    rw [hwhole]
    exact (List.isChain_range' 0 _ 1).drop _

end

/-- The list is sorted at every point. While there is a gap, the answers are right for blocks
below or above it, and the changes after a block are without a gap if they start above the old
ones. -/
theorem backfill_sound (hends : StrictMono ends) (ops : List Op)
    (hops : Run.Along (Backfill.step ends first search) (Ascending first) {} ops) :
    ∃ s, Run.exec (Backfill.step ends first search) {} ops = some s ∧
      s.changes.Pairwise (fun a b => a.1 < b.1 ∧ a.2 < b.2) ∧
      (∀ n setId lastBlock,
        (s.Gap first → n ≤ ends (s.inserted - 1) ∨ ends (first - 1) < n) →
        s.changes.getSetId search n = .set setId lastBlock → IsChange ends n setId lastBlock) ∧
      ∀ n later, (s.Gap first → ends (s.inserted - 1) ≤ n) →
        s.changes.iterFrom search n = some later →
        (later.map Prod.fst).IsChain fun setId next => next = setId + 1 := by
  have hstart : Records ends first {} := ⟨rfl, Nat.zero_le _⟩
  obtain ⟨s, hexec, hrecords⟩ :=
    Run.exec_total (I := Records ends first) (fun _ _ h hop => h.step hends hop) hstart hops
  refine ⟨s, hexec, ?_, fun n setId lastBlock hgap hset => hrecords.isChange hends hset hgap,
    fun n later hgap hiter => hrecords.no_missing hends hiter hgap⟩
  rw [hrecords.changes, List.pairwise_map]
  exact hrecords.sorted.imp fun hlt => ⟨hlt, hends hlt⟩

/-- Sets 0, 1 and 2 end at the blocks 10, 20 and 30; set 2 is the first one after the sync. -/
theorem backfill_sound_three :
    ∃ s, Run.exec (Backfill.step (fun setId => 10 * setId + 10) 2 (.scan _)) {}
        [.append, .insert 0, .insert 0, .insert 1] = some s ∧
      s.changes.getSetId (.scan _) 15 = .set 1 20 ∧
      IsChange (fun setId => 10 * setId + 10) 15 1 20 := by
  have hends : StrictMono fun setId => 10 * setId + 10 := fun a b hlt => by
    dsimp only
    omega
  obtain ⟨s, hexec, -, hset, -⟩ := @backfill_sound _ 2 (.scan _) hends
    [.append, .insert 0, .insert 0, .insert 1] (by decide)
  have hs : s = ⟨[(0, 10), (1, 20), (2, 30)], 2, 1⟩ := (Option.some.inj hexec).symm
  subst hs
  exact ⟨_, hexec, rfl, hset 15 1 20 (by simp [Gap]) rfl⟩

/-- Between the two halves: block 15 is taken to be in set 2, and set 1 is missing after block 5. -/
theorem backfill_gap :
    ∃ s, Run.exec (Backfill.step (fun setId => 10 * setId + 10) 2 (.scan _)) {}
        [.append, .insert 0] = some s ∧
      s.changes.getSetId (.scan _) 15 = .set 2 30 ∧
      ¬ IsChange (fun setId => 10 * setId + 10) 15 2 30 ∧
      s.changes.iterFrom (.scan _) 5 = some [(0, 10), (2, 30)] :=
  ⟨_, rfl, rfl, fun h => absurd (h.after 1 (by decide)) (by decide), rfl⟩

end Backfill

end PolkadotSdk.Grandpa
