import Mathlib

/-! # Dropping the oldest of a sequence of sets

A store keeps what a sequence of states needs. When the oldest state is dropped, what
only it needed can go. `deaths` lists, for every state but the newest, what is needed
by it and by no later one; it can be maintained as states are added at the end.
`lifetimes` counts the maximal runs of states that contain an element, which is the
reference count a store needs to reach the same contents.
-/

namespace PolkadotSdk.Retention

universe u

variable {α : Type u}

def needed (states : List (Set α)) : Set α := { a | ∃ s ∈ states, a ∈ s }

@[simp] theorem mem_needed {states : List (Set α)} {a : α} :
    a ∈ needed states ↔ ∃ s ∈ states, a ∈ s := Iff.rfl

theorem mem_needed_cons {s : Set α} {states : List (Set α)} {a : α} :
    a ∈ needed (s :: states) ↔ a ∈ s ∨ a ∈ needed states := by
  simp

theorem mem_needed_append {states more : List (Set α)} {a : α} :
    a ∈ needed (states ++ more) ↔ a ∈ needed states ∨ a ∈ needed more := by
  simp [or_and_right, exists_or]

def deaths : List (Set α) → List (Set α)
  | [] => []
  | [_] => []
  | s :: t :: rest => (s \ needed (t :: rest)) :: deaths (t :: rest)

/-- Deleting what only the oldest state needed leaves what the others need. -/
theorem needed_sdiff_death (s : Set α) (rest : List (Set α)) :
    needed (s :: rest) \ (s \ needed rest) = needed rest := by
  ext a
  rw [Set.mem_sdiff, Set.mem_sdiff, mem_needed_cons]
  tauto

/-- A new state takes what it needs off every list, and adds what it drops. -/
theorem deaths_concat (states : List (Set α)) (newest next : Set α) :
    deaths (states ++ [newest, next]) =
      (deaths (states ++ [newest])).map (· \ next) ++ [newest \ next] := by
  induction states with
  | nil => simp [deaths, needed]
  | cons s states ih =>
    obtain ⟨t, rest, hrest⟩ : ∃ t rest, states ++ [newest] = t :: rest :=
      List.exists_cons_of_ne_nil (by simp)
    have hmore : states ++ [newest, next] = t :: (rest ++ [next]) := by
      have := congrArg (· ++ [next]) hrest
      simpa using this
    have hneeded : ∀ a, a ∈ needed (t :: (rest ++ [next])) ↔ a ∈ needed (t :: rest) ∨ a ∈ next := by
      intro a
      rw [← List.cons_append, mem_needed_append]
      simp
    have hhead : s \ needed (t :: (rest ++ [next])) = (s \ needed (t :: rest)) \ next := by
      ext a
      rw [Set.mem_sdiff, Set.mem_sdiff, Set.mem_sdiff, hneeded]
      tauto
    rw [List.cons_append, List.cons_append, hmore, hrest, deaths, deaths, hhead, ← hmore, ih,
      hrest, List.map_cons, List.cons_append]

theorem not_mem_newest {states : List (Set α)} {newest d : Set α} {a : α}
    (hd : d ∈ deaths (states ++ [newest])) (ha : a ∈ d) : a ∉ newest := by
  induction states with
  | nil => simp [deaths] at hd
  | cons s states ih =>
    obtain ⟨t, rest, hrest⟩ : ∃ t rest, states ++ [newest] = t :: rest :=
      List.exists_cons_of_ne_nil (by simp)
    rw [List.cons_append, hrest, deaths, ← hrest] at hd
    rcases List.mem_cons.mp hd with rfl | hd
    · intro hnewest
      exact ha.2 ⟨newest, by simp, hnewest⟩
    · exact ih hd

/-! ## Counting -/

/-- For every state but the newest: what it has and the next one does not. -/
def drops : List (Set α) → List (Set α)
  | [] => []
  | [_] => []
  | s :: t :: rest => (s \ t) :: drops (t :: rest)

theorem drops_concat (states : List (Set α)) (newest next : Set α) :
    drops (states ++ [newest, next]) = drops (states ++ [newest]) ++ [newest \ next] := by
  induction states with
  | nil => rfl
  | cons s states ih =>
    cases states with
    | nil => rfl
    | cons t rest => exact congrArg ((s \ t) :: ·) ih

open Classical in
noncomputable def lifetimes (a : α) : List (Set α) → Nat
  | [] => 0
  | [s] => if a ∈ s then 1 else 0
  | s :: t :: rest => (if a ∈ s \ t then 1 else 0) + lifetimes a (t :: rest)

open Classical in
theorem lifetimes_tail (a : α) {states rest : List (Set α)} {d : Set α}
    (h : drops states = d :: rest) :
    lifetimes a states = lifetimes a states.tail + if a ∈ d then 1 else 0 := by
  match states, h with
  | s :: t :: states, h =>
    rw [drops, List.cons.injEq] at h
    rw [lifetimes, List.tail_cons, Nat.add_comm]
    simp only [h.1]

theorem drops_tail {states rest : List (Set α)} {d : Set α} (h : drops states = d :: rest) :
    drops states.tail = rest := by
  match states, h with
  | s :: t :: states, h =>
    rw [drops, List.cons.injEq] at h
    exact h.2

theorem lifetimes_pos_iff (a : α) (states : List (Set α)) :
    0 < lifetimes a states ↔ a ∈ needed states := by
  induction states with
  | nil => simp [lifetimes]
  | cons s states ih =>
    cases states with
    | nil => by_cases h : a ∈ s <;> simp [lifetimes, h]
    | cons t rest =>
      rw [lifetimes, mem_needed_cons, ← ih]
      by_cases hs : a ∈ s
      · by_cases ht : a ∈ t
        · have hpos : 0 < lifetimes a (t :: rest) := ih.mpr ⟨t, by simp, ht⟩
          simp [hs, ht, hpos]
        · have hleft : a ∈ s \ t := ⟨hs, ht⟩
          rw [if_pos hleft]
          exact iff_of_true (by omega) (.inl hs)
      · simp [hs]

open Classical in
theorem lifetimes_concat (a : α) (states : List (Set α)) (newest next : Set α) :
    lifetimes a (states ++ [newest, next]) =
      lifetimes a (states ++ [newest]) + if a ∈ next \ newest then 1 else 0 := by
  induction states with
  | nil =>
    by_cases hn : a ∈ newest <;> by_cases hx : a ∈ next <;> simp [lifetimes, hn, hx]
  | cons s states ih =>
    obtain ⟨t, rest, hrest⟩ : ∃ t rest, states ++ [newest] = t :: rest :=
      List.exists_cons_of_ne_nil (by simp)
    have hmore : states ++ [newest, next] = t :: (rest ++ [next]) := by
      have := congrArg (· ++ [next]) hrest
      simpa using this
    rw [List.cons_append, List.cons_append, hmore, hrest, lifetimes, lifetimes, ← hmore, ih,
      hrest, Nat.add_assoc]

end PolkadotSdk.Retention
