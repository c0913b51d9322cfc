import Mathlib

/-! # Maps with nested transactions

The abstract store keeps one complete map per open transaction. A sparse store
keeps, for one key, only the versions written, with a flag per transaction that
tells whether it wrote the key. `Column` ties the two: it rebuilds the values
the key has in the maps of the stack, newest first, from the flags and versions.
-/

namespace PolkadotSdk.MapStack

universe u v

variable {K : Type u} {W : Type v}

/-- The newest map, and the maps that rolling back restores. -/
structure Stack (K : Type u) (W : Type v) where
  top : K → Option W
  below : List (K → Option W)

namespace Stack

def empty : Stack K W := ⟨fun _ => none, []⟩

def start (s : Stack K W) : Stack K W := ⟨s.top, s.top :: s.below⟩

def commit : Stack K W → Option (Stack K W)
  | ⟨_, []⟩ => none
  | ⟨top, _ :: below⟩ => some ⟨top, below⟩

def rollback : Stack K W → Option (Stack K W)
  | ⟨_, []⟩ => none
  | ⟨_, restored :: below⟩ => some ⟨restored, below⟩

def close (s : Stack K W) : Bool → Option (Stack K W)
  | true => s.rollback
  | false => s.commit

def write [DecidableEq K] (s : Stack K W) (key : K) (value : W) : Stack K W :=
  { s with top := Function.update s.top key (some value) }

def writeWhere (s : Stack K W) (selected : K → Bool) (value : W) : Stack K W :=
  { s with top := fun key => if selected key then (s.top key).map fun _ => value else s.top key }

def column (s : Stack K W) (key : K) : List (Option W) := s.top key :: s.below.map (· key)

@[simp] theorem column_write_self [DecidableEq K] (s : Stack K W) (key : K) (value : W) :
    (s.write key value).column key = some value :: s.below.map (· key) := by
  simp [write, column]

theorem column_write_other [DecidableEq K] (s : Stack K W) {key other : K} (value : W)
    (h : other ≠ key) : (s.write key value).column other = s.column other := by
  simp [write, column, h]

@[simp] theorem column_start (s : Stack K W) (key : K) :
    s.start.column key = s.top key :: s.column key := by
  simp [start, column]

end Stack

/-- What closing a transaction does to a column. -/
def closeColumn {α : Type v} : Bool → List α → List α
  | true, column => column.tail
  | false, newest :: _ :: rest => newest :: rest
  | false, column => column

theorem Stack.column_close {s t : Stack K W} {rolledBack : Bool} (h : s.close rolledBack = some t)
    (key : K) : t.column key = closeColumn rolledBack (s.column key) := by
  obtain ⟨top, below⟩ := s
  cases below with
  | nil => cases rolledBack <;> simp [close, commit, rollback] at h
  | cons restored below =>
    cases rolledBack
    · obtain rfl : (⟨top, below⟩ : Stack K W) = t := by simpa [close, commit] using h
      rfl
    · obtain rfl : (⟨restored, below⟩ : Stack K W) = t := by simpa [close, rollback] using h
      rfl

/-- Flags, versions written and values seen agree, transaction by transaction. -/
inductive Column : List Bool → List W → List (Option W) → Prop where
  | absent : Column [] [] [none]
  | committed (w : W) : Column [] [w] [some w]
  | clean {flags : List Bool} {ws : List W} {c : Option W} {column : List (Option W)} :
      Column flags ws (c :: column) → Column (false :: flags) ws (c :: c :: column)
  | dirty {flags : List Bool} {ws : List W} {column : List (Option W)} (w : W) :
      Column flags ws column → Column (true :: flags) (w :: ws) (some w :: column)

namespace Column

variable {column : List (Option W)} {flags : List Bool} {ws : List W}

theorem head {c : Option W} (h : Column flags ws (c :: column)) : c = ws.head? := by
  induction flags generalizing ws c column with
  | nil => cases h <;> rfl
  | cons flag flags ih =>
    cases h with
    | clean h => exact ih h
    | dirty w h => rfl

theorem firstWrite {c : Option W} (h : Column (false :: flags) ws (c :: column)) (w : W) :
    Column (true :: flags) (w :: ws) (some w :: column) := by
  cases h with
  | clean h => exact .dirty w h

theorem committed_of_nil {c : Option W} (h : Column [] ws (c :: column)) (w : W) :
    Column [] [w] (some w :: column) := by
  cases h <;> exact .committed w

theorem dirty_cons (h : Column (true :: flags) ws column) :
    ∃ w older rest, ws = w :: older ∧ column = some w :: rest ∧ Column flags older rest := by
  cases h with
  | dirty w h => exact ⟨w, _, _, rfl, rfl, h⟩

theorem close_clean (h : Column (false :: flags) ws column) (rolledBack : Bool) :
    Column flags ws (closeColumn rolledBack column) := by
  cases h with
  | clean h => cases rolledBack <;> exact h

theorem commit_move (h : Column (true :: false :: flags) ws column) :
    Column (true :: flags) ws (closeColumn false column) := by
  cases h with
  | dirty w h =>
    cases h with
    | clean h => exact .dirty w h

theorem commit_merge (h : Column (true :: true :: flags) ws column) :
    ∃ w w' older, ws = w :: w' :: older ∧
      Column (true :: flags) (w :: older) (closeColumn false column) := by
  cases h with
  | dirty w h =>
    cases h with
    | dirty w' h => exact ⟨w, w', _, rfl, .dirty w h⟩

end Column

end PolkadotSdk.MapStack
