import Mathlib

/-! # Undo logs

A store with nested transactions, each of which keeps what the store held before its own first
write to a key. Undoing the logs from the innermost on gives the stores at the starts of the
open transactions.
-/

namespace PolkadotSdk.UndoLog

universe u v w

/-! ## One log -/

section Store

variable {K : Type u} {V : Type v}

/-- The store before the writes of a log; a key the log does not hold was not written. -/
def undo (log : K → Option (Option V)) (store : K → Option V) : K → Option V :=
  fun key => (log key).getD (store key)

/-- The log of a transaction into which an inner one was committed: the older state wins. -/
def merge (outer inner : K → Option (Option V)) : K → Option (Option V) :=
  fun key => (outer key).or (inner key)

theorem undo_merge (outer inner : K → Option (Option V)) (store : K → Option V) :
    undo (merge outer inner) store = undo outer (undo inner store) := by
  funext key
  cases h : outer key <;> simp [undo, merge, h]

theorem undo_of_write [DecidableEq K] {log log' : K → Option (Option V)}
    {store store' : K → Option V} (key : K) (hstore : ∀ other ≠ key, store' other = store other)
    (hlog : ∀ other, log' other =
      if other = key then (log key).or (some (store key)) else log other) :
    undo log' store' = undo log store := by
  funext other
  by_cases h : other = key
  · subst h
    cases hk : log other <;> simp [undo, hlog, hk]
  · simp [undo, hlog, h, hstore other h]

end Store

/-! ## The stack of logs -/

section Stack

variable {S : Type u} {L : Type v} (undo : L → S → S)

def snapshots : S → List L → List S
  | _, [] => []
  | store, log :: logs => undo log store :: snapshots (undo log store) logs

variable {undo}

theorem snapshots_start {store : S} {log : L} (h : undo log store = store) (logs : List L) :
    snapshots undo store (log :: logs) = store :: snapshots undo store logs := by
  rw [snapshots, h]

theorem snapshots_write {store store' : S} {log log' : L} (h : undo log' store' = undo log store)
    (logs : List L) :
    snapshots undo store' (log' :: logs) = snapshots undo store (log :: logs) := by
  rw [snapshots, snapshots, h]

theorem snapshots_commit {store : S} {inner outer merged : L}
    (h : undo merged store = undo outer (undo inner store)) (logs : List L) :
    snapshots undo store (inner :: outer :: logs) =
      undo inner store :: snapshots undo store (merged :: logs) := by
  rw [snapshots, snapshots, snapshots, h]

end Stack

/-! ## Runs of transactions -/

inductive Kind where
  | change
  | start
  | commit
  | rollback
  deriving DecidableEq, Repr

/-- A machine with nested transactions: what it shows, and what it showed at the start of each
open transaction. -/
structure Journal (σ : Type u) (ι : Type v) (S : Type w) where
  step : σ → ι → σ
  kind : ι → Kind
  shown : σ → S
  saved : σ → List S
  change : ∀ s op, kind op = .change → saved (step s op) = saved s
  start : ∀ s op, kind op = .start →
    shown (step s op) = shown s ∧ saved (step s op) = shown s :: saved s
  commit : ∀ s op, kind op = .commit → shown (step s op) = shown s ∧
    saved (step s op) = (saved s).tail
  rollback : ∀ s op, kind op = .rollback →
    saved (step s op) = (saved s).tail ∧ ∀ old ∈ (saved s).head?, shown (step s op) = old

variable {σ : Type u} {ι : Type v} {S : Type w}

/-- Operations that close the transactions they start and no others. -/
inductive Nested (kind : ι → Kind) : List ι → Prop
  | nil : Nested kind []
  | change {op : ι} {ops : List ι} : kind op = .change → Nested kind ops → Nested kind (op :: ops)
  | block {start close : ι} {body ops : List ι} : kind start = .start →
      kind close = .commit ∨ kind close = .rollback → Nested kind body → Nested kind ops →
      Nested kind (start :: body ++ close :: ops)

namespace Journal

variable (J : Journal σ ι S)

def run (s : σ) (ops : List ι) : σ := ops.foldl J.step s

theorem saved_run_of_nested {ops : List ι} (h : Nested J.kind ops) (s : σ) :
    J.saved (J.run s ops) = J.saved s := by
  induction h generalizing s with
  | nil => rfl
  | change hop _ ih =>
    rw [run, List.foldl_cons]
    exact (ih _).trans (J.change s _ hop)
  | @block start close body ops hstart hclose _ _ ihbody ihops =>
    have hbody := ihbody (J.step s start)
    rw [(J.start s start hstart).2] at hbody
    have htail : J.saved (J.step (J.run (J.step s start) body) close) = J.saved s := by
      rcases hclose with hcommit | hrollback
      · rw [(J.commit _ close hcommit).2, hbody, List.tail_cons]
      · rw [(J.rollback _ close hrollback).1, hbody, List.tail_cons]
    calc J.saved (J.run s (start :: body ++ close :: ops)) =
          J.saved (J.run (J.step (J.run (J.step s start) body) close) ops) := by
            rw [List.cons_append, run, List.foldl_cons, List.foldl_append, List.foldl_cons]
            rfl
      _ = J.saved s := (ihops _).trans htail

end Journal

end PolkadotSdk.UndoLog
