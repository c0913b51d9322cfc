import Mathlib

/-! # Runs of a partial step function

A step function `σ → ι → Option σ` executes one operation and returns `none`
where the program panics. The rules below lift facts about single steps to
whole runs, with or without a side condition that every operation of the run
meets in the state it is applied to.
-/

namespace PolkadotSdk.Run

universe u v

variable {σ : Type u} {ι : Type v}

/-- Execute a list of operations, stopping at the first panic. -/
def exec (step : σ → ι → Option σ) : σ → List ι → Option σ
  | s, [] => some s
  | s, op :: ops =>
    match step s op with
    | some t => exec step t ops
    | none => none

/-- Every operation of the run meets `P` in the state it is applied to. -/
def Along (step : σ → ι → Option σ) (P : σ → ι → Prop) : σ → List ι → Prop
  | _, [] => True
  | s, op :: ops =>
    P s op ∧
      match step s op with
      | some t => Along step P t ops
      | none => True

instance decidableAlong (step : σ → ι → Option σ) (P : σ → ι → Prop)
    [∀ s op, Decidable (P s op)] : ∀ s ops, Decidable (Along step P s ops)
  | _, [] => isTrue trivial
  | s, op :: ops =>
    have : Decidable
        (match step s op with
          | some t => Along step P t ops
          | none => True) :=
      match step s op with
      | some t => decidableAlong step P t ops
      | none => isTrue trivial
    inferInstanceAs (Decidable (_ ∧ _))

variable {step : σ → ι → Option σ} {P : σ → ι → Prop} {I : σ → Prop}

@[simp] theorem exec_nil (s : σ) : exec step s [] = some s := rfl

variable {s t : σ} {op : ι}

theorem exec_cons_of_step (ops : List ι) (h : step s op = some t) :
    exec step s (op :: ops) = exec step t ops := by
  simp [exec, h]

variable {ops : List ι}

theorem exec_cons_eq_some {s u : σ} (h : exec step s (op :: ops) = some u) :
    ∃ t, step s op = some t ∧ exec step t ops = some u := by
  cases hs : step s op with
  | none => simp [exec, hs] at h
  | some t => exact ⟨t, rfl, by simpa [exec, hs] using h⟩

theorem Along.head {s : σ} (h : Along step P s (op :: ops)) : P s op := h.1

theorem Along.tail (h : Along step P s (op :: ops)) (hs : step s op = some t) :
    Along step P t ops := by
  have ht := h.2
  rwa [hs] at ht

theorem Along.cons_of_step (h : P s op) (hs : step s op = some t) (ht : Along step P t ops) :
    Along step P s (op :: ops) := by
  refine ⟨h, ?_⟩
  rw [hs]
  exact ht

theorem Along.append_right {ops rest : List ι} (h : Along step P s (ops ++ rest))
    (hexec : exec step s ops = some t) : Along step P t rest := by
  induction ops generalizing s with
  | nil =>
    cases hexec
    exact h
  | cons op ops ih =>
    obtain ⟨mid, hmid, hrest⟩ := exec_cons_eq_some hexec
    exact ih (h.tail hmid) hrest

theorem Along.append_left {s : σ} {ops rest : List ι} (h : Along step P s (ops ++ rest)) :
    Along step P s ops := by
  induction ops generalizing s with
  | nil => trivial
  | cons op ops ih =>
    refine ⟨h.head, ?_⟩
    cases hs : step s op with
    | none => trivial
    | some t => exact ih (h.tail hs)

theorem Along.of_forall_mem (h : ∀ s, ∀ op ∈ ops, P s op) (s : σ) : Along step P s ops := by
  induction ops generalizing s with
  | nil => trivial
  | cons op ops ih =>
    refine ⟨h s op List.mem_cons_self, ?_⟩
    cases step s op with
    | none => trivial
    | some t => exact ih (fun s op hop => h s op (List.mem_cons_of_mem _ hop)) t

theorem Along.of_forall (h : ∀ s op, P s op) (s : σ) (ops : List ι) : Along step P s ops :=
  .of_forall_mem (fun s op _ => h s op) s

theorem Along.and_mem {Q : ι → Prop} (h : Along step P s ops) (hQ : ∀ op ∈ ops, Q op) :
    Along step (fun s op => Q op ∧ P s op) s ops := by
  induction ops generalizing s with
  | nil => trivial
  | cons op ops ih =>
    refine ⟨⟨hQ op List.mem_cons_self, h.head⟩, ?_⟩
    cases hs : step s op with
    | none => trivial
    | some t => exact ih (h.tail hs) fun op hop => hQ op (List.mem_cons_of_mem _ hop)

/-- A step-preserved property holds wherever a run ends. -/
theorem exec_invariant (hstep : ∀ s op t, I s → P s op → step s op = some t → I t) (hs : I s)
    (halong : Along step P s ops) (hexec : exec step s ops = some t) : I t := by
  induction ops generalizing s with
  | nil =>
    cases hexec
    exact hs
  | cons op ops ih =>
    obtain ⟨mid, hmid, hrest⟩ := exec_cons_eq_some hexec
    exact ih (hstep s op mid hs halong.head hmid) (halong.tail hmid) hrest

/-- If an invariant rules out a panic and survives each step, runs are total. -/
theorem exec_total (hstep : ∀ s op, I s → P s op → ∃ t, step s op = some t ∧ I t) {s : σ} (hs : I s)
    (halong : Along step P s ops) : ∃ t, exec step s ops = some t ∧ I t := by
  induction ops generalizing s with
  | nil => exact ⟨s, rfl, hs⟩
  | cons op ops ih =>
    obtain ⟨mid, hmid, hinv⟩ := hstep s op hs halong.head
    obtain ⟨t, ht, hfin⟩ := ih hinv (halong.tail hmid)
    exact ⟨t, by rw [exec_cons_of_step ops hmid, ht], hfin⟩

end PolkadotSdk.Run
