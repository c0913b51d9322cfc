import Mathlib

/-! # Loops of a partial body

The body of a `while` loop maps a state to `none` where the program panics, to `some none`
where the loop condition fails, and to `some (some t)` where a round ends in `t`. A loop is
run for a number of rounds; the rules below give its result an invariant, and show that a
measure which every round lowers bounds the rounds it takes. Both allow a side condition
on the states in which the body is entered.
-/

namespace PolkadotSdk.Loop

universe u

variable {σ : Type u}

/-- Run the body until it stops; `none` is a panic, or more rounds than given. -/
def run (body : σ → Option (Option σ)) : Nat → σ → Option σ
  | 0, _ => none
  | fuel + 1, s =>
    match body s with
    | none => none
    | some none => some s
    | some (some t) => run body fuel t

def heads (body : σ → Option (Option σ)) : Nat → σ → List σ
  | 0, _ => []
  | fuel + 1, s =>
    s :: match body s with
      | some (some t) => heads body fuel t
      | _ => []

variable {body : σ → Option (Option σ)} {I C : σ → Prop}

theorem run_of_stop {s : σ} (fuel : Nat) (h : body s = some none) :
    run body (fuel + 1) s = some s := by
  simp [run, h]

theorem run_of_round {s t : σ} (fuel : Nat) (h : body s = some (some t)) :
    run body (fuel + 1) s = run body fuel t := by
  simp [run, h]

theorem self_mem_heads (s : σ) (fuel : Nat) : s ∈ heads body (fuel + 1) s :=
  List.mem_cons_self ..

theorem mem_heads_of_round {s t w : σ} {fuel : Nat} (h : body s = some (some t))
    (hw : w ∈ heads body fuel t) : w ∈ heads body (fuel + 1) s := by
  simp [heads, h, hw]

theorem heads_invariant (hround : ∀ s t, I s → body s = some (some t) → I t) {s : σ}
    (hs : I s) (fuel : Nat) : ∀ w ∈ heads body fuel s, I w := by
  induction fuel generalizing s with
  | zero => simp [heads]
  | succ fuel ih =>
    intro w hw
    rcases List.mem_cons.mp hw with rfl | hlater
    · exact hs
    · match hbody : body s with
      | some (some t) =>
        rw [hbody] at hlater
        exact ih (hround s t hs hbody) w hlater
      | some none => simp [hbody] at hlater
      | none => simp [hbody] at hlater

/-- A loop whose every round is defined and lowers a measure stops within that many rounds. -/
theorem run_total (measure : σ → Nat)
    (hbody : ∀ s, I s → C s →
      body s = some none ∨ ∃ t, body s = some (some t) ∧ I t ∧ measure t < measure s)
    {s : σ} {fuel : Nat} (hs : I s) (hheads : ∀ w ∈ heads body fuel s, C w)
    (hfuel : measure s < fuel) :
    ∃ t, run body fuel s = some t ∧ I t ∧ body t = some none := by
  induction fuel generalizing s with
  | zero => omega
  | succ fuel ih =>
    rcases hbody s hs (hheads s (self_mem_heads s fuel)) with hstop | ⟨mid, hround, hmid, hlt⟩
    · exact ⟨s, run_of_stop fuel hstop, hs, hstop⟩
    · obtain ⟨t, ht, hinv⟩ := ih hmid
        (fun w hw => hheads w (mem_heads_of_round hround hw)) (by omega)
      exact ⟨t, by rw [run_of_round fuel hround, ht], hinv⟩

/-! ## Loops of a fixed number of rounds -/

def times (step : σ → Option σ) : Nat → σ → Option σ
  | 0, s => some s
  | n + 1, s => (step s).bind (times step n)

theorem times_total {step : σ → Option σ} {J : Nat → σ → Prop}
    (hstep : ∀ n s, J (n + 1) s → ∃ t, step s = some t ∧ J n t) (n : Nat) {s : σ} (hs : J n s) :
    ∃ t, times step n s = some t ∧ J 0 t := by
  induction n generalizing s with
  | zero => exact ⟨s, rfl, hs⟩
  | succ n ih =>
    obtain ⟨mid, hmid, hinv⟩ := hstep n s hs
    obtain ⟨t, ht, hend⟩ := ih hinv
    exact ⟨t, by rw [times, hmid, Option.bind_some, ht], hend⟩

/-! ## Loops over a list -/

section List

variable {ι : Type*} {step : σ → ι → Option σ} {items : List ι} {s t : σ}

theorem foldlM_invariant (hstep : ∀ s t, ∀ item ∈ items, I s → step s item = some t → I t)
    (hs : I s) (h : items.foldlM step s = some t) : I t := by
  induction items generalizing s with
  | nil =>
    cases h
    exact hs
  | cons item items ih =>
    rw [List.foldlM_cons] at h
    obtain ⟨mid, hmid, hrest⟩ := Option.bind_eq_some_iff.mp h
    exact ih (fun s t x hx => hstep s t x (List.mem_cons_of_mem _ hx))
      (hstep s mid item List.mem_cons_self hs hmid) hrest

/-- The first bad item leaves a mark, which the items after it keep. Up to there an invariant of
the items that are left holds. -/
theorem foldlM_mark {B : ι → Prop} {J : List ι → σ → Prop} {R : ι → σ → Prop}
    (hgood : ∀ s t item rest, item ∉ rest → J (item :: rest) s → ¬ B item →
      step s item = some t → J rest t)
    (hbad : ∀ s t item rest, J (item :: rest) s → B item → step s item = some t → R item t)
    (hkeep : ∀ s t item other, item ≠ other → R item s → step s other = some t → R item t)
    (hitems : items.Nodup) (hs : J items s) (h : items.foldlM step s = some t) :
    (∀ item ∈ items, ¬ B item) ∧ J [] t ∨ ∃ item ∈ items, R item t := by
  induction items generalizing s with
  | nil =>
    cases h
    exact .inl ⟨by simp, hs⟩
  | cons item items ih =>
    obtain ⟨hnew, hrest⟩ := List.nodup_cons.mp hitems
    rw [List.foldlM_cons] at h
    obtain ⟨mid, hmid, hfold⟩ := Option.bind_eq_some_iff.mp h
    by_cases hitem : B item
    · refine .inr ⟨item, List.mem_cons_self, foldlM_invariant (I := R item) (fun s t x hx hs =>
        hkeep s t item x ?_ hs) (hbad s mid item items hs hitem hmid) hfold⟩
      rintro rfl
      exact hnew hx
    · rcases ih hrest (hgood s mid item items hnew hs hitem hmid) hfold with
        ⟨hnone, hend⟩ | ⟨x, hx, hmark⟩
      · exact .inl ⟨List.forall_mem_cons.mpr ⟨hitem, hnone⟩, hend⟩
      · exact .inr ⟨x, List.mem_cons_of_mem _ hx, hmark⟩

end List

end PolkadotSdk.Loop
