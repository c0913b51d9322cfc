import Mathlib

/-! # Programs with state, errors and panics

A program reads and writes a state and returns a value, or stops with an error, at a panic, or
in a loop that takes more rounds than it is given. The state reached is kept in each case. The
rules below show that a program returns, and what it returns.
-/

namespace PolkadotSdk

inductive Fault (ε : Type) where
  | error (e : ε)
  | panic
  | diverge
  deriving DecidableEq, Repr

abbrev Program (ε σ α : Type) : Type := EStateM (Fault ε) σ α

/-! ## Results -/

theorem except_bind_eq_ok {ε α β : Type} {x : Except ε α} {f : α → Except ε β} {b : β}
    (h : (x >>= f) = .ok b) : ∃ a, x = .ok a ∧ f a = .ok b := by
  cases x with
  | error e => cases h
  | ok a => exact ⟨a, rfl, h⟩

theorem mapM_eq_ok {ε α β : Type} {f : α → Except ε β} {g : α → β}
    (hf : ∀ {a b}, f a = .ok b → b = g a) {items : List α} {results : List β}
    (h : items.mapM f = .ok results) : results = items.map g := by
  induction items generalizing results with
  | nil =>
    cases h
    rfl
  | cons a items ih =>
    rw [List.mapM_cons] at h
    obtain ⟨b, hb, h⟩ := except_bind_eq_ok h
    obtain ⟨rest, hrest, h⟩ := except_bind_eq_ok h
    cases h
    rw [hf hb, ih hrest, List.map_cons]

namespace Program

variable {ε σ α β : Type}

def loop (body : α → Program ε σ (Option α)) : Nat → α → Program ε σ α
  | 0, _ => throw .diverge
  | fuel + 1, a => do
    match ← body a with
    | none => pure a
    | some b => loop body fuel b

/-- From this state the program returns, with a value and a state that meet `Q`. -/
def Returns (program : Program ε σ α) (s : σ) (Q : α → σ → Prop) : Prop :=
  ∃ a t, program.run s = .ok a t ∧ Q a t

variable {s : σ} {Q : α → σ → Prop} {R : β → σ → Prop}

variable {a : α}

theorem Returns.pure (h : Q a s) : Returns (Pure.pure a : Program ε σ α) s Q :=
  ⟨a, s, rfl, h⟩

variable {program : Program ε σ α} {rest : α → Program ε σ β}

theorem run_bind (program : Program ε σ α) (rest : α → Program ε σ β) (s : σ) :
    (program >>= rest).run s =
      match program.run s with
      | .ok a t => (rest a).run t
      | .error fault t => .error fault t := by
  show EStateM.bind program rest s = _
  unfold EStateM.bind EStateM.run
  cases program s <;> rfl

theorem Returns.bind (h : Returns program s Q) (hrest : ∀ a t, Q a t → Returns (rest a) t R) :
    Returns (program >>= rest) s R := by
  obtain ⟨a, t, hrun, hq⟩ := h
  obtain ⟨b, u, hrest, hr⟩ := hrest a t hq
  refine ⟨b, u, ?_, hr⟩
  rw [run_bind, hrun]
  exact hrest

variable {Q' : α → σ → Prop}

theorem Returns.mono (h : Returns program s Q) (himp : ∀ a t, Q a t → Q' a t) :
    Returns program s Q' := by
  obtain ⟨a, t, hrun, hq⟩ := h
  exact ⟨a, t, hrun, himp a t hq⟩

/-- What a round of a loop comes to: the loop stops, or a smaller value is left. -/
def Round (I Q : α → σ → Prop) (measure : α → Nat) (a : α) : Option α → σ → Prop
  | none, t => Q a t
  | some b, t => I b t ∧ measure b < measure a

theorem Returns.loop {I : α → σ → Prop} (measure : α → Nat) {body : α → Program ε σ (Option α)}
    (hbody : ∀ a t, I a t → Returns (body a) t (Round I Q measure a)) {fuel : Nat}
    (hfuel : measure a < fuel) (ha : I a s) : Returns (Program.loop body fuel a) s Q := by
  induction fuel generalizing a s with
  | zero => omega
  | succ fuel ih =>
    refine Returns.bind (hbody a s ha) fun next t hnext => ?_
    cases next with
    | none => exact Returns.pure hnext
    | some b =>
      obtain ⟨hinv, hlt⟩ := hnext
      exact ih (by omega) hinv

theorem Returns.foldlM {γ : Type} {body : α → γ → Program ε σ α} {I : List γ → α → σ → Prop}
    {items : List γ} (hbody : ∀ done a t, ∀ item ∈ items, I done a t →
      Returns (body a item) t (I (done ++ [item]))) (done : List γ) (ha : I done a s) :
    Returns (items.foldlM body a) s (I (done ++ items)) := by
  induction items generalizing done a s with
  | nil =>
    refine Returns.pure ?_
    rw [List.append_nil]
    exact ha
  | cons item items ih =>
    rw [List.foldlM_cons]
    refine Returns.bind (hbody done a s item List.mem_cons_self ha) fun b t hb => ?_
    have hrest := ih (fun done' a' t' next hnext =>
      hbody done' a' t' next (List.mem_cons_of_mem _ hnext)) (done ++ [item]) hb
    rwa [List.append_assoc, List.singleton_append] at hrest

/-! ## Programs that may stop with an error -/

/-- From this state the program returns as `Q` says or stops with an error as `E` says. It does
not panic. -/
def Ends (program : Program ε σ α) (s : σ) (Q : α → σ → Prop) (E : ε → σ → Prop) : Prop :=
  match program.run s with
  | .ok a t => Q a t
  | .error (.error e) t => E e t
  | .error .panic _ => False
  | .error .diverge _ => False

variable {E : ε → σ → Prop}

theorem Ends.throw_bind {e : ε} (h : E e s) :
    Ends ((throw (.error e) : Program ε σ α) >>= rest) s R E := h

variable {f : σ → σ}

theorem Ends.modify_bind {rest : PUnit → Program ε σ β} (h : Ends (rest ⟨⟩) (f s) R E) :
    Ends ((modify f : Program ε σ PUnit) >>= rest) s R E := h

theorem Ends.pure_bind (h : Ends (rest a) s R E) :
    Ends (Pure.pure a >>= rest) s R E := h

theorem Ends.get_bind {rest : σ → Program ε σ β} (h : Ends (rest s) s R E) :
    Ends (get >>= rest) s R E := h

theorem Ends.throw {e : ε} (h : E e s) : Ends (throw (.error e) : Program ε σ α) s Q E := h

theorem Ends.modify {Q : PUnit → σ → Prop} (h : Q ⟨⟩ (f s)) :
    Ends (modify f : Program ε σ PUnit) s Q E := h

variable {t : σ}

theorem Ends.set {Q : PUnit → σ → Prop} (h : Q ⟨⟩ t) : Ends (set t : Program ε σ PUnit) s Q E := h

theorem Ends.pure (h : Q a s) : Ends (Pure.pure a : Program ε σ α) s Q E := h

variable {F : ε → σ → Prop}

theorem Ends.bind (h : Ends program s Q F) (herror : ∀ e t, F e t → E e t)
    (hrest : ∀ a t, Q a t → Ends (rest a) t R E) : Ends (program >>= rest) s R E := by
  unfold Ends at h ⊢
  rw [run_bind]
  cases hrun : program.run s with
  | ok a t =>
    rw [hrun] at h
    exact hrest a t h
  | error fault t =>
    rw [hrun] at h
    cases fault with
    | error e => exact herror e t h
    | panic => exact h
    | diverge => exact h

theorem Ends.mono {E' : ε → σ → Prop} (h : Ends program s Q E) (hreturn : ∀ a t, Q a t → Q' a t)
    (herror : ∀ e t, E e t → E' e t) : Ends program s Q' E' := by
  unfold Ends at h ⊢
  split at h
  · exact hreturn _ _ h
  · exact herror _ _ h
  · exact h
  · exact h

theorem Ends.seq (h : Ends program s Q E) (hrest : ∀ a t, Q a t → Ends (rest a) t R E) :
    Ends (program >>= rest) s R E :=
  h.bind (fun _ _ herror => herror) hrest

theorem Ends.imp (h : Ends program s Q E) (hreturn : ∀ a t, Q a t → Q' a t) :
    Ends program s Q' E :=
  h.mono hreturn fun _ _ herror => herror

theorem Ends.run_eq (h : Ends program s Q E) :
    Ends program s (fun a t => Q a t ∧ program.run s = .ok a t) E := by
  unfold Ends at h ⊢
  cases hrun : program.run s with
  | ok a t =>
    rw [hrun] at h
    exact ⟨h, rfl⟩
  | error fault t =>
    rw [hrun] at h
    cases fault <;> exact h

/-! ## Results as programs -/

def ofExcept : Except ε α → Program ε σ α
  | .ok a => Pure.pure a
  | .error e => throw (.error e)

def ofOption : Option α → Program ε σ α
  | some a => Pure.pure a
  | none => throw .panic

def ofOutcome (outcome : Option (Except ε α)) : Program ε σ α :=
  ofOption outcome >>= ofExcept

def onError (program : Program ε σ α) (handler : ε → Program ε σ α) : Program ε σ α := fun s =>
  match program.run s with
  | .ok a t => .ok a t
  | .error (.error e) t => (handler e).run t
  | .error .panic t => .error .panic t
  | .error .diverge t => .error .diverge t

def ignoreError {ε' : Type} (program : Program ε' σ PUnit) : Program ε σ PUnit := fun s =>
  match program.run s with
  | .ok a t => .ok a t
  | .error (.error _) t => .ok ⟨⟩ t
  | .error .panic t => .error .panic t
  | .error .diverge t => .error .diverge t

def mapError {ε' : Type} (f : ε → ε') (program : Program ε σ α) : Program ε' σ α := fun s =>
  match program.run s with
  | .ok a t => .ok a t
  | .error (.error e) t => .error (.error (f e)) t
  | .error .panic t => .error .panic t
  | .error .diverge t => .error .diverge t

variable {ε' : Type}

theorem Returns.mapError {f : ε → ε'} (h : Returns program s Q) :
    Returns (program.mapError f) s Q := by
  obtain ⟨a, t, hrun, hq⟩ := h
  refine ⟨a, t, ?_, hq⟩
  show Program.mapError f program s = .ok a t
  unfold Program.mapError
  rw [hrun]

theorem Returns.ends (h : Returns program s Q) : Ends program s Q E := by
  obtain ⟨a, t, hrun, hq⟩ := h
  unfold Ends
  rw [hrun]
  exact hq

variable {result : Except ε α}

theorem Ends.ofExcept (hok : ∀ a, result = .ok a → Q a s)
    (herror : ∀ e, result = .error e → E e s) :
    Ends (Program.ofExcept result : Program ε σ α) s Q E := by
  cases result with
  | ok a => exact hok a rfl
  | error e => exact herror e rfl

theorem mapError_eq_ok {f : ε → ε'} : result.mapError f = .ok a ↔ result = .ok a := by
  cases result with
  | ok b => simp [Except.mapError]
  | error e => simp [Except.mapError]

theorem run_ofExcept_bind (s : σ) (h : result = .ok a) :
    (ofExcept result >>= rest).run s = (rest a).run s := by
  subst h
  rfl

theorem run_ofOutcome_bind {outcome : Option (Except ε α)} (s : σ) (h : outcome = some (.ok a)) :
    (ofOutcome outcome >>= rest).run s = (rest a).run s := by
  subst h
  rfl

theorem run_get_bind (rest : σ → Program ε σ β) (s : σ) :
    (get >>= rest).run s = (rest s).run s := rfl

theorem run_modify_bind (f : σ → σ) (rest : PUnit → Program ε σ β) (s : σ) :
    ((modify f : Program ε σ PUnit) >>= rest).run s = (rest ⟨⟩).run (f s) := rfl

theorem run_onError (program : Program ε σ α) (handler : ε → Program ε σ α) (s : σ) :
    (program.onError handler).run s =
      match program.run s with
      | .ok a t => .ok a t
      | .error (.error e) t => (handler e).run t
      | .error .panic t => .error .panic t
      | .error .diverge t => .error .diverge t := rfl

variable {handler : ε → Program ε σ α}

theorem Returns.onError (h : Returns program s Q) : Returns (program.onError handler) s Q := by
  obtain ⟨a, t, hrun, hq⟩ := h
  refine ⟨a, t, ?_, hq⟩
  rw [run_onError, hrun]

theorem run_ignoreError (program : Program ε' σ PUnit) (s : σ) :
    (program.ignoreError : Program ε σ PUnit).run s =
      match program.run s with
      | .ok a t => .ok a t
      | .error (.error _) t => .ok ⟨⟩ t
      | .error .panic t => .error .panic t
      | .error .diverge t => .error .diverge t := rfl

/-! ## Programs that may also panic -/

/-- Where the program returns from this state it does so as `Q` says, and where it stops with an
error it does so as `E` says. -/
def Leaves (program : Program ε σ α) (s : σ) (Q : α → σ → Prop) (E : ε → σ → Prop) : Prop :=
  match program.run s with
  | .ok a t => Q a t
  | .error (.error e) t => E e t
  | .error .panic _ => True
  | .error .diverge _ => True

theorem Leaves.pure (h : Q a s) : Leaves (Pure.pure a : Program ε σ α) s Q E := h

theorem Leaves.throw {e : ε} (h : E e s) : Leaves (throw (.error e) : Program ε σ α) s Q E := h

theorem Leaves.panic : Leaves (MonadExcept.throw .panic : Program ε σ α) s Q E := trivial

theorem Leaves.get_bind {rest : σ → Program ε σ β} (h : Leaves (rest s) s R E) :
    Leaves (get >>= rest) s R E := h

theorem Leaves.modify_bind {rest : PUnit → Program ε σ β} (h : Leaves (rest ⟨⟩) (f s) R E) :
    Leaves ((modify f : Program ε σ PUnit) >>= rest) s R E := h

theorem Leaves.modify {Q : PUnit → σ → Prop} (h : Q ⟨⟩ (f s)) :
    Leaves (modify f : Program ε σ PUnit) s Q E := h

theorem Leaves.bind (h : Leaves program s Q F) (herror : ∀ e t, F e t → E e t)
    (hrest : ∀ a t, Q a t → Leaves (rest a) t R E) : Leaves (program >>= rest) s R E := by
  unfold Leaves at h ⊢
  rw [run_bind]
  cases hrun : program.run s with
  | ok a t =>
    rw [hrun] at h
    exact hrest a t h
  | error fault t =>
    rw [hrun] at h
    cases fault with
    | error e => exact herror e t h
    | panic => trivial
    | diverge => trivial

theorem Leaves.mono {E' : ε → σ → Prop} (h : Leaves program s Q E)
    (hreturn : ∀ a t, Q a t → Q' a t) (herror : ∀ e t, E e t → E' e t) :
    Leaves program s Q' E' := by
  unfold Leaves at h ⊢
  split at h
  · exact hreturn _ _ h
  · exact herror _ _ h
  · trivial
  · trivial

theorem Leaves.run_eq (h : Leaves program s Q E) :
    Leaves program s (fun a t => Q a t ∧ program.run s = .ok a t) E := by
  unfold Leaves at h ⊢
  cases hrun : program.run s with
  | ok a t =>
    rw [hrun] at h
    exact ⟨h, rfl⟩
  | error fault t =>
    rw [hrun] at h
    cases fault <;> exact h

theorem Leaves.ofExcept (hok : ∀ a, result = .ok a → Q a s)
    (herror : ∀ e, result = .error e → E e s) :
    Leaves (Program.ofExcept result : Program ε σ α) s Q E := by
  cases result with
  | ok a => exact hok a rfl
  | error e => exact herror e rfl

theorem Leaves.ofOutcome {outcome : Option (Except ε α)}
    (hok : ∀ a, outcome = some (.ok a) → Q a s) (herror : ∀ e, outcome = some (.error e) → E e s) :
    Leaves (Program.ofOutcome outcome : Program ε σ α) s Q E := by
  match outcome with
  | none => trivial
  | some (.ok a) => exact hok a rfl
  | some (.error e) => exact herror e rfl

theorem Leaves.onError (h : Leaves program s Q F)
    (hhandler : ∀ e t, F e t → Leaves (handler e) t Q E) :
    Leaves (program.onError handler) s Q E := by
  unfold Leaves at h ⊢
  rw [run_onError]
  cases hrun : program.run s with
  | ok a t =>
    rw [hrun] at h
    exact h
  | error fault t =>
    rw [hrun] at h
    cases fault with
    | error e => exact hhandler e t h
    | panic => trivial
    | diverge => trivial

theorem Leaves.ignoreError {program : Program ε' σ PUnit} {F : ε' → σ → Prop}
    {Q : PUnit → σ → Prop} (h : Leaves program s Q F) (herror : ∀ e t, F e t → Q ⟨⟩ t) :
    Leaves (program.ignoreError : Program ε σ PUnit) s Q E := by
  unfold Leaves at h ⊢
  rw [run_ignoreError]
  cases hrun : program.run s with
  | ok a t =>
    rw [hrun] at h
    exact h
  | error fault t =>
    rw [hrun] at h
    cases fault with
    | error e => exact herror e t h
    | panic => trivial
    | diverge => trivial

/-! ## What holds however a program stops -/

def after (program : Program ε σ α) (s : σ) : σ :=
  match program.run s with
  | .ok _ t => t
  | .error _ t => t

def Preserves (program : Program ε σ α) (P : σ → Prop) : Prop :=
  ∀ s, P s → P (program.after s)

variable {P : σ → Prop}

theorem after_bind_ok (h : program.run s = .ok a t) :
    (program >>= rest).after s = (rest a).after t := by
  rw [after, run_bind, h]
  rfl

theorem after_bind_error {fault : Fault ε} (h : program.run s = .error fault t) :
    (program >>= rest).after s = t := by
  rw [after, run_bind, h]

theorem Preserves.bind (h : Preserves program P) (hrest : ∀ a, Preserves (rest a) P) :
    Preserves (program >>= rest) P := by
  intro s hs
  have hmiddle := h s hs
  unfold after at hmiddle
  cases hrun : program.run s with
  | ok a t =>
    rw [hrun] at hmiddle
    rw [after_bind_ok hrun]
    exact hrest a t hmiddle
  | error fault t =>
    rw [hrun] at hmiddle
    rw [after_bind_error hrun]
    exact hmiddle

theorem Preserves.get_bind {rest : σ → Program ε σ β} (h : ∀ s, P s → P ((rest s).after s)) :
    Preserves (get >>= rest) P := h

theorem after_modify_bind {rest : PUnit → Program ε σ β} :
    ((modify f : Program ε σ PUnit) >>= rest).after s =
      (rest ⟨⟩).after (f s) := rfl

theorem Preserves.modify (h : ∀ s, P s → P (f s)) :
    Preserves (modify f : Program ε σ PUnit) P := h

theorem Preserves.get : Preserves (MonadState.get : Program ε σ σ) P := fun _ h => h

theorem Preserves.pure (a : α) : Preserves (Pure.pure a : Program ε σ α) P := fun _ h => h

theorem Preserves.throw (fault : Fault ε) :
    Preserves (MonadExcept.throw fault : Program ε σ α) P := fun _ h => h

theorem Preserves.ofExcept (result : Except ε α) :
    Preserves (Program.ofExcept result : Program ε σ α) P := by
  cases result with
  | ok a => exact .pure a
  | error e => exact .throw _

theorem Preserves.ofExcept_bind (h : ∀ a, result = .ok a → Preserves (rest a) P) :
    Preserves (Program.ofExcept result >>= rest) P := by
  cases result with
  | ok a => exact h a rfl
  | error e => exact .throw _

theorem Preserves.ofOption (result : Option α) :
    Preserves (Program.ofOption result : Program ε σ α) P := by
  cases result with
  | some a => exact .pure a
  | none => exact .throw _

theorem Preserves.ofOutcome (outcome : Option (Except ε α)) :
    Preserves (Program.ofOutcome outcome : Program ε σ α) P :=
  Preserves.bind (.ofOption outcome) Preserves.ofExcept

theorem Preserves.onError (h : Preserves program P) (hhandler : ∀ e, Preserves (handler e) P) :
    Preserves (program.onError handler) P := by
  intro s hs
  have hmiddle := h s hs
  unfold after at hmiddle ⊢
  rw [run_onError]
  cases hrun : program.run s with
  | ok a t =>
    rw [hrun] at hmiddle
    exact hmiddle
  | error fault t =>
    rw [hrun] at hmiddle
    cases fault with
    | error e => exact hhandler e t hmiddle
    | panic => exact hmiddle
    | diverge => exact hmiddle

theorem Preserves.ignoreError {program : Program ε' σ PUnit} (h : Preserves program P) :
    Preserves (program.ignoreError : Program ε σ PUnit) P := by
  intro s hs
  have hmiddle := h s hs
  unfold after at hmiddle ⊢
  rw [run_ignoreError]
  cases hrun : program.run s with
  | ok a t =>
    rw [hrun] at hmiddle
    exact hmiddle
  | error fault t =>
    rw [hrun] at hmiddle
    cases fault <;> exact hmiddle

/-! ## What holds where a program returns -/

theorem run_bind_of_ok (h : program.run s = .ok a t) :
    (program >>= rest).run s = (rest a).run t := by
  rw [run_bind, h]

end Program

end PolkadotSdk
