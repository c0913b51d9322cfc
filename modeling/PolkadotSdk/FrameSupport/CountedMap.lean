import Mathlib
import PolkadotSdk.FrameSupport.CountedStorage

/-! # The counted storage map

What the counted map has beside the shared operations. `tryAppend` counts a key each time an
item is appended to its value.
-/

namespace PolkadotSdk.FrameSupport

inductive CountedMapOp (K V Q E I : Type) where
  | shared (op : CountedOp K V Q E I)
  | set (key : K) (query : Q)
  | tryAppend (key : K) (item : I)

namespace CountedMap

variable {K V Q E I : Type} [LinearOrder K] {kind : QueryKind V Q} {appends : Appends V I}

def set (kind : QueryKind V Q) (map : Counted K V) (key : K) (query : Q) : Counted K V :=
  match kind.fromQueryToOptionalValue query with
  | some value => map.insert key value
  | none => map.remove key

def tryAppend (appends : Appends V I) (map : Counted K V) (key : K) (item : I) :
    Except Unit (Counted K V) :=
  let current := ((map.storage.get key).map appends.length).getD 0
  if current < appends.bound then
    .ok
      { counter := saturatingInc map.counter
        storage := map.storage.put key (appends.append (map.storage.get key) item) }
  else .error ()

def step (kind : QueryKind V Q) (appends : Appends V I) (map : Counted K V) :
    CountedMapOp K V Q E I → Option (Counted K V)
  | .shared op => map.runShared kind appends op
  | .set key query => some (set kind map key query)
  | .tryAppend key item =>
    match tryAppend appends map key item with
    | .ok map => some map
    | .error _ => some map

def Small (kind : QueryKind V Q) (appends : Appends V I) (map : Counted K V)
    (op : CountedMapOp K V Q E I) : Prop :=
  ∀ next ∈ step kind appends map op, next.storage.values.size < 2 ^ 32

/-- An item is only tried to be appended to a value that is not there, or that is full. -/
def AppendsNew (appends : Appends V I) (map : Counted K V) : CountedMapOp K V Q E I → Prop
  | .tryAppend key _ =>
    ∀ value ∈ map.storage.get key, appends.bound ≤ appends.length value
  | _ => True

instance decidableSmall (map : Counted K V) (op : CountedMapOp K V Q E I) :
    Decidable (Small kind appends map op) :=
  inferInstanceAs (Decidable (∀ next ∈ step kind appends map op, _))

instance decidableAppendsNew (map : Counted K V) :
    (op : CountedMapOp K V Q E I) → Decidable (AppendsNew appends map op)
  | .tryAppend key _ => inferInstanceAs (Decidable (∀ value ∈ map.storage.get key, _))
  | .shared _ => isTrue trivial
  | .set _ _ => isTrue trivial

theorem tryAppend_exact {map next : Counted K V} (h : map.Exact) {key : K} {item : I}
    (hnew : ∀ value, map.storage.get key = some value → appends.bound ≤ appends.length value)
    (happend : tryAppend appends map key item = .ok next)
    (hsmall : next.storage.values.size ≤ counterMax) : next.Exact := by
  unfold tryAppend at happend
  dsimp only at happend
  split_ifs at happend with hbound
  cases happend
  refine h.store key (some _) hsmall ?_
  cases hget : map.storage.get key with
  | none => simp
  | some value =>
    have hfull := hnew value hget
    simp [hget] at hbound
    omega

theorem step_exact {map next : Counted K V} (h : map.Exact) {op : CountedMapOp K V Q E I}
    (hsmall : Small kind appends map op) (hnew : AppendsNew appends map op)
    (hstep : step kind appends map op = some next) : next.Exact := by
  have hsize : next.storage.values.size ≤ counterMax := Nat.le_pred_of_lt (hsmall next hstep)
  cases op with
  | shared op => exact Counted.runShared_exact kind appends h op hstep hsize
  | set key query =>
    cases hstep
    unfold set at hsize ⊢
    cases hquery : kind.fromQueryToOptionalValue query with
    | some value =>
      rw [hquery] at hsize
      exact Counted.insert_exact h key value hsize
    | none =>
      rw [hquery] at hsize
      exact Counted.remove_exact h key hsize
  | tryAppend key item =>
    rw [step] at hstep
    split at hstep
    · rename_i appended happend
      cases hstep
      exact tryAppend_exact h hnew happend hsize
    · cases hstep
      exact h

/-- In every run with fewer than 2^32 keys in which no item is appended to a stored value with
`tryAppend`, the counter is the number of keys. -/
theorem count_eq_size (ops : List (CountedMapOp K V Q E I)) (last : Counted K V)
    (hrun : Run.exec (step kind appends) Counted.empty ops = some last)
    (hops : Run.Along (step kind appends)
      (fun map op => Small kind appends map op ∧ AppendsNew appends map op) Counted.empty ops) :
    last.count = last.storage.values.size :=
  Run.exec_invariant (I := Counted.Exact) (fun _ _ _ h hop hstep => step_exact h hop.1 hop.2 hstep)
    Counted.empty_exact hops hrun

def shortLists : Appends (List Nat) Nat where
  append value item := value.getD [] ++ [item]
  length := List.length
  bound := 3

def mixedOps : List (CountedMapOp Nat (List Nat) (Option (List Nat)) Unit Nat) :=
  [.set 1 (some [5]), .shared (.insert 2 []), .tryAppend 3 7,
    .shared (.mutateExists 4 fun _ => some [9]), .shared (.swap 4 6), .shared .endBlock,
    .shared (.drainNext (fun _ => true) (some 1)), .shared (.clear [(1, true), (5, false)]),
    .set 8 (some [1]), .shared (.translate fun _ value => some (0 :: value)), .set 9 none]

theorem count_eq_size_mixed :
    ∃ last, Run.exec (step (optionQuery (List Nat)) shortLists) Counted.empty mixedOps =
        some last ∧ last.count = last.storage.values.size := by
  obtain ⟨last, hlast⟩ := Option.isSome_iff_exists.mp (show (Run.exec
    (step (optionQuery (List Nat)) shortLists) Counted.empty mixedOps).isSome = true by
      decide +kernel)
  exact ⟨last, hlast, count_eq_size mixedOps last hlast (by decide +kernel)⟩

/-- One key, whose value is appended to once, is counted twice. -/
theorem tryAppend_counts_key_twice :
    ∃ last : Counted Nat (List Nat),
      Run.exec (step (E := Unit) (optionQuery (List Nat)) shortLists) Counted.empty
        [.shared (.insert 1 [5]), .tryAppend 1 6] = some last ∧
      last.count = 2 ∧ last.storage.values.size = 1 := by
  refine ⟨_, rfl, rfl, ?_⟩
  decide +kernel

end CountedMap

end PolkadotSdk.FrameSupport
