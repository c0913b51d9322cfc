import Mathlib
import PolkadotSdk.FrameSupport.CountedStorage

/-! # The counted storage N-map

What the counted N-map has beside the shared operations. A partial key is given by the keys
that it is a prefix of. `set` does not ask whether the key is in the map, and the end of
`clearPrefix` resets the counter of the whole map.
-/

namespace PolkadotSdk.FrameSupport

inductive CountedNMapOp (K V Q E I : Type) where
  | shared (op : CountedOp K V Q E I)
  | set (key : K) (query : Q)
  | clearPrefix (inside : K → Bool) (calls : List (Nat × Bool))

namespace CountedNMap

variable {K V Q E I : Type} [LinearOrder K] {kind : QueryKind V Q} {appends : Appends V I}

def set (kind : QueryKind V Q) (map : Counted K V) (key : K) (query : Q) : Counted K V :=
  let option := kind.fromQueryToOptionalValue query
  { counter := if option.isNone then map.counter - 1 else map.counter
    storage := map.storage.store key
      (kind.fromQueryToOptionalValue (kind.fromOptionalValueToQuery option)) }

def step (kind : QueryKind V Q) (appends : Appends V I) (map : Counted K V) :
    CountedNMapOp K V Q E I → Option (Counted K V)
  | .shared op => map.runShared kind appends op
  | .set key query => some (set kind map key query)
  | .clearPrefix inside calls => Counted.clearToEnd inside calls map

def Small (kind : QueryKind V Q) (appends : Appends V I) (map : Counted K V)
    (op : CountedNMapOp K V Q E I) : Prop :=
  ∀ next ∈ step kind appends map op, next.storage.values.size < 2 ^ 32

/-- A key that is set is stored, and is removed when the query is an absent one. -/
def SetsStored (kind : QueryKind V Q) (map : Counted K V) (key : K) (query : Q) : Prop :=
  if (kind.fromQueryToOptionalValue query).isNone then
    kind.fromQueryToOptionalValue (kind.fromOptionalValueToQuery none) = none ∧
      (map.storage.contains key = true ∨ map.storage.values.size = 0)
  else map.storage.contains key = true

/-- Only keys of the map are set, and a partial key that is cleared has all keys of the map. -/
def Accounted (kind : QueryKind V Q) (map : Counted K V) : CountedNMapOp K V Q E I → Prop
  | .set key query => SetsStored kind map key query
  | .clearPrefix inside _ => ∀ key ∈ map.storage.values.keys, inside key = true
  | .shared _ => True

instance decidableSmall (map : Counted K V) (op : CountedNMapOp K V Q E I) :
    Decidable (Small kind appends map op) :=
  inferInstanceAs (Decidable (∀ next ∈ step kind appends map op, _))

instance decidableSetsStored [DecidableEq V] (map : Counted K V) (key : K) (query : Q) :
    Decidable (SetsStored kind map key query) :=
  inferInstanceAs (Decidable (if (kind.fromQueryToOptionalValue query).isNone then
    kind.fromQueryToOptionalValue (kind.fromOptionalValueToQuery none) = none ∧
      (map.storage.contains key = true ∨ map.storage.values.size = 0)
    else map.storage.contains key = true))

instance decidableAccounted [DecidableEq V] (map : Counted K V) :
    (op : CountedNMapOp K V Q E I) → Decidable (Accounted kind map op)
  | .set key query => decidableSetsStored map key query
  | .clearPrefix inside _ =>
    inferInstanceAs (Decidable (∀ key ∈ map.storage.values.keys, inside key = true))
  | .shared _ => isTrue trivial

theorem set_exact {map : Counted K V} (h : map.Exact) {key : K} {query : Q}
    (hstored : SetsStored kind map key query) : (set kind map key query).Exact := by
  unfold SetsStored at hstored
  unfold set
  cases hoption : kind.fromQueryToOptionalValue query with
  | some value =>
    rw [hoption, if_neg (by simp)] at hstored
    obtain ⟨old, hold⟩ := Option.isSome_iff_exists.mp hstored
    dsimp only
    rw [kind.present]
    exact h.rewrite hold (some value)
  | none =>
    rw [hoption, if_pos Option.isNone_none] at hstored
    obtain ⟨habsent, hcontains | hempty⟩ := hstored
    · obtain ⟨old, hold⟩ := Option.isSome_iff_exists.mp hcontains
      dsimp only
      rw [habsent]
      exact h.rewrite hold none
    · -- the counter is zero and is not decremented below it
      have hsize := map.storage.size_store key none
      dsimp only
      rw [habsent]
      unfold Counted.Exact at h ⊢
      simp only [Option.isNone_none, if_true]
      cases hold : map.storage.get key <;> simp [hold] at hsize <;> omega

theorem step_exact {map next : Counted K V} (h : map.Exact) {op : CountedNMapOp K V Q E I}
    (hsmall : Small kind appends map op) (haccounted : Accounted kind map op)
    (hstep : step kind appends map op = some next) : next.Exact := by
  have hsize : next.storage.values.size ≤ counterMax := Nat.le_pred_of_lt (hsmall next hstep)
  cases op with
  | shared op => exact Counted.runShared_exact kind appends h op hstep hsize
  | set key query =>
    cases hstep
    exact set_exact h haccounted
  | clearPrefix inside calls =>
    refine Counted.clearToEnd_exact (fun key value hget => ?_) hstep
    exact haccounted key (OrderedMap.mem_keys_iff.mpr ⟨value, hget⟩)

/-- In every run with fewer than 2^32 keys in which only stored keys are set, and only partial
keys of all keys are cleared, the counter is the number of keys. -/
theorem count_eq_number_of_keys (ops : List (CountedNMapOp K V Q E I)) (last : Counted K V)
    (hrun : Run.exec (step kind appends) Counted.empty ops = some last)
    (hops : Run.Along (step kind appends)
      (fun map op => Small kind appends map op ∧ Accounted kind map op) Counted.empty ops) :
    last.count = last.storage.values.size :=
  Run.exec_invariant (I := Counted.Exact) (fun _ _ _ h hop hstep => step_exact h hop.1 hop.2 hstep)
    Counted.empty_exact hops hrun

def digitOps : List (CountedNMapOp Nat Nat (Option Nat) Unit Unit) :=
  [.set 11 none, .shared (.insert 11 5), .shared (.insert 21 6), .set 11 (some 7),
    .shared .endBlock, .shared (.drainNext (fun key => key / 10 == 2) (some 11)),
    .shared (.mutate 13 fun _ => some 8), .shared (.insert 14 9), .set 14 none,
    .clearPrefix (fun key => key / 10 == 1) [(1, true), (3, false)], .shared (.insert 31 2)]

def noAppends : Appends Nat Unit := ⟨fun value _ => value.getD 0, fun _ => 1, 1⟩

theorem count_eq_number_of_keys_digits :
    ∃ last, Run.exec (step (optionQuery Nat) noAppends) Counted.empty digitOps = some last ∧
      last.count = last.storage.values.size := by
  obtain ⟨last, hlast⟩ := Option.isSome_iff_exists.mp (show (Run.exec
    (step (optionQuery Nat) noAppends) Counted.empty digitOps).isSome = true by decide +kernel)
  exact ⟨last, hlast, count_eq_number_of_keys digitOps last hlast (by decide +kernel)⟩

def uncountedOps : List (List (CountedNMapOp Nat Nat (Option Nat) Unit Unit)) :=
  [[.set 11 (some 5)], [.shared (.insert 11 5), .set 21 none],
    [.shared (.insert 11 5), .shared (.insert 21 6),
      .clearPrefix (fun key => key / 10 == 1) [(5, false)]]]

/-- The new key is not counted, the absent key is counted down, and the count of the other keys
is reset. -/
theorem set_and_clearPrefix_miscount :
    uncountedOps.map (fun ops =>
      (Run.exec (step (optionQuery Nat) noAppends) Counted.empty ops).map
        fun last => (last.count, last.storage.values.size)) =
      [some (0, 1), some (0, 1), some (0, 1)] := by
  decide +kernel

end CountedNMap

end PolkadotSdk.FrameSupport
