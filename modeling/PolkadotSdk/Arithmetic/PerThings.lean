import PolkadotSdk.Lib.Word

/-! # Multiplication by a per-thing

`Rounding` and the two multiplications behind `PerThing`. A product is split into a whole part
in the caller's type `N` and a correction computed in the types `Inner` and `Upper` of the
per-thing; an overflow in any of the three is the answer `none`.
-/

namespace PolkadotSdk.Arithmetic

open PolkadotSdk.Word

/-! ## Rounding -/

inductive Rounding where
  /-- Towards infinity. -/
  | up
  /-- Towards zero. -/
  | down
  /-- Nearest integer, rounding as `up` when equidistant. -/
  | nearestPrefUp
  /-- Nearest integer, rounding as `down` when equidistant. -/
  | nearestPrefDown
  deriving DecidableEq, Repr

namespace Rounding

def apply : Rounding → ℚ → ℕ
  | up, x => ⌈x⌉₊
  | down, x => ⌊x⌋₊
  | nearestPrefUp, x => ⌊x + 1 / 2⌋₊
  | nearestPrefDown, x => ⌈x - 1 / 2⌉₊

def raises (r : Rounding) (remainder divisor : Nat) : Bool :=
  match r with
  | up => 0 < remainder
  | nearestPrefUp => divisor / 2 + divisor % 2 ≤ remainder
  | nearestPrefDown => divisor / 2 < remainder
  | down => false

variable (r : Rounding)

theorem raises_zero {divisor : Nat} (hd : 0 < divisor) : r.raises 0 divisor = false := by
  cases r
  case nearestPrefUp =>
      simp only [raises, decide_eq_false_iff_not]
      omega
  all_goals simp [raises]

theorem apply_add_frac (q s d : Nat) (hs : s < d) :
    r.apply (q + (s : ℚ) / d) = q + (if r.raises s d then 1 else 0) := by
  have hd : (0 : ℚ) < d := by exact_mod_cast Nat.zero_lt_of_lt hs
  set f : ℚ := (s : ℚ) / d with hf
  have hf0 : 0 ≤ f := by positivity
  have hf1 : f < 1 := by
    rw [hf, div_lt_one hd]
    exact_mod_cast hs
  have hzero : 0 < f ↔ 0 < s := by
    rw [hf, div_pos_iff_of_pos_right hd]
    exact Nat.cast_pos
  have hhalf : 1 / 2 ≤ f ↔ d ≤ 2 * s := by
    rw [hf, div_le_div_iff₀ two_pos hd, one_mul, mul_comm]
    exact_mod_cast Iff.rfl
  have hover : 1 / 2 < f ↔ d < 2 * s := by
    rw [hf, div_lt_div_iff₀ two_pos hd, one_mul, mul_comm]
    exact_mod_cast Iff.rfl
  have hq : (0 : ℚ) ≤ q := Nat.cast_nonneg q
  cases r with
  | down =>
    simp only [apply, raises, Bool.false_eq_true, if_false, add_zero]
    rw [Nat.floor_eq_iff (by linarith)]
    exact ⟨by linarith, by linarith⟩
  | up =>
    simp only [apply, raises, decide_eq_true_eq, ← hzero]
    by_cases h : 0 < f
    · rw [if_pos h, Nat.ceil_eq_iff (by omega)]
      push_cast [Nat.add_sub_cancel]
      exact ⟨by linarith, by linarith⟩
    · have : f = 0 := le_antisymm (not_lt.mp h) hf0
      simp [this]
  | nearestPrefUp =>
    have hraise : d / 2 + d % 2 ≤ s ↔ d ≤ 2 * s := by omega
    simp only [apply, raises, decide_eq_true_eq, hraise, ← hhalf]
    by_cases h : 1 / 2 ≤ f
    · rw [if_pos h, Nat.floor_eq_iff (by linarith)]
      push_cast
      exact ⟨by linarith, by linarith⟩
    · rw [if_neg h, Nat.floor_eq_iff (by linarith)]
      push_cast
      exact ⟨by linarith, by linarith⟩
  | nearestPrefDown =>
    have hraise : d / 2 < s ↔ d < 2 * s := by omega
    simp only [apply, raises, decide_eq_true_eq, hraise, ← hover]
    by_cases h : 1 / 2 < f
    · rw [if_pos h, Nat.ceil_eq_iff (by omega)]
      push_cast [Nat.add_sub_cancel]
      exact ⟨by linarith, by linarith⟩
    · rw [if_neg h]
      apply le_antisymm
      · rw [Nat.ceil_le]
        push_cast
        linarith
      · by_contra hlt
        have hle : ⌈(q : ℚ) + f - 1 / 2⌉₊ ≤ q - 1 := by omega
        have hpos : 0 < q := by omega
        rw [Nat.ceil_le, Nat.cast_sub hpos] at hle
        push_cast at hle
        linarith

theorem apply_div (n d : Nat) (hd : 0 < d) :
    r.apply ((n : ℚ) / d) = n / d + (if r.raises (n % d) d then 1 else 0) := by
  have hne : (d : ℚ) ≠ 0 := by exact_mod_cast hd.ne'
  have hsplit : (n : ℚ) / d = (n / d : ℕ) + ((n % d : ℕ) : ℚ) / d := by
    rw [div_eq_iff hne, add_mul, div_mul_cancel₀ _ hne]
    exact_mod_cast (Nat.div_add_mod' n d).symm
  rw [hsplit, apply_add_frac r _ _ _ (Nat.mod_lt n hd)]

theorem apply_natCast (n : Nat) : r.apply n = n := by
  have h := apply_add_frac r n 0 1 one_pos
  simpa [raises_zero r one_pos] using h

theorem apply_mono {x y : ℚ} (h : x ≤ y) : r.apply x ≤ r.apply y := by
  cases r with
  | up => exact Nat.ceil_mono h
  | down => exact Nat.floor_mono h
  | nearestPrefUp => exact Nat.floor_mono (by linarith)
  | nearestPrefDown => exact Nat.ceil_mono (by linarith)

end Rounding

/-! ## The per-thing and its multiplications -/

structure PerThing where
  inner : Nat
  upper : Nat
  accuracy : Nat
  accuracy_pos : 0 < accuracy
  accuracy_le : accuracy ≤ maxValue inner
  upper_wide : 2 * inner ≤ upper

variable (P : PerThing)

/-- `x % denom` multiplied by `numer / denom`, to be added to `x / denom * numer`. -/
def rationalMulCorrection (x numer denom : Nat) (rounding : Rounding) : Option Nat := do
  let (_, rem) ← checkedDivMod x denom
  let remInner := saturate P.inner rem
  let remMulUpper ← checkedMul P.upper remInner numer
  let (quotient, remainder) ← checkedDivMod remMulUpper denom
  let remMulDivInner := saturate P.inner quotient
  if rounding.raises remainder denom then checkedAdd P.inner remMulDivInner 1
  else some remMulDivInner

/-- Accurately multiply a value of the `bits`-wide type `N` by a part, without overflowing. -/
def overflowPruneMul (bits x part : Nat) (rounding : Rounding) : Option Nat := do
  let c ← rationalMulCorrection P x part P.accuracy rounding
  let (quotient, _) ← checkedDivMod x P.accuracy
  let whole ← checkedMul bits quotient part
  checkedAdd bits whole c

/-- Compute `x / part`, saturating at the bounds of the `bits`-wide type `N`. -/
def saturatingReciprocalMul (bits x part : Nat) (rounding : Rounding) : Option Nat := do
  let c ← rationalMulCorrection P x P.accuracy part rounding
  let (quotient, _) ← checkedDivMod x part
  some (saturate bits (saturate bits (quotient * P.accuracy) + c))

variable {P}

variable (rounding : Rounding)

theorem remainder_mul_div_raised_le {s denom : Nat} (numer : Nat) (hs : s < denom) :
    s * numer / denom + (if rounding.raises (s * numer % denom) denom then 1 else 0) ≤ numer := by
  by_cases hnumer : numer = 0
  · subst hnumer
    simp [Rounding.raises_zero rounding (Nat.zero_lt_of_lt hs)]
  · have hlt : s * numer / denom < numer := by
      apply Nat.div_lt_of_lt_mul
      exact Nat.mul_lt_mul_of_pos_right hs (Nat.pos_of_ne_zero hnumer)
    split_ifs <;> omega

theorem rationalMulCorrection_eq {x numer denom : Nat} (hnumer : numer ≤ maxValue P.inner)
    (hdenom : denom ≤ maxValue P.inner) (hpos : 0 < denom) :
    rationalMulCorrection P x numer denom rounding =
      some (x % denom * numer / denom +
        (if rounding.raises (x % denom * numer % denom) denom then 1 else 0)) := by
  have hrem : x % denom < denom := Nat.mod_lt x hpos
  have hfits : ∀ {a}, a ≤ numer → a < 2 ^ P.inner := fun ha =>
    lt_two_pow_iff_le_maxValue.mpr (ha.trans hnumer)
  have hremInner : x % denom < 2 ^ P.inner :=
    lt_two_pow_iff_le_maxValue.mpr (hrem.le.trans hdenom)
  have hmul : x % denom * numer < 2 ^ P.upper := by
    calc x % denom * numer < 2 ^ P.inner * 2 ^ P.inner :=
          Nat.mul_lt_mul'' hremInner (hfits le_rfl)
      _ = 2 ^ (2 * P.inner) := by rw [two_mul, pow_add]
      _ ≤ 2 ^ P.upper := Nat.pow_le_pow_right two_pos P.upper_wide
  have hbound := remainder_mul_div_raised_le rounding numer hrem
  have hquot : x % denom * numer / denom < 2 ^ P.inner := hfits (by omega)
  simp only [rationalMulCorrection, checkedDivMod_of_pos hpos, Option.bind_eq_bind,
    Option.bind_some, saturate_of_lt hremInner, checkedMul_of_lt hmul, saturate_of_lt hquot]
  split_ifs with hraise
  · rw [if_pos hraise] at hbound
    rw [checkedAdd_of_lt (hfits hbound)]
  · rfl

/-- Splitting off the whole part of `x / denom` commutes with the rounding. -/
theorem apply_mul_div_eq (x numer denom : Nat) (hpos : 0 < denom) :
    rounding.apply ((x : ℚ) * numer / denom) =
      x / denom * numer + (x % denom * numer / denom +
        (if rounding.raises (x % denom * numer % denom) denom then 1 else 0)) := by
  have hsplit : x * numer = denom * (x / denom * numer) + x % denom * numer := by
    calc x * numer = (denom * (x / denom) + x % denom) * numer := by rw [Nat.div_add_mod]
      _ = denom * (x / denom * numer) + x % denom * numer := by ring
  have hcast : (x : ℚ) * numer / denom = ((x * numer : ℕ) : ℚ) / denom := by push_cast; rfl
  rw [hcast, Rounding.apply_div rounding _ _ hpos, hsplit, Nat.mul_add_div hpos,
    Nat.mul_add_mod]
  omega

theorem apply_mul_div_le {x numer denom : Nat} (hpos : 0 < denom) (hle : numer ≤ denom) :
    rounding.apply ((x : ℚ) * numer / denom) ≤ x := by
  have hdenom : (0 : ℚ) < denom := by exact_mod_cast hpos
  have hratio : (x : ℚ) * numer / denom ≤ x := by
    rw [div_le_iff₀ hdenom]
    exact_mod_cast Nat.mul_le_mul_left x hle
  calc rounding.apply ((x : ℚ) * numer / denom) ≤ rounding.apply x := rounding.apply_mono hratio
    _ = x := rounding.apply_natCast x

/-! ## Both multiplications are exact -/

theorem overflowPruneMul_eq {bits x part : Nat} (hpart : part ≤ P.accuracy) (hx : x < 2 ^ bits) :
    overflowPruneMul P bits x part rounding =
      some (rounding.apply ((x : ℚ) * part / P.accuracy)) := by
  have hexact := apply_mul_div_eq rounding x part P.accuracy P.accuracy_pos
  have hfits := (apply_mul_div_le rounding (x := x) P.accuracy_pos hpart).trans_lt hx
  rw [hexact] at hfits
  have hc := rationalMulCorrection_eq (x := x) rounding (hpart.trans P.accuracy_le)
    P.accuracy_le P.accuracy_pos
  have hwhole : x / P.accuracy * part < 2 ^ bits := (Nat.le_add_right _ _).trans_lt hfits
  simp only [overflowPruneMul, hc, Option.bind_eq_bind, Option.bind_some,
    checkedDivMod_of_pos P.accuracy_pos, checkedMul_of_lt hwhole]
  rw [checkedAdd_of_lt hfits, hexact]

theorem saturatingReciprocalMul_eq {bits x part : Nat} (hpart : part ≤ P.accuracy) (hpos : 0 < part) :
    saturatingReciprocalMul P bits x part rounding =
      some (min (maxValue bits) (rounding.apply ((x : ℚ) * P.accuracy / part))) := by
  have hexact := apply_mul_div_eq rounding x P.accuracy part hpos
  have hc := rationalMulCorrection_eq (x := x) rounding P.accuracy_le
    (hpart.trans P.accuracy_le) hpos
  simp only [saturatingReciprocalMul, hc, Option.bind_eq_bind, Option.bind_some,
    checkedDivMod_of_pos hpos, saturate_saturate_add]
  rw [← hexact, saturate, min_comm]

/-- Both multiplications of a number `x` of a `bits`-wide type: the product by a part of the
accuracy is exact up to the rounding, and so is the quotient, saturated at the type's bound. -/
theorem perThing_multiplications_exact (P : PerThing) (bits : Nat) (rounding : Rounding)
    (x part : Nat) (hx : x < 2 ^ bits) (hpart : part ≤ P.accuracy) :
    overflowPruneMul P bits x part rounding =
        some (rounding.apply ((x : ℚ) * part / P.accuracy)) ∧
      (0 < part →
        saturatingReciprocalMul P bits x part rounding =
          some (min (maxValue bits) (rounding.apply ((x : ℚ) * P.accuracy / part)))) :=
  ⟨overflowPruneMul_eq rounding hpart hx, saturatingReciprocalMul_eq rounding hpart⟩

/-- `Perbill`, whose accuracy is a billion parts in 32 bits. -/
def perbill : PerThing where
  inner := 32
  upper := 64
  accuracy := 1000000000
  accuracy_pos := by decide
  accuracy_le := by decide
  upper_wide := by decide

/-- A third of the greatest `u64`, and the greatest `u64` by a third, in parts per billion. -/
theorem perbill_multiplications_exact :
    overflowPruneMul perbill 64 (2 ^ 64 - 1) 333333333 .up =
        some (Rounding.up.apply (((2 ^ 64 - 1 : ℕ) : ℚ) * (333333333 : ℕ) / perbill.accuracy)) ∧
      saturatingReciprocalMul perbill 64 (2 ^ 64 - 1) 333333333 .up =
        some (min (maxValue 64)
          (Rounding.up.apply (((2 ^ 64 - 1 : ℕ) : ℚ) * perbill.accuracy / (333333333 : ℕ)))) :=
  have h := perThing_multiplications_exact perbill 64 .up (2 ^ 64 - 1) 333333333
    (by decide) (by decide)
  ⟨h.1, h.2 (by decide)⟩

end PolkadotSdk.Arithmetic
