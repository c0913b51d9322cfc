import PolkadotSdk.Arithmetic.BigUint
import PolkadotSdk.Arithmetic.Helpers128

/-! # Rational numbers of 128 bits

`Rational128`, its checked addition and subtraction over the least common denominator, and its
comparison through big integers.
-/

namespace PolkadotSdk.Arithmetic

/-! ## The greatest common divisor -/

theorem toNat_half (a : U128) : (a >>> 1).toNat = a.toNat / 2 := by
  simp [Nat.shiftRight_eq_div_pow]

theorem toNat_sub_half {a b : U128} (h : a.toNat ≤ b.toNat) :
    ((b - a) >>> 1).toNat = (b.toNat - a.toNat) / 2 := by
  rw [toNat_half, BitVec.toNat_sub_of_le h]

def gcd (a b : U128) : U128 :=
  if a = b then b
  else if a = 0 then b
  else if b = 0 then a
  else if a.toNat % 2 = 0 then
    if b.toNat % 2 = 0 then gcd (a >>> 1) (b >>> 1) <<< 1 else gcd (a >>> 1) b
  else if b.toNat % 2 = 0 then gcd (b >>> 1) a
  else if a.toNat ≤ b.toNat then gcd ((b - a) >>> 1) a
  else gcd ((a - b) >>> 1) b
termination_by a.toNat + b.toNat
decreasing_by
  all_goals
    have ha : 0 < a.toNat := toNat_pos ‹_›
    have hb : 0 < b.toNat := toNat_pos ‹_›
  · rw [toNat_half, toNat_half]
    omega
  · rw [toNat_half]
    omega
  · rw [toNat_half]
    omega
  · rw [toNat_sub_half ‹_›]
    omega
  · rw [toNat_sub_half (by omega)]
    omega

theorem gcd_half_of_odd {a b : Nat} (ha : a % 2 = 0) (hb : b % 2 ≠ 0) :
    Nat.gcd (a / 2) b = Nat.gcd a b := by
  have hodd : Nat.Coprime 2 b := (Nat.coprime_two_left).mpr (Nat.odd_iff.mpr (by omega))
  calc Nat.gcd (a / 2) b = Nat.gcd (2 * (a / 2)) b := (hodd.gcd_mul_left_cancel _).symm
    _ = Nat.gcd a b := by rw [Nat.mul_div_cancel' (Nat.dvd_of_mod_eq_zero ha)]

theorem gcd_sub_half_of_odd {a b : Nat} (ha : a % 2 ≠ 0) (hb : b % 2 ≠ 0) (h : a ≤ b) :
    Nat.gcd ((b - a) / 2) a = Nat.gcd a b := by
  rw [gcd_half_of_odd (by omega) ha, Nat.gcd_comm, Nat.gcd_sub_self_right h]

theorem gcd_toNat (a b : U128) : (gcd a b).toNat = Nat.gcd a.toNat b.toNat := by
  fun_induction gcd a b with
  | case1 a => simp
  | case2 b _ => simp
  | case3 a _ _ => simp
  | case4 a b _ ha0 hb0 ha hb ih =>
    have hlt := a.isLt
    have hle := Nat.gcd_le_left b.toNat (toNat_pos ha0)
    have hdouble : Nat.gcd (a.toNat / 2) (b.toNat / 2) * 2 = Nat.gcd a.toNat b.toNat := by
      rw [← Nat.gcd_mul_right, Nat.div_mul_cancel (Nat.dvd_of_mod_eq_zero ha),
        Nat.div_mul_cancel (Nat.dvd_of_mod_eq_zero hb)]
    rw [BitVec.toNat_shiftLeft, ih, toNat_half, toNat_half, Nat.shiftLeft_eq, pow_one, hdouble]
    exact Nat.mod_eq_of_lt (by omega)
  | case5 a b _ _ _ ha hb ih => rw [ih, toNat_half, gcd_half_of_odd ha hb]
  | case6 a b _ _ _ ha hb ih => rw [ih, toNat_half, gcd_half_of_odd hb ha, Nat.gcd_comm]
  | case7 a b _ _ _ ha hb hle ih => rw [ih, toNat_sub_half hle, gcd_sub_half_of_odd ha hb hle]
  | case8 a b _ _ _ ha hb hle ih =>
    rw [ih, toNat_sub_half (by omega), gcd_sub_half_of_odd hb ha (by omega), Nat.gcd_comm]

/-! ## Rationals -/

structure Rational128 where
  n : U128
  d : U128
  deriving DecidableEq, Repr

def toBigUint (x : U128) : BigUint :=
  BigUint.lstrip ⟨[x.truncate 32, (x >>> 32).truncate 32, (x >>> 64).truncate 32,
    (x >>> 96).truncate 32]⟩

namespace Rational128

def toDen (r : Rational128) (den : U128) : Option (Option Rational128) :=
  if den = r.d then some (some r)
  else (multiplyByRationalWithRounding r.n den r.d .nearestPrefDown).map
    (Option.map fun n => ⟨n, den⟩)

def lcm (r s : Rational128) : Option (Option U128) :=
  if r.d = s.d then some (some r.d)
  else multiplyByRationalWithRounding r.d s.d (gcd r.d s.d) .nearestPrefDown

def combine (op : U128 → U128 → Option U128) (message : String) (r s : Rational128) :
    Option (Except String Rational128) := do
  match ← r.lcm s with
  | none => some (.error "failed to scale to denominator")
  | some lcm =>
    match ← r.toDen lcm with
    | none => some (.error "failed to scale to denominator")
    | some selfScaled =>
      match ← s.toDen lcm with
      | none => some (.error "failed to scale to denominator")
      | some otherScaled =>
        match op selfScaled.n otherScaled.n with
        | none => some (.error message)
        | some n => some (.ok ⟨n, selfScaled.d⟩)

def checkedAdd : Rational128 → Rational128 → Option (Except String Rational128) :=
  combine (fun a b => if a.uaddOverflow b then none else some (a + b))
    "overflow while adding numerators"

def checkedSub : Rational128 → Rational128 → Option (Except String Rational128) :=
  combine (fun a b => if a.toNat < b.toNat then none else some (a - b))
    "overflow while subtracting numerators"

def cmp (r s : Rational128) : Option Ordering :=
  if r.d = s.d then some (compare r.n.toNat s.n.toNat)
  else if r.d = 0 then some .gt
  else if s.d = 0 then some .lt
  else do
    let selfN ← (toBigUint r.n).mul (toBigUint s.d)
    let otherN ← (toBigUint s.n).mul (toBigUint r.d)
    some (selfN.cmp otherN)

def eq (r s : Rational128) : Option Bool :=
  if r.d = s.d then some (r.n = s.n)
  else do
    let selfN ← (toBigUint r.n).mul (toBigUint s.d)
    let otherN ← (toBigUint s.n).mul (toBigUint r.d)
    some (selfN.eq otherN)

def toRat (r : Rational128) : ℚ := (r.n.toNat : ℚ) / r.d.toNat

/-! ## Scaling is exact -/

theorem apply_of_dvd (rounding : Rounding) {a b : Nat} (hb : 0 < b) (h : b ∣ a) :
    rounding.apply ((a : ℚ) / b) = a / b := by
  rw [rounding.apply_div a b hb, Nat.mod_eq_zero_of_dvd h, rounding.raises_zero hb]
  simp

theorem multiplyByRational_of_dvd {a b c : U128} (hc : c ≠ 0) (h : c.toNat ∣ a.toNat * b.toNat)
    (rounding : Rounding) :
    multiplyByRationalWithRounding a b c rounding =
      some (fitted (a.toNat * b.toNat / c.toNat)) := by
  have hexact := apply_of_dvd rounding (toNat_pos hc) h
  push_cast at hexact
  rw [multiplyByRationalWithRounding_eq a b c rounding hc, hexact]

theorem lcm_eq (r s : Rational128) (hr : r.d ≠ 0) :
    r.lcm s = some (fitted (Nat.lcm r.d.toNat s.d.toNat)) := by
  by_cases h : r.d = s.d
  · rw [lcm, if_pos h, ← h, Nat.lcm_self, fitted_eq_some rfl]
  · have hpos : 0 < Nat.gcd r.d.toNat s.d.toNat := Nat.gcd_pos_of_pos_left _ (toNat_pos hr)
    have hg : gcd r.d s.d ≠ 0 := by
      intro hzero
      rw [← gcd_toNat, hzero] at hpos
      exact absurd hpos (by decide)
    have hdvd : (gcd r.d s.d).toNat ∣ r.d.toNat * s.d.toNat := by
      rw [gcd_toNat]
      exact (Nat.gcd_dvd_left _ _).mul_right _
    rw [lcm, if_neg h, multiplyByRational_of_dvd hg hdvd, gcd_toNat]
    rfl

theorem toDen_eq {r : Rational128} {den : U128} (hr : r.d ≠ 0) (h : r.d.toNat ∣ den.toNat) :
    r.toDen den =
      some ((fitted (r.n.toNat * (den.toNat / r.d.toNat))).map fun n => ⟨n, den⟩) := by
  by_cases hden : den = r.d
  · subst hden
    rw [toDen, if_pos rfl, Nat.div_self (toNat_pos hr), mul_one, fitted_eq_some rfl]
    rfl
  · rw [toDen, if_neg hden, multiplyByRational_of_dvd hr (h.mul_left _), Nat.mul_div_assoc _ h]
    rfl

/-! ## Sums and differences -/

def commonDen (r s : Rational128) : Nat := Nat.lcm r.d.toNat s.d.toNat

def scaled (r s : Rational128) : Nat := r.n.toNat * (r.commonDen s / r.d.toNat)

/-- The least common denominator or a scaled numerator does not fit in a `u128`. -/
def Unscalable (r s : Rational128) : Prop :=
  2 ^ 128 ≤ r.commonDen s ∨ 2 ^ 128 ≤ r.scaled s ∨ 2 ^ 128 ≤ s.scaled r

theorem commonDen_comm (r s : Rational128) : r.commonDen s = s.commonDen r := Nat.lcm_comm ..

theorem exists_fitted {x : Nat} (h : x < 2 ^ 128) : ∃ v, fitted x = some v ∧ v.toNat = x :=
  ⟨_, if_pos h, by rw [BitVec.toNat_ofNat, Nat.mod_eq_of_lt h]⟩

section Combine

variable {r s : Rational128}

theorem den_ne_zero (hr : r.d ≠ 0) (hs : s.d ≠ 0) {den : U128}
    (hden : den.toNat = r.commonDen s) : den ≠ 0 := by
  intro hzero
  have hpos : 0 < r.commonDen s := Nat.lcm_pos (toNat_pos hr) (toNat_pos hs)
  rw [← hden, hzero] at hpos
  exact absurd hpos (by decide)

theorem toRat_eq_scaled (hr : r.d ≠ 0) (hs : s.d ≠ 0) :
    r.toRat = (r.scaled s : ℚ) / r.commonDen s := by
  have hd : (r.d.toNat : ℚ) ≠ 0 := by exact_mod_cast (toNat_pos hr).ne'
  have hden : (r.commonDen s : ℚ) ≠ 0 := by
    exact_mod_cast (Nat.lcm_pos (toNat_pos hr) (toNat_pos hs)).ne'
  have hdvd : r.d.toNat ∣ r.commonDen s := Nat.dvd_lcm_left _ _
  rw [toRat, scaled, Nat.cast_mul, Nat.cast_div hdvd hd]
  field_simp

theorem combine_eq (op : U128 → U128 → Option U128) (message : String) (hr : r.d ≠ 0)
    (hs : s.d ≠ 0) :
    (r.Unscalable s ∧
        combine op message r s = some (.error "failed to scale to denominator")) ∨
      ∃ a b den : U128, a.toNat = r.scaled s ∧ b.toNat = s.scaled r ∧
        den.toNat = r.commonDen s ∧
        combine op message r s =
          some (match op a b with
            | none => .error message
            | some n => .ok ⟨n, den⟩) := by
  by_cases hden : r.commonDen s < 2 ^ 128
  · obtain ⟨den, hlcm, hdenv⟩ := exists_fitted hden
    have hrden : r.toDen den = some ((fitted (r.scaled s)).map fun n => ⟨n, den⟩) := by
      rw [toDen_eq hr (by rw [hdenv]; exact Nat.dvd_lcm_left _ _), hdenv]
      rfl
    have hsden : s.toDen den = some ((fitted (s.scaled r)).map fun n => ⟨n, den⟩) := by
      rw [toDen_eq hs (by rw [hdenv]; exact Nat.dvd_lcm_right _ _), hdenv, commonDen_comm]
      rfl
    have hlcm' : r.lcm s = some (some den) := by rw [lcm_eq r s hr, ← hlcm]; rfl
    by_cases ha : r.scaled s < 2 ^ 128
    · obtain ⟨a, hfa, hav⟩ := exists_fitted ha
      by_cases hb : s.scaled r < 2 ^ 128
      · obtain ⟨b, hfb, hbv⟩ := exists_fitted hb
        refine Or.inr ⟨a, b, den, hav, hbv, hdenv, ?_⟩
        simp only [combine, hlcm', hrden, hsden, hfa, hfb, Option.bind_eq_bind, Option.bind_some,
          Option.map_some]
        cases op a b <;> rfl
      · refine Or.inl ⟨Or.inr (Or.inr (by omega)), ?_⟩
        simp only [combine, hlcm', hrden, hsden, hfa, fitted_eq_none (not_lt.mp hb),
          Option.bind_eq_bind, Option.bind_some, Option.map_some, Option.map_none]
    · refine Or.inl ⟨Or.inr (Or.inl (by omega)), ?_⟩
      simp only [combine, hlcm', hrden, fitted_eq_none (not_lt.mp ha),
        Option.bind_eq_bind, Option.bind_some, Option.map_none]
  · refine Or.inl ⟨Or.inl (by omega), ?_⟩
    have hlcm' : r.lcm s = some none := by
      rw [lcm_eq r s hr]
      exact congrArg some (fitted_eq_none (not_lt.mp hden))
    simp only [combine, hlcm', Option.bind_eq_bind, Option.bind_some]

def Answers (value : ℚ) (fails : Prop) : Except String Rational128 → Prop
  | .ok t => t.d ≠ 0 ∧ t.toRat = value
  | .error _ => fails

theorem checkedAdd_answers (hr : r.d ≠ 0) (hs : s.d ≠ 0) :
    ∃ answer, r.checkedAdd s = some answer ∧
      Answers (r.toRat + s.toRat)
        (r.Unscalable s ∨ 2 ^ 128 ≤ r.scaled s + s.scaled r) answer := by
  rcases combine_eq (fun a b => if a.uaddOverflow b then none else some (a + b))
    "overflow while adding numerators" hr hs with ⟨hbad, hans⟩ | ⟨a, b, den, ha, hb, hden, hans⟩
  · exact ⟨_, hans, Or.inl hbad⟩
  · refine ⟨_, hans, ?_⟩
    by_cases hover : a.uaddOverflow b
    · simp only [hover, if_true, Answers]
      simp only [BitVec.uaddOverflow, ge_iff_le, decide_eq_true_eq] at hover
      omega
    · have hn : (a + b).toNat = r.scaled s + s.scaled r := by
        simp only [BitVec.uaddOverflow, ge_iff_le, decide_eq_true_eq, not_le] at hover
        rw [BitVec.toNat_add, Nat.mod_eq_of_lt hover, ha, hb]
      simp only [hover, Bool.false_eq_true, if_false, Answers]
      refine ⟨den_ne_zero hr hs hden, ?_⟩
      rw [toRat_eq_scaled hr hs, toRat_eq_scaled hs hr, commonDen_comm s r, toRat]
      simp only [hn, hden]
      push_cast
      ring

theorem checkedSub_answers (hr : r.d ≠ 0) (hs : s.d ≠ 0) :
    ∃ answer, r.checkedSub s = some answer ∧
      Answers (r.toRat - s.toRat) (r.Unscalable s ∨ r.toRat - s.toRat < 0) answer := by
  rcases combine_eq (fun a b => if a.toNat < b.toNat then none else some (a - b))
    "overflow while subtracting numerators" hr hs with
    ⟨hbad, hans⟩ | ⟨a, b, den, ha, hb, hden, hans⟩
  · exact ⟨_, hans, Or.inl hbad⟩
  · refine ⟨_, hans, ?_⟩
    have hpos : (0 : ℚ) < r.commonDen s := by
      exact_mod_cast Nat.lcm_pos (toNat_pos hr) (toNat_pos hs)
    have hdiff : r.toRat - s.toRat = ((r.scaled s : ℚ) - s.scaled r) / r.commonDen s := by
      rw [toRat_eq_scaled hr hs, toRat_eq_scaled hs hr, commonDen_comm s r]
      ring
    by_cases hlt : a.toNat < b.toNat
    · simp only [hlt, if_true, Answers]
      right
      rw [hdiff]
      apply div_neg_of_neg_of_pos _ hpos
      rw [ha, hb] at hlt
      rw [sub_neg]
      exact_mod_cast hlt
    · have hle : s.scaled r ≤ r.scaled s := by omega
      have hn : (a - b).toNat = r.scaled s - s.scaled r := by
        rw [BitVec.toNat_sub_of_le (not_lt.mp hlt), ha, hb]
      simp only [hlt, if_false, Answers]
      refine ⟨den_ne_zero hr hs hden, ?_⟩
      rw [hdiff, toRat]
      simp only [hn, hden, Nat.cast_sub hle]

end Combine

/-! ## The order -/

theorem toBigUint_value (x : U128) : (toBigUint x).value = x.toNat := by
  have hx := x.isLt
  rw [toBigUint, BigUint.lstrip_value]
  simp only [BigUint.value, limbsValue_cons, limbsValue_nil, BitVec.truncate_eq_setWidth,
    BitVec.toNat_setWidth, BitVec.toNat_ushiftRight, Nat.shiftRight_eq_div_pow]
  omega

theorem exists_cross_mul (r s : Rational128) :
    ∃ w, (toBigUint r.n).mul (toBigUint s.d) = some w ∧ w.value = r.n.toNat * s.d.toNat := by
  obtain ⟨w, hw, -, hvalue⟩ := BigUint.mul_spec (toBigUint r.n) (toBigUint s.d)
    (BigUint.lstrip_len_pos (Nat.succ_pos 3))
  exact ⟨w, hw, by rw [hvalue, toBigUint_value, toBigUint_value]⟩

theorem compare_toRat {r s : Rational128} (hr : r.d ≠ 0) (hs : s.d ≠ 0) :
    compare r.toRat s.toRat = compare (r.n.toNat * s.d.toNat) (s.n.toNat * r.d.toNat) := by
  have hrd : (0 : ℚ) < r.d.toNat := by exact_mod_cast toNat_pos hr
  have hsd : (0 : ℚ) < s.d.toNat := by exact_mod_cast toNat_pos hs
  have hlt : ∀ {t u : Rational128}, (0 : ℚ) < t.d.toNat → (0 : ℚ) < u.d.toNat →
      t.n.toNat * u.d.toNat < u.n.toNat * t.d.toNat → t.toRat < u.toRat := by
    intro t u ht hu h
    rw [toRat, toRat, div_lt_div_iff₀ ht hu]
    exact_mod_cast h
  rcases Nat.lt_trichotomy (r.n.toNat * s.d.toNat) (s.n.toNat * r.d.toNat) with h | h | h
  · rw [compare_lt_iff_lt.mpr h, compare_lt_iff_lt.mpr (hlt hrd hsd h)]
  · have heq : r.toRat = s.toRat := by
      rw [toRat, toRat, div_eq_div_iff hrd.ne' hsd.ne']
      exact_mod_cast h
    rw [compare_eq_iff_eq.mpr h, compare_eq_iff_eq.mpr heq]
  · rw [compare_gt_iff_gt.mpr h, compare_gt_iff_gt.mpr (hlt hsd hrd h)]

theorem cmp_eq {r s : Rational128} (hr : r.d ≠ 0) (hs : s.d ≠ 0) :
    r.cmp s = some (compare r.toRat s.toRat) := by
  rw [compare_toRat hr hs]
  by_cases hd : r.d = s.d
  · have hpos := toNat_pos hs
    rw [cmp, if_pos hd, hd]
    rcases Nat.lt_trichotomy r.n.toNat s.n.toNat with h | h | h
    · rw [compare_lt_iff_lt.mpr h, compare_lt_iff_lt.mpr (Nat.mul_lt_mul_of_pos_right h hpos)]
    · rw [h, compare_eq_iff_eq.mpr rfl, compare_eq_iff_eq.mpr rfl]
    · rw [compare_gt_iff_gt.mpr h, compare_gt_iff_gt.mpr (Nat.mul_lt_mul_of_pos_right h hpos)]
  · obtain ⟨u, hu, huv⟩ := exists_cross_mul r s
    obtain ⟨v, hv, hvv⟩ := exists_cross_mul s r
    simp only [cmp, if_neg hd, if_neg hr, if_neg hs, hu, hv, Option.bind_eq_bind,
      Option.bind_some, BigUint.cmp_eq, huv, hvv]

theorem eq_eq {r s : Rational128} (hr : r.d ≠ 0) (hs : s.d ≠ 0) :
    r.eq s = some (decide (r.toRat = s.toRat)) := by
  have hiff := compare_eq_iff_eq (a := r.toRat) (b := s.toRat)
  rw [compare_toRat hr hs, compare_eq_iff_eq] at hiff
  by_cases hd : r.d = s.d
  · have hn : r.n = s.n ↔ r.toRat = s.toRat := by
      rw [← hiff, hd, Nat.mul_left_inj (toNat_pos hs).ne']
      exact ⟨fun h => by rw [h], BitVec.eq_of_toNat_eq⟩
    rw [eq, if_pos hd, decide_eq_decide.mpr hn]
  · obtain ⟨u, hu, huv⟩ := exists_cross_mul r s
    obtain ⟨v, hv, hvv⟩ := exists_cross_mul s r
    simp only [eq, if_neg hd, hu, hv, Option.bind_eq_bind, Option.bind_some, BigUint.eq,
      BigUint.cmp_eq, huv, hvv, compare_eq_iff_eq, hiff]

/-- Sums and differences are exact or do not fit, and the order and the equality are those of
the rational numbers. -/
theorem rational128_exact (r s : Rational128) (hr : r.d ≠ 0) (hs : s.d ≠ 0) :
    (∃ answer, r.checkedAdd s = some answer ∧
        Answers (r.toRat + s.toRat)
          (r.Unscalable s ∨ 2 ^ 128 ≤ r.scaled s + s.scaled r) answer) ∧
      (∃ answer, r.checkedSub s = some answer ∧
        Answers (r.toRat - s.toRat) (r.Unscalable s ∨ r.toRat - s.toRat < 0) answer) ∧
      r.cmp s = some (compare r.toRat s.toRat) ∧
      r.eq s = some (decide (r.toRat = s.toRat)) :=
  ⟨checkedAdd_answers hr hs, checkedSub_answers hr hs, cmp_eq hr hs, eq_eq hr hs⟩

/-- A half is more than a third. -/
theorem rational128_exact_half_third :
    (⟨1, 2⟩ : Rational128).cmp ⟨1, 3⟩ =
      some (compare (⟨1, 2⟩ : Rational128).toRat (⟨1, 3⟩ : Rational128).toRat) :=
  (rational128_exact ⟨1, 2⟩ ⟨1, 3⟩ (by decide) (by decide)).2.2.1

end Rational128

end PolkadotSdk.Arithmetic
