import PolkadotSdk.Arithmetic.PerThings
import PolkadotSdk.Lib.Loop

/-! # 128-bit helpers

The square root and the scaled multiplication of `u128` numbers. A product of two of them is a
`Double128`, whose addition wraps; its division by a `u128` reduces the high half round by
round. An overflow of an operation that is not a wrapping one is the answer `none`.
-/

namespace PolkadotSdk.Arithmetic

abbrev U128 := BitVec 128

/-! ## The square root -/

structure SqrtState where
  n : Nat
  result : Nat
  bit : Nat
  deriving DecidableEq, Repr

def leadingZeros (width n : Nat) : Nat := if n = 0 then width else width - 1 - n.log2

def sqrtRound (s : SqrtState) : Option (Option SqrtState) :=
  if s.bit = 0 then some none
  else do
    let sum ← Word.checkedAdd 128 s.result s.bit
    if sum ≤ s.n then do
      let result ← Word.checkedAdd 128 (s.result / 2) s.bit
      some (some ⟨s.n - sum, result, s.bit / 4⟩)
    else some (some ⟨s.n, s.result / 2, s.bit / 4⟩)

/-- The largest power of four at most `n` has at most 64 digits in base four, so that 65 rounds
leave the loop. -/
def sqrt (n : U128) : Option Nat :=
  if n.toNat = 0 then some 0
  else
    let maxShift := leadingZeros 128 0 - 1
    -- `& !1` clears the lowest bit
    let shift := (maxShift - leadingZeros 128 n.toNat) / 2 * 2
    (Loop.run sqrtRound 65 ⟨n.toNat, 0, 2 ^ shift⟩).map SqrtState.result

/-- With `j` digits of the root still open the root found so far is `r`, and the loop keeps
`r * 2 ^ j`. -/
theorem sqrtRound_run (N : Nat) : ∀ (j r n fuel : Nat), n + r * r = N →
    N < (r + 2 ^ j) * (r + 2 ^ j) → r + 2 ^ j ≤ 2 ^ 64 → j < fuel →
    ∃ t, Loop.run sqrtRound fuel ⟨n, r * 2 ^ j, 4 ^ j / 4⟩ = some t ∧
      t.result * t.result ≤ N ∧ N < (t.result + 1) * (t.result + 1) := by
  intro j
  induction j with
  | zero =>
    intro r n fuel hn hlt _ hfuel
    obtain ⟨fuel, rfl⟩ : ∃ k, fuel = k + 1 := ⟨fuel - 1, by omega⟩
    refine ⟨_, Loop.run_of_stop fuel (by simp [sqrtRound]), ?_, ?_⟩
    · simp only [pow_zero, mul_one]
      omega
    · simpa using hlt
  | succ k ih =>
    intro r n fuel hn hlt hbound hfuel
    obtain ⟨fuel, rfl⟩ : ∃ k, fuel = k + 1 := ⟨fuel - 1, by omega⟩
    have hsq : 4 ^ k = 2 ^ k * 2 ^ k := by rw [← mul_pow]; norm_num
    have hbit : 4 ^ (k + 1) / 4 = 2 ^ k * 2 ^ k := by
      rw [pow_succ, Nat.mul_div_cancel _ (by omega), hsq]
    have hpow : 2 ^ (k + 1) = 2 * 2 ^ k := by rw [pow_succ, mul_comm]
    rw [hpow] at hlt hbound ⊢
    rw [hbit]
    rw [hsq] at ih
    have hppos : 0 < 2 ^ k := Nat.two_pow_pos k
    generalize 2 ^ k = p at *
    have hsum : (r + p) * (r + p) = r * r + (r * (2 * p) + p * p) := by ring
    have hfits : r * (2 * p) + p * p < 2 ^ 128 := by nlinarith
    have hhalf : r * (2 * p) / 2 = r * p := by
      rw [show r * (2 * p) = r * p * 2 by ring, Nat.mul_div_cancel _ two_pos]
    have hne : p * p ≠ 0 := (Nat.mul_pos hppos hppos).ne'
    -- the next digit of the root is set when `r + p` is still a root from below
    by_cases hge : r * (2 * p) + p * p ≤ n
    · have hround : sqrtRound ⟨n, r * (2 * p), p * p⟩ =
          some (some ⟨n - (r * (2 * p) + p * p), (r + p) * p, p * p / 4⟩) := by
        have hresult : r * p + p * p < 2 ^ 128 := by nlinarith
        simp only [sqrtRound, if_neg hne, Word.checkedAdd_of_lt hfits, hhalf,
          Option.bind_eq_bind, Option.bind_some, if_pos hge, Word.checkedAdd_of_lt hresult,
          add_mul]
      rw [Loop.run_of_round fuel hround]
      apply ih (r + p) _ fuel <;> first | omega | linarith
    · have hround : sqrtRound ⟨n, r * (2 * p), p * p⟩ =
          some (some ⟨n, r * p, p * p / 4⟩) := by
        simp only [sqrtRound, if_neg hne, Word.checkedAdd_of_lt hfits, hhalf,
          Option.bind_eq_bind, Option.bind_some, if_neg hge]
      rw [Loop.run_of_round fuel hround]
      apply ih r n fuel <;> omega

theorem sqrt_start {n : Nat} (hn : n ≠ 0) (hlt : n < 2 ^ 128) :
    ∃ k < 64, (leadingZeros 128 0 - 1 - leadingZeros 128 n) / 2 * 2 = 2 * k ∧
      n < 4 ^ (k + 1) := by
  have hlog : n.log2 < 128 := (Nat.log2_lt hn).mpr hlt
  refine ⟨n.log2 / 2, by omega, ?_, ?_⟩
  · simp only [leadingZeros, if_neg hn, if_true]
    omega
  · calc n < 2 ^ (n.log2 + 1) := Nat.lt_log2_self
      _ ≤ 2 ^ (2 * (n.log2 / 2 + 1)) := Nat.pow_le_pow_right two_pos (by omega)
      _ = 4 ^ (n.log2 / 2 + 1) := by rw [pow_mul]; norm_num

/-- The square root never overflows, and is the largest number whose square is at most `n`. -/
theorem sqrt_isGreatest (n : U128) :
    ∃ root, sqrt n = some root ∧ IsGreatest {r | r * r ≤ n.toNat} root := by
  by_cases hn : n.toNat = 0
  · refine ⟨0, by simp [sqrt, hn], by simp, ?_⟩
    intro r hr
    have hr : r * r ≤ n.toNat := hr
    rw [hn, Nat.le_zero, mul_self_eq_zero] at hr
    omega
  · obtain ⟨k, hk, hshift, hlt⟩ := sqrt_start hn n.isLt
    have hopen : n.toNat < (0 + 2 ^ (k + 1)) * (0 + 2 ^ (k + 1)) := by
      rwa [zero_add, ← mul_pow]
    have hbound : 0 + 2 ^ (k + 1) ≤ 2 ^ 64 := by
      rw [zero_add]
      exact Nat.pow_le_pow_right two_pos (by omega)
    obtain ⟨t, hrun, hle, hgt⟩ := sqrtRound_run n.toNat (k + 1) 0 n.toNat 65 rfl hopen hbound
      (by omega)
    have hbit : 4 ^ (k + 1) / 4 = 2 ^ (2 * k) := by
      rw [pow_succ, Nat.mul_div_cancel _ (by omega), pow_mul]
      norm_num
    rw [zero_mul, hbit] at hrun
    refine ⟨t.result, by simp only [sqrt, if_neg hn, hshift, hrun, Option.map_some], hle, ?_⟩
    intro r hr
    have hr : r * r ≤ n.toNat := hr
    by_contra hlarger
    have := Nat.mul_self_le_mul_self (show t.result + 1 ≤ r by omega)
    omega

/-! ## Numbers of 256 bits -/

theorem toNat_pos {a : U128} (h : a ≠ 0) : 0 < a.toNat := by
  have hne : a.toNat ≠ 0 := fun hz => h (BitVec.eq_of_toNat_eq hz)
  omega

theorem uaddOverflow_one_iff {a : U128} : a.uaddOverflow 1 = true ↔ 2 ^ 128 ≤ a.toNat + 1 := by
  simp [BitVec.uaddOverflow]

def mulU128 (a b : U128) : Option U128 :=
  if a.umulOverflow b then none else some (a * b)

def low64 (a : U128) : U128 := a &&& ((1 <<< 64) - 1)

def high64 (a : U128) : U128 := a >>> 64

/-- `2 ^ 128 - a`, in two's complement. -/
def neg128 (a : U128) : U128 := ~~~a + 1

/-- `2 ^ 128 / a`, wrapping; `none` is the division by zero. -/
def div128 (a : U128) : Option U128 := if a = 0 then none else some (neg128 a / a + 1)

def mod128 (a : U128) : Option U128 := if a = 0 then none else some (neg128 a % a)

structure Double128 where
  high : U128
  low : U128
  deriving DecidableEq, Repr

namespace Double128

def tryIntoU128 (d : Double128) : Option U128 := if d.high = 0 then some d.low else none

def zero : Double128 := ⟨0, 0⟩

def leftShift64 (scaledValue : U128) : Double128 := ⟨scaledValue >>> 64, scaledValue <<< 64⟩

def fromLow (low : U128) : Double128 := ⟨0, low⟩

def lowPart (d : Double128) : Double128 := ⟨0, d.low⟩

def add (d e : Double128) : Double128 :=
  let carry : U128 := if d.low.uaddOverflow e.low then 1 else 0
  ⟨d.high + e.high + carry, d.low + e.low⟩

def productOf (a b : U128) : Option Double128 := do
  let f ← mulU128 (low64 a) (low64 b)
  let o ← mulU128 (low64 a) (high64 b)
  let i ← mulU128 (high64 a) (low64 b)
  let l ← mulU128 (high64 a) (high64 b)
  some (((Double128.mk l f).add (leftShift64 i)).add (leftShift64 o))

/-- What the loop of `div` changes: the quotient so far and the number still to be divided. -/
structure DivState where
  x : Double128
  a : Double128

def divRound (q r : U128) (s : DivState) : Option (Option DivState) :=
  if s.a.high = 0 then some none
  else do
    let xq ← productOf s.a.high q
    let ar ← productOf s.a.high r
    some (some ⟨s.x.add xq, ar.add s.a.lowPart⟩)

def divFuel : Nat := 2 ^ 256

def div (d : Double128) (rhs : U128) : Option (Double128 × U128) :=
  if rhs = 1 then some (d, 0)
  else do
    let q ← div128 rhs
    let r ← mod128 rhs
    let s ← Loop.run (divRound q r) divFuel ⟨zero, d⟩
    some (s.x.add (fromLow (s.a.low / rhs)), s.a.low % rhs)

end Double128

/-- `a * b / c` rounded, or `none` where it does not fit. -/
def multiplyByRationalWithRounding (a b c : U128) (r : Rounding) : Option (Option U128) :=
  if c = 0 then some none
  else do
    let product ← Double128.productOf a b
    let (result, remainder) ← product.div c
    match result.tryIntoU128 with
    | none => some none
    | some result =>
      if r.raises remainder.toNat c.toNat then
        some (if result.uaddOverflow 1 then none else some (result + 1))
      else some (some result)

def fitted (x : Nat) : Option U128 := if x < 2 ^ 128 then some (BitVec.ofNat 128 x) else none

namespace Double128

def value (d : Double128) : Nat := d.high.toNat * 2 ^ 128 + d.low.toNat

theorem value_lt (d : Double128) : d.value < 2 ^ 256 := by
  have := d.high.isLt
  have := d.low.isLt
  unfold value
  omega

@[simp] theorem value_zero : zero.value = 0 := rfl

@[simp] theorem value_fromLow (low : U128) : (fromLow low).value = low.toNat := by
  simp [fromLow, value]

@[simp] theorem value_lowPart (d : Double128) : d.lowPart.value = d.low.toNat := by
  simp [lowPart, value]

theorem value_leftShift64 (v : U128) : (leftShift64 v).value = v.toNat * 2 ^ 64 := by
  have hv := v.isLt
  simp only [leftShift64, value, BitVec.toNat_ushiftRight, BitVec.toNat_shiftLeft,
    Nat.shiftRight_eq_div_pow, Nat.shiftLeft_eq]
  omega

theorem value_add {d e : Double128} (h : d.value + e.value < 2 ^ 256) :
    (d.add e).value = d.value + e.value := by
  have := d.low.isLt
  have := e.low.isLt
  simp only [value] at h ⊢
  simp only [add, BitVec.toNat_add, BitVec.uaddOverflow, ge_iff_le, decide_eq_true_eq]
  split_ifs with hcarry
  · rw [show (1 : U128).toNat = 1 from rfl]
    omega
  · rw [show (0 : U128).toNat = 0 from rfl]
    omega

theorem low64_toNat (a : U128) : (low64 a).toNat = a.toNat % 2 ^ 64 := by
  have hmask : ((1 <<< 64 - 1 : U128)).toNat = 2 ^ 64 - 1 := by decide
  rw [low64, BitVec.toNat_and, hmask, Nat.and_two_pow_sub_one_eq_mod]

theorem high64_toNat (a : U128) : (high64 a).toNat = a.toNat / 2 ^ 64 := by
  simp [high64, Nat.shiftRight_eq_div_pow]

theorem mulU128_of_lt {a b : U128} (ha : a.toNat < 2 ^ 64) (hb : b.toNat < 2 ^ 64) :
    ∃ c, mulU128 a b = some c ∧ c.toNat = a.toNat * b.toNat := by
  have hlt : a.toNat * b.toNat < 2 ^ 128 := by
    calc a.toNat * b.toNat < 2 ^ 64 * 2 ^ 64 := Nat.mul_lt_mul'' ha hb
      _ = 2 ^ 128 := by norm_num
  refine ⟨a * b, if_neg ?_, ?_⟩
  · simp only [BitVec.umulOverflow, ge_iff_le, decide_eq_true_eq]
    omega
  · rw [BitVec.toNat_mul, Nat.mod_eq_of_lt hlt]

theorem productOf_value (a b : U128) :
    ∃ d, productOf a b = some d ∧ d.value = a.toNat * b.toNat := by
  have ha := a.isLt
  have hb := b.isLt
  have hlow : ∀ c : U128, (low64 c).toNat < 2 ^ 64 := fun c => by rw [low64_toNat]; omega
  have hhigh : ∀ c : U128, (high64 c).toNat < 2 ^ 64 := fun c => by
    have := c.isLt
    rw [high64_toNat]
    omega
  obtain ⟨f, hf, hfv⟩ := mulU128_of_lt (hlow a) (hlow b)
  obtain ⟨o, ho, hov⟩ := mulU128_of_lt (hlow a) (hhigh b)
  obtain ⟨i, hi, hiv⟩ := mulU128_of_lt (hhigh a) (hlow b)
  obtain ⟨l, hl, hlv⟩ := mulU128_of_lt (hhigh a) (hhigh b)
  rw [low64_toNat, low64_toNat] at hfv
  rw [low64_toNat, high64_toNat] at hov
  rw [high64_toNat, low64_toNat] at hiv
  rw [high64_toNat, high64_toNat] at hlv
  have hexact : a.toNat * b.toNat =
      l.toNat * 2 ^ 128 + f.toNat + i.toNat * 2 ^ 64 + o.toNat * 2 ^ 64 := by
    conv_lhs => rw [← Nat.div_add_mod a.toNat (2 ^ 64), ← Nat.div_add_mod b.toNat (2 ^ 64)]
    rw [hfv, hov, hiv, hlv]
    ring
  have hfits : a.toNat * b.toNat < 2 ^ 256 := by
    calc a.toNat * b.toNat < 2 ^ 128 * 2 ^ 128 := Nat.mul_lt_mul'' ha hb
      _ = 2 ^ 256 := by norm_num
  have hfl : (Double128.mk l f).value = l.toNat * 2 ^ 128 + f.toNat := rfl
  have hfli := value_add (d := ⟨l, f⟩) (e := leftShift64 i)
    (by rw [hfl, value_leftShift64]; omega)
  have hflio := value_add (d := (Double128.mk l f).add (leftShift64 i)) (e := leftShift64 o)
    (by rw [hfli, hfl, value_leftShift64, value_leftShift64]; omega)
  refine ⟨_, by simp only [productOf, hf, ho, hi, hl, Option.bind_eq_bind, Option.bind_some]; rfl,
    ?_⟩
  rw [hflio, hfli, hfl, value_leftShift64, value_leftShift64, hexact]

theorem div128_mod128 {rhs : U128} (h0 : rhs ≠ 0) (h1 : rhs ≠ 1) :
    ∃ q r, div128 rhs = some q ∧ mod128 rhs = some r ∧
      q.toNat * rhs.toNat + r.toNat = 2 ^ 128 ∧ r.toNat < rhs.toNat := by
  have hlt := rhs.isLt
  have hpos : 2 ≤ rhs.toNat := by
    have hne0 := toNat_pos h0
    have hne1 : rhs.toNat ≠ 1 := fun h => h1 (BitVec.eq_of_toNat_eq (by simpa using h))
    omega
  have hneg : (neg128 rhs).toNat = 2 ^ 128 - rhs.toNat := by
    simp only [neg128, BitVec.toNat_add, BitVec.toNat_not]
    rw [show (1 : U128).toNat = 1 from rfl]
    omega
  have hhalf : (2 ^ 128 - rhs.toNat) / rhs.toNat ≤ (2 ^ 128 - rhs.toNat) / 2 :=
    Nat.div_le_div_left hpos two_pos
  have hq : (neg128 rhs / rhs + 1).toNat = (2 ^ 128 - rhs.toNat) / rhs.toNat + 1 := by
    rw [BitVec.toNat_add, BitVec.toNat_udiv, hneg, show (1 : U128).toNat = 1 from rfl]
    exact Nat.mod_eq_of_lt (by omega)
  have hr : (neg128 rhs % rhs).toNat = (2 ^ 128 - rhs.toNat) % rhs.toNat := by
    rw [BitVec.toNat_umod, hneg]
  refine ⟨_, _, if_neg h0, if_neg h0, ?_, ?_⟩
  · have hdivision := Nat.div_add_mod' (2 ^ 128 - rhs.toNat) rhs.toNat
    rw [hq, hr, add_mul, one_mul]
    omega
  · rw [hr]
    exact Nat.mod_lt _ (by omega)

def DivInvariant (d : Double128) (rhs : U128) (s : DivState) : Prop :=
  s.x.value * rhs.toNat + s.a.value = d.value

theorem invariant_start (d : Double128) (rhs : U128) : DivInvariant d rhs ⟨zero, d⟩ := by
  unfold DivInvariant
  rw [value_zero, zero_mul, zero_add]

/-- The products of a round are defined, and its additions lose no carry. -/
structure RoundExact (q r : U128) (s : DivState) (xq ar : Double128) : Prop where
  xq_eq : productOf s.a.high q = some xq
  ar_eq : productOf s.a.high r = some ar
  value_x : (s.x.add xq).value = s.x.value + s.a.high.toNat * q.toNat
  value_a : (ar.add s.a.lowPart).value = s.a.high.toNat * r.toNat + s.a.low.toNat

section Division

variable {d : Double128} {rhs q r : U128} {s : DivState}

theorem roundExact_of_invariant (hrhs : 0 < rhs.toNat)
    (hq : q.toNat * rhs.toNat + r.toNat = 2 ^ 128) (h : DivInvariant d rhs s) :
    ∃ xq ar, RoundExact q r s xq ar := by
  obtain ⟨xq, hxq, hxqv⟩ := productOf_value s.a.high q
  obtain ⟨ar, har, harv⟩ := productOf_value s.a.high r
  have hsplit : s.a.high.toNat * q.toNat * rhs.toNat + s.a.high.toNat * r.toNat =
      s.a.high.toNat * 2 ^ 128 := by rw [← hq]; ring
  have ha : s.a.value = s.a.high.toNat * 2 ^ 128 + s.a.low.toNat := rfl
  have hx : s.x.value + xq.value < 2 ^ 256 := by
    calc s.x.value + xq.value ≤ (s.x.value + xq.value) * rhs.toNat :=
          Nat.le_mul_of_pos_right _ hrhs
      _ ≤ d.value := by
          unfold DivInvariant at h
          rw [add_mul, hxqv]
          omega
      _ < 2 ^ 256 := d.value_lt
  have hr : ar.value + s.a.lowPart.value < 2 ^ 256 := by
    have hlt := s.a.value_lt
    rw [value_lowPart, harv]
    omega
  refine ⟨xq, ar, hxq, har, ?_, ?_⟩
  · rw [value_add hx, hxqv]
  · rw [value_add hr, harv, value_lowPart]

theorem divRound_spec (hrhs : 0 < rhs.toNat) (hr : r.toNat < rhs.toNat)
    (hq : q.toNat * rhs.toNat + r.toNat = 2 ^ 128) (h : DivInvariant d rhs s) :
    divRound q r s = some none ∨
      ∃ t, divRound q r s = some (some t) ∧ DivInvariant d rhs t ∧ t.a.value < s.a.value := by
  by_cases hhigh : s.a.high = 0
  · exact Or.inl (if_pos hhigh)
  · obtain ⟨xq, ar, hround⟩ := roundExact_of_invariant hrhs hq h
    have hpos := toNat_pos hhigh
    refine Or.inr ⟨⟨s.x.add xq, ar.add s.a.lowPart⟩, ?_, ?_, ?_⟩
    · simp only [divRound, if_neg hhigh, hround.xq_eq, hround.ar_eq, Option.bind_eq_bind,
        Option.bind_some]
    · unfold DivInvariant at h ⊢
      have ha : s.a.value = s.a.high.toNat * 2 ^ 128 + s.a.low.toNat := rfl
      rw [hround.value_x, hround.value_a, ← h, ha, ← hq]
      ring
    · have hlt : s.a.high.toNat * r.toNat < s.a.high.toNat * 2 ^ 128 :=
        Nat.mul_lt_mul_of_pos_left (hr.trans rhs.isLt) hpos
      rw [hround.value_a, value]
      omega

theorem value_lt_divFuel (d : Double128) : d.value < divFuel := by
  unfold divFuel
  exact d.value_lt

theorem divLoop_ends (hrhs : 0 < rhs.toNat) (hr : r.toNat < rhs.toNat)
    (hq : q.toNat * rhs.toNat + r.toNat = 2 ^ 128) (h : DivInvariant d rhs s) :
    ∃ t, Loop.run (divRound q r) divFuel s = some t ∧ DivInvariant d rhs t ∧
      divRound q r t = some none :=
  Loop.run_total (C := fun _ => True) (fun s => s.a.value)
    (fun _ hs _ => divRound_spec hrhs hr hq hs) h (fun _ _ => trivial) (value_lt_divFuel s.a)

theorem div_spec (d : Double128) (hrhs : rhs ≠ 0) :
    ∃ quotient remainder, d.div rhs = some (quotient, remainder) ∧
      quotient.value = d.value / rhs.toNat ∧ remainder.toNat = d.value % rhs.toNat := by
  by_cases h1 : rhs = 1
  · subst h1
    refine ⟨d, 0, by rw [div, if_pos rfl], ?_, ?_⟩
    · rw [show (1 : U128).toNat = 1 from rfl, Nat.div_one]
    · rw [show (1 : U128).toNat = 1 from rfl, Nat.mod_one, show (0 : U128).toNat = 0 from rfl]
  · obtain ⟨q, r, hdiv, hmod, hq, hr⟩ := div128_mod128 hrhs h1
    have hpos : 0 < rhs.toNat := Nat.zero_lt_of_lt hr
    obtain ⟨t, hrun, hinv, hstop⟩ := divLoop_ends hpos hr hq (invariant_start d rhs)
    have hhigh : t.a.high = 0 := by
      by_contra hne
      obtain ⟨xq, ar, hround⟩ := roundExact_of_invariant hpos hq hinv
      simp only [divRound, if_neg hne, hround.xq_eq, hround.ar_eq, Option.bind_eq_bind,
        Option.bind_some, Option.some.injEq, reduceCtorEq] at hstop
    have hlow : t.a.value = t.a.low.toNat := by
      rw [value, hhigh, show (0 : U128).toNat = 0 from rfl, zero_mul, zero_add]
    have hexact : t.x.value * rhs.toNat + t.a.low.toNat = d.value := by rw [← hlow]; exact hinv
    have hquot : t.x.value + t.a.low.toNat / rhs.toNat = d.value / rhs.toNat := by
      rw [← hexact, Nat.mul_comm, Nat.mul_add_div hpos]
    have hfits : t.x.value + (fromLow (t.a.low / rhs)).value < 2 ^ 256 := by
      rw [value_fromLow, BitVec.toNat_udiv, hquot]
      exact (Nat.div_le_self _ _).trans_lt d.value_lt
    refine ⟨t.x.add (fromLow (t.a.low / rhs)), t.a.low % rhs, ?_, ?_, ?_⟩
    · simp only [div, if_neg h1, hdiv, hmod, hrun, Option.bind_eq_bind, Option.bind_some]
    · rw [value_add hfits, value_fromLow, BitVec.toNat_udiv, hquot]
    · rw [BitVec.toNat_umod, ← hexact, Nat.mul_comm, Nat.mul_add_mod]

theorem divLoop_terminates (q r : U128) (s : DivState) :
    ∃ t, Loop.run (divRound q r) divFuel s = some t := by
  have hround : ∀ s : DivState, True → True → divRound q r s = some none ∨
      ∃ t, divRound q r s = some (some t) ∧ True ∧ t.a.value < s.a.value := by
    intro s _ _
    by_cases hhigh : s.a.high = 0
    · exact Or.inl (if_pos hhigh)
    · obtain ⟨xq, hxq, -⟩ := productOf_value s.a.high q
      obtain ⟨ar, har, harv⟩ := productOf_value s.a.high r
      have hlt : s.a.high.toNat * r.toNat < s.a.high.toNat * 2 ^ 128 :=
        Nat.mul_lt_mul_of_pos_left r.isLt (toNat_pos hhigh)
      have ha : s.a.value = s.a.high.toNat * 2 ^ 128 + s.a.low.toNat := rfl
      have hfits : ar.value + s.a.lowPart.value < 2 ^ 256 := by
        have := s.a.value_lt
        rw [harv, value_lowPart]
        omega
      refine Or.inr ⟨⟨s.x.add xq, ar.add s.a.lowPart⟩, ?_, trivial, ?_⟩
      · simp only [divRound, if_neg hhigh, hxq, har, Option.bind_eq_bind, Option.bind_some]
      · rw [value_add hfits, harv, value_lowPart]
        omega
  obtain ⟨t, ht, -⟩ := Loop.run_total (fun s => s.a.value) hround (s := s) trivial
    (fun _ _ => trivial) (value_lt_divFuel s.a)
  exact ⟨t, ht⟩

theorem divLoop_roundExact (d : Double128) (h0 : rhs ≠ 0) (h1 : rhs ≠ 1)
    (hq : div128 rhs = some q) (hr : mod128 rhs = some r) :
    ∀ s ∈ Loop.heads (divRound q r) divFuel ⟨zero, d⟩, ∃ xq ar, RoundExact q r s xq ar := by
  obtain ⟨q, r, hdiv, hmod, hexact, hlt⟩ := div128_mod128 h0 h1
  obtain rfl := Option.some.inj (hq.symm.trans hdiv)
  obtain rfl := Option.some.inj (hr.symm.trans hmod)
  have hpos : 0 < rhs.toNat := toNat_pos h0
  have hstep : ∀ s t, DivInvariant d rhs s → divRound q r s = some (some t) →
      DivInvariant d rhs t := by
    intro s t hs ht
    rcases divRound_spec hpos hlt hexact hs with hstop | ⟨t', ht', hinv, -⟩
    · rw [hstop] at ht
      simp at ht
    · obtain rfl := Option.some.inj (Option.some.inj (ht.symm.trans ht'))
      exact hinv
  intro s hs
  have hinv := Loop.heads_invariant hstep (invariant_start d rhs) divFuel s hs
  exact roundExact_of_invariant hpos hexact hinv

end Division

end Double128

/-! ## The scaled multiplication -/

theorem fitted_eq_some {x : Nat} {v : U128} (h : v.toNat = x) : fitted x = some v := by
  subst h
  simp [fitted, v.isLt]

theorem fitted_eq_none {x : Nat} (h : 2 ^ 128 ≤ x) : fitted x = none := if_neg (by omega)

theorem multiplyByRationalWithRounding_eq (a b c : U128) (r : Rounding) (hc : c ≠ 0) :
    multiplyByRationalWithRounding a b c r =
      some (fitted (r.apply ((a.toNat : ℚ) * b.toNat / c.toNat))) := by
  obtain ⟨d, hd, hvalue⟩ := Double128.productOf_value a b
  obtain ⟨quotient, remainder, hdiv, hquot, hrem⟩ := d.div_spec hc
  have hexact : r.apply ((a.toNat : ℚ) * b.toNat / c.toNat) =
      quotient.value + (if r.raises remainder.toNat c.toNat then 1 else 0) := by
    rw [hquot, hrem, hvalue, ← Rounding.apply_div r _ _ (toNat_pos hc)]
    push_cast
    rfl
  have hdouble : quotient.value = quotient.high.toNat * 2 ^ 128 + quotient.low.toNat := rfl
  simp only [multiplyByRationalWithRounding, if_neg hc, hd, hdiv, Option.bind_eq_bind,
    Option.bind_some, hexact]
  by_cases hhigh : quotient.high = 0
  · have hlow : quotient.value = quotient.low.toNat := by
      rw [hdouble, hhigh, show (0 : U128).toNat = 0 from rfl, zero_mul, zero_add]
    simp only [Double128.tryIntoU128, if_pos hhigh, hlow]
    by_cases hraise : r.raises remainder.toNat c.toNat
    · simp only [hraise, if_true]
      by_cases hover : quotient.low.toNat + 1 < 2 ^ 128
      · have hadd : (quotient.low + 1).toNat = quotient.low.toNat + 1 := by
          rw [BitVec.toNat_add, show (1 : U128).toNat = 1 from rfl, Nat.mod_eq_of_lt hover]
        rw [if_neg (by rw [uaddOverflow_one_iff]; omega), fitted_eq_some hadd]
      · rw [if_pos (by rw [uaddOverflow_one_iff]; omega), fitted_eq_none (by omega)]
    · simp only [hraise, Bool.false_eq_true, if_false, add_zero, fitted_eq_some rfl]
  · have hpos := toNat_pos hhigh
    simp only [Double128.tryIntoU128, if_neg hhigh]
    rw [fitted_eq_none (by rw [hdouble]; omega)]

/-- Scaled multiplication is exact up to its rounding. The division under it ends for every
dividend, its loop for whatever it is run with, and no addition of a round, nor the last one,
loses a carry. -/
theorem scaledMultiplication_exact (a b c : U128) (r : Rounding) (hc : c ≠ 0) :
    multiplyByRationalWithRounding a b c r =
        some (fitted (r.apply ((a.toNat : ℚ) * b.toNat / c.toNat))) ∧
      (∀ d : Double128, ∃ quotient remainder, d.div c = some (quotient, remainder) ∧
        quotient.value = d.value / c.toNat ∧ remainder.toNat = d.value % c.toNat) ∧
      (∀ q r s, ∃ t, Loop.run (Double128.divRound q r) Double128.divFuel s = some t) ∧
      ∀ d q r, c ≠ 1 → div128 c = some q → mod128 c = some r →
        ∀ s ∈ Loop.heads (Double128.divRound q r) Double128.divFuel ⟨Double128.zero, d⟩,
          ∃ xq ar, Double128.RoundExact q r s xq ar :=
  ⟨multiplyByRationalWithRounding_eq a b c r hc, fun d => d.div_spec hc,
    Double128.divLoop_terminates,
    fun d _ _ h1 hq hr => Double128.divLoop_roundExact d hc h1 hq hr⟩

/-- Two thirds of the greatest `u128`, rounded up. -/
theorem scaledMultiplication_two_thirds :
    multiplyByRationalWithRounding (BitVec.allOnes 128) 2 3 .up =
      some (fitted (Rounding.up.apply
        (((BitVec.allOnes 128).toNat : ℚ) * (2 : U128).toNat / (3 : U128).toNat))) :=
  (scaledMultiplication_exact (BitVec.allOnes 128) 2 3 .up (by decide)).1

end PolkadotSdk.Arithmetic
