import PolkadotSdk.Lib.Word

/-! # Big integers

`BigUint` as limbs of 32 bits, kept here with the least significant one first, the order in
which `get` and `set` count them. A product of two limbs, with a limb and a carry added, is a
`Double` of 64 bits; where one overflows, or a limb index is out of range, the answer is `none`.
-/

namespace PolkadotSdk.Arithmetic

open PolkadotSdk.Word

abbrev Single := BitVec 32

structure BigUint where
  limbs : List Single
  deriving DecidableEq, Repr

namespace BigUint

/-! ## Construction -/

def withCapacity (size : Nat) : BigUint := ⟨List.replicate (max size 1) 0⟩

def len (u : BigUint) : Nat := u.limbs.length

/-- The digits from the first one that is not zero on, most significant first. -/
def significant (u : BigUint) : List Single := u.limbs.reverse.dropWhile (· = 0)

/-- Strip zeros from the most significant end; a zero keeps one limb. -/
def lstrip (u : BigUint) : BigUint :=
  if u.significant = [] then ⟨u.limbs.take 1⟩ else ⟨u.significant.reverse⟩

/-! ## Multiplication -/

/-- Add the multiple `u * vs` to the limbs from position `j` on; the carry `k` goes to the limb
above. -/
def mulRow (u : Single) : List Single → List Single → Single → Option (List Single)
  | [], _ :: ws, k => some (k :: ws)
  | v :: vs, w :: ws, k => do
    let t ← checkedMul 64 u.toNat v.toNat
    let t ← checkedAdd 64 t w.toNat
    let t ← checkedAdd 64 t k.toNat
    let rest ← mulRow u vs ws (BitVec.ofNat 32 (t / 2 ^ 32))
    some (BitVec.ofNat 32 t :: rest)
  | _, [], _ => none

def mulRowUnlessZero (u : Single) (vs ws : List Single) : Option (List Single) :=
  if u = 0 then some ws else mulRow u vs ws 0

def mulRows : List Single → List Single → List Single → Option (List Single)
  | [], _, ws => some ws
  | u :: us, vs, ws => do
    let ws ← mulRowUnlessZero u vs ws
    match ws with
    | [] => none
    | w :: ws => do
      let rest ← mulRows us vs ws
      some (w :: rest)

def mul (u v : BigUint) : Option BigUint :=
  (mulRows u.limbs v.limbs (withCapacity (v.len + u.len)).limbs).map BigUint.mk

/-! ## Comparison -/

def cmpSlices : List Single → List Single → Ordering
  | [], [] => .eq
  | [], _ :: _ => .lt
  | _ :: _, [] => .gt
  | a :: as, b :: bs => (compare a.toNat b.toNat).then (cmpSlices as bs)

def cmp (u v : BigUint) : Ordering :=
  (compare u.significant.length v.significant.length).then
    (cmpSlices u.significant v.significant)

def eq (u v : BigUint) : Bool := cmp u v = .eq

end BigUint

/-! ## The number of a list of limbs -/

def limbsValue (ds : List Single) : Nat := Nat.ofDigits (2 ^ 32) (ds.map BitVec.toNat)

@[simp] theorem limbsValue_nil : limbsValue [] = 0 := rfl

@[simp] theorem limbsValue_cons (d : Single) (ds : List Single) :
    limbsValue (d :: ds) = d.toNat + 2 ^ 32 * limbsValue ds := by
  simp [limbsValue, Nat.ofDigits_cons]

theorem limbsValue_append (ds es : List Single) :
    limbsValue (ds ++ es) = limbsValue ds + (2 ^ 32) ^ ds.length * limbsValue es := by
  simp [limbsValue, Nat.ofDigits_append]

theorem limbsValue_lt (ds : List Single) : limbsValue ds < (2 ^ 32) ^ ds.length := by
  have h := Nat.ofDigits_lt_base_pow_length (b := 2 ^ 32) (l := ds.map BitVec.toNat) (by decide)
    (by
      intro x hx
      obtain ⟨d, -, rfl⟩ := List.mem_map.mp hx
      exact d.isLt)
  simpa [limbsValue] using h

@[simp] theorem limbsValue_replicate (n : Nat) : limbsValue (List.replicate n 0) = 0 := by
  induction n with
  | zero => rfl
  | succ n ih =>
    rw [List.replicate_succ, limbsValue_cons, ih]
    rfl

theorem limbsValue_take (ds : List Single) (n : Nat) :
    limbsValue (ds.take n) = limbsValue ds % (2 ^ 32) ^ n := by
  induction ds generalizing n with
  | nil => simp
  | cons d ds ih =>
    cases n with
    | zero => simp [Nat.mod_one]
    | succ n =>
      have hd : d.toNat < 2 ^ 32 := d.isLt
      rw [List.take_succ_cons, limbsValue_cons, limbsValue_cons, ih, pow_succ' (2 ^ 32) n,
        Nat.mod_mul, Nat.add_mul_mod_self_left, Nat.mod_eq_of_lt hd,
        Nat.add_mul_div_left _ _ (by decide), Nat.div_eq_of_lt hd, zero_add]

theorem ofNat_add_div (t : Nat) : (BitVec.ofNat 32 t).toNat + 2 ^ 32 * (t / 2 ^ 32) = t := by
  rw [BitVec.toNat_ofNat]
  exact Nat.mod_add_div t (2 ^ 32)

namespace BigUint

def value (u : BigUint) : Nat := limbsValue u.limbs

/-! ## The operations are exact -/

theorem mulRow_spec (u : Single) (rest : List Single) : ∀ (vs lo : List Single) (k : Single),
    lo.length = vs.length →
    ∃ lo', mulRow u vs (lo ++ 0 :: rest) k = some (lo' ++ rest) ∧ lo'.length = vs.length + 1 ∧
      limbsValue lo' = limbsValue lo + u.toNat * limbsValue vs + k.toNat := by
  intro vs
  induction vs with
  | nil =>
    intro lo k hlo
    obtain rfl := List.length_eq_zero_iff.mp hlo
    exact ⟨[k], rfl, rfl, by simp⟩
  | cons v vs ih =>
    intro lo k hlo
    obtain ⟨w, lo, rfl⟩ := List.exists_cons_of_length_eq_add_one hlo
    have hu := u.isLt
    have hv := v.isLt
    have hw := w.isLt
    have hk := k.isLt
    have hmul : u.toNat * v.toNat ≤ (2 ^ 32 - 1) * (2 ^ 32 - 1) :=
      Nat.mul_le_mul (by omega) (by omega)
    obtain ⟨lo', hlo', hlen, hvalue⟩ := ih lo
      (BitVec.ofNat 32 ((u.toNat * v.toNat + w.toNat + k.toNat) / 2 ^ 32)) (by simpa using hlo)
    have h1 : u.toNat * v.toNat < 2 ^ 64 := by omega
    have h2 : u.toNat * v.toNat + w.toNat < 2 ^ 64 := by omega
    have h3 : u.toNat * v.toNat + w.toNat + k.toNat < 2 ^ 64 := by omega
    refine ⟨BitVec.ofNat 32 (u.toNat * v.toNat + w.toNat + k.toNat) :: lo', ?_, by simp [hlen],
      ?_⟩
    · simp only [List.cons_append, mulRow, checkedMul_of_lt h1, checkedAdd_of_lt h2,
        checkedAdd_of_lt h3, Option.bind_eq_bind, Option.bind_some, hlo']
    · have hsplit := ofNat_add_div (u.toNat * v.toNat + w.toNat + k.toNat)
      have hcarry : (BitVec.ofNat 32
          ((u.toNat * v.toNat + w.toNat + k.toNat) / 2 ^ 32)).toNat =
          (u.toNat * v.toNat + w.toNat + k.toNat) / 2 ^ 32 := by
        rw [BitVec.toNat_ofNat]
        exact Nat.mod_eq_of_lt (by omega)
      rw [limbsValue_cons, limbsValue_cons, limbsValue_cons, hvalue, hcarry]
      linarith

theorem mulRowUnlessZero_spec (u : Single) (rest : List Single) {vs lo : List Single}
    (hlo : lo.length = vs.length) :
    ∃ lo', mulRowUnlessZero u vs (lo ++ 0 :: rest) = some (lo' ++ rest) ∧
      lo'.length = vs.length + 1 ∧
      limbsValue lo' = limbsValue lo + u.toNat * limbsValue vs := by
  by_cases hu : u = 0
  · refine ⟨lo ++ [0], ?_, by simp [hlo], ?_⟩
    · rw [mulRowUnlessZero, if_pos hu, List.append_assoc, List.singleton_append]
    · rw [limbsValue_append, hu]
      simp
  · obtain ⟨lo', hlo', hlen, hvalue⟩ := mulRow_spec u rest vs lo 0 hlo
    exact ⟨lo', by rw [mulRowUnlessZero, if_neg hu, hlo'], hlen, by simpa using hvalue⟩

theorem mulRows_spec (vs : List Single) : ∀ us lo : List Single, lo.length = vs.length →
    ∃ ws, mulRows us vs (lo ++ List.replicate us.length 0) = some ws ∧
      ws.length = vs.length + us.length ∧
      limbsValue ws = limbsValue lo + limbsValue us * limbsValue vs := by
  intro us
  induction us with
  | nil =>
    intro lo hlo
    exact ⟨lo, by simp [mulRows], by simp [hlo], by simp⟩
  | cons u us ih =>
    intro lo hlo
    obtain ⟨lo', hlo', hlen, hvalue⟩ := mulRowUnlessZero_spec u (List.replicate us.length 0)
      hlo
    obtain ⟨w, lo', rfl⟩ := List.exists_cons_of_length_eq_add_one hlen
    obtain ⟨ws, hws, hwslen, hwsvalue⟩ := ih lo' (by simpa using hlen)
    refine ⟨w :: ws, ?_, by simp only [List.length_cons, hwslen]; omega, ?_⟩
    · simp only [mulRows, List.length_cons, List.replicate_succ, hlo', Option.bind_eq_bind,
        Option.bind_some, List.cons_append, hws]
    · rw [limbsValue_cons] at hvalue
      rw [limbsValue_cons, limbsValue_cons, hwsvalue]
      linarith

theorem mul_spec (u v : BigUint) (h : 0 < u.len) :
    ∃ w, u.mul v = some w ∧ w.len = v.len + u.len ∧ w.value = u.value * v.value := by
  obtain ⟨ws, hws, hlen, hvalue⟩ := mulRows_spec v.limbs u.limbs
    (List.replicate v.len 0) (List.length_replicate ..)
  refine ⟨⟨ws⟩, ?_, hlen, ?_⟩
  · have hcapacity : (withCapacity (v.len + u.len)).limbs =
        List.replicate v.len 0 ++ List.replicate u.limbs.length 0 := by
      rw [withCapacity, max_eq_left (by omega), List.replicate_append_replicate]
      rfl
    rw [mul, hcapacity, hws, Option.map_some]
  · rw [value, hvalue, limbsValue_replicate, zero_add]
    rfl

/-! ## The significant digits -/

def digitsValue (ds : List Single) : Nat := limbsValue ds.reverse

theorem digitsValue_cons (d : Single) (ds : List Single) :
    digitsValue (d :: ds) = digitsValue ds + (2 ^ 32) ^ ds.length * d.toNat := by
  simp [digitsValue, limbsValue_append]

theorem digitsValue_lt (ds : List Single) : digitsValue ds < (2 ^ 32) ^ ds.length := by
  simpa [digitsValue] using limbsValue_lt ds.reverse

theorem pow_le_digitsValue {d : Single} (hd : d ≠ 0) (ds : List Single) :
    (2 ^ 32) ^ ds.length ≤ digitsValue (d :: ds) := by
  have hpos : 1 ≤ d.toNat := by
    have hne : d.toNat ≠ 0 := fun h => hd (BitVec.eq_of_toNat_eq h)
    omega
  have := Nat.mul_le_mul_left ((2 ^ 32) ^ ds.length) hpos
  rw [digitsValue_cons]
  omega

theorem digitsValue_dropWhile (ds : List Single) :
    digitsValue (ds.dropWhile (· = 0)) = digitsValue ds := by
  induction ds with
  | nil => rfl
  | cons d ds ih =>
    by_cases hd : d = 0
    · rw [List.dropWhile_cons_of_pos (by simpa using hd), ih, digitsValue_cons, hd]
      simp
    · rw [List.dropWhile_cons_of_neg (by simpa using hd)]

theorem digitsValue_significant (u : BigUint) : digitsValue u.significant = u.value := by
  rw [significant, digitsValue_dropWhile, digitsValue, List.reverse_reverse]
  rfl

theorem head_significant_ne {u : BigUint} {d : Single} {ds : List Single}
    (h : u.significant = d :: ds) : d ≠ 0 := by
  have hhead := List.head?_dropWhile_not (fun d : Single => decide (d = 0)) u.limbs.reverse
  rw [significant] at h
  rw [h] at hhead
  simpa using hhead

theorem lstrip_value (u : BigUint) : u.lstrip.value = u.value := by
  have hvalue := digitsValue_significant u
  by_cases hnil : u.significant = []
  · rw [hnil] at hvalue
    have hzero : u.value = 0 := hvalue.symm
    rw [lstrip, if_pos hnil]
    change limbsValue (u.limbs.take 1) = u.value
    rw [limbsValue_take, show limbsValue u.limbs = 0 from hzero, hzero, Nat.zero_mod]
  · rw [lstrip, if_neg hnil]
    exact hvalue

theorem lstrip_len_pos {u : BigUint} (h : 0 < u.len) : 0 < u.lstrip.len := by
  by_cases hnil : u.significant = []
  · simp only [lstrip, if_pos hnil, len, List.length_take]
    exact lt_min one_pos h
  · simpa [lstrip, hnil, len] using List.length_pos_iff.mpr hnil

/-! ## The comparison is that of the numbers -/

theorem cmpSlices_eq : ∀ as bs : List Single, as.length = bs.length →
    cmpSlices as bs = compare (digitsValue as) (digitsValue bs) := by
  intro as
  induction as with
  | nil =>
    intro bs hlen
    obtain rfl := List.length_eq_zero_iff.mp hlen.symm
    rfl
  | cons a as ih =>
    intro bs hlen
    obtain ⟨b, bs, rfl⟩ := List.exists_cons_of_length_eq_add_one hlen.symm
    have hlen : as.length = bs.length := by simpa using hlen
    have has := digitsValue_lt as
    have hbs := digitsValue_lt bs
    rw [cmpSlices, ih bs hlen, digitsValue_cons, digitsValue_cons, hlen]
    rw [hlen] at has
    generalize (2 ^ 32) ^ bs.length = p at *
    rcases Nat.lt_trichotomy a.toNat b.toNat with h | h | h
    · have hp : p * (a.toNat + 1) ≤ p * b.toNat := Nat.mul_le_mul_left p h
      have hlt : digitsValue as + p * a.toNat < digitsValue bs + p * b.toNat := by linarith
      rw [compare_lt_iff_lt.mpr h, compare_lt_iff_lt.mpr hlt]
      rfl
    · rw [h, compare_eq_iff_eq.mpr rfl, Ordering.eq_then]
      rcases Nat.lt_trichotomy (digitsValue as) (digitsValue bs) with hv | hv | hv
      · rw [compare_lt_iff_lt.mpr hv, compare_lt_iff_lt.mpr (by omega)]
      · rw [hv, compare_eq_iff_eq.mpr rfl, compare_eq_iff_eq.mpr rfl]
      · rw [compare_gt_iff_gt.mpr hv, compare_gt_iff_gt.mpr (by omega)]
    · have hp : p * (b.toNat + 1) ≤ p * a.toNat := Nat.mul_le_mul_left p h
      have hgt : digitsValue bs + p * b.toNat < digitsValue as + p * a.toNat := by linarith
      rw [compare_gt_iff_gt.mpr h, compare_gt_iff_gt.mpr hgt]
      rfl

theorem value_lt_of_significant_length_lt {u v : BigUint}
    (h : u.significant.length < v.significant.length) : u.value < v.value := by
  match hsig : v.significant with
  | [] => simp [hsig] at h
  | d :: ds =>
    have hge := pow_le_digitsValue (head_significant_ne hsig) ds
    rw [← hsig, digitsValue_significant] at hge
    have hlt := digitsValue_lt u.significant
    rw [digitsValue_significant] at hlt
    have hle : (2 ^ 32) ^ u.significant.length ≤ (2 ^ 32) ^ ds.length := by
      apply Nat.pow_le_pow_right (by decide)
      simp only [hsig, List.length_cons] at h
      omega
    omega

theorem cmp_eq (u v : BigUint) : u.cmp v = compare u.value v.value := by
  unfold cmp
  rcases Nat.lt_trichotomy u.significant.length v.significant.length with h | h | h
  · rw [compare_lt_iff_lt.mpr h, compare_lt_iff_lt.mpr (value_lt_of_significant_length_lt h)]
    rfl
  · rw [h, compare_eq_iff_eq.mpr rfl, Ordering.eq_then, cmpSlices_eq _ _ h,
      digitsValue_significant, digitsValue_significant]
  · rw [compare_gt_iff_gt.mpr h, compare_gt_iff_gt.mpr (value_lt_of_significant_length_lt h)]
    rfl

end BigUint

end PolkadotSdk.Arithmetic
