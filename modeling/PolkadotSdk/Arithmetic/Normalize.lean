import PolkadotSdk.Lib.Loop
import PolkadotSdk.Lib.Word

/-! # Normalizing a list to a sum

`normalize` moves the sum of a list of unsigned numbers to a target. The difference is spread
over the elements in the order of their size: first in equal parts, then one by one. Every
element keeps its index, and the result is put back into the order of the indices.
-/

namespace PolkadotSdk.Arithmetic.Normalize

open PolkadotSdk.Word

/-! ## The two ways to spread a difference -/

/-- The elements with their indices, the position to change next, and what is left over. -/
structure Spread where
  output : List (Nat × Nat)
  index : Nat
  leftover : Nat
  deriving DecidableEq, Repr

def next (count index : Nat) : Nat := (index + 1) % count

def previous (count index : Nat) : Nat := if index = 0 then count - 1 else index - 1

def bump (bits count threshold amount : Nat) (s : Spread) : Option Spread := do
  let (i, t) ← s.output[s.index]?
  let t ← checkedAdd bits t amount
  some { s with
    output := s.output.set s.index (i, t)
    index := if threshold ≤ t then next count s.index else s.index }

def bumpLeftover (bits count threshold : Nat) (s : Spread) : Option (Option Spread) :=
  if s.leftover = 0 then some none
  else (bump bits count threshold 1 s).map fun t => some { t with leftover := s.leftover - 1 }

/-- What an element is short of the part it should lose is left over. -/
def addShortfall (bits part t leftover : Nat) : Option Nat :=
  if part ≤ t then some leftover else checkedAdd bits leftover (part - t)

def lower (bits count threshold part : Nat) (s : Spread) : Option Spread := do
  let (i, t) ← s.output[s.index]?
  let leftover ← addShortfall bits part t s.leftover
  some {
    output := s.output.set s.index (i, t - part)
    index := if t - part ≤ threshold then previous count s.index else s.index
    leftover := leftover }

def lowerLeftover (count threshold : Nat) (s : Spread) : Option (Option Spread) :=
  if s.leftover = 0 then some none
  else do
    let (i, t) ← s.output[s.index]?
    if t = 0 then some (some { s with index := previous count s.index })
    else some (some {
      output := s.output.set s.index (i, t - 1)
      index := if t - 1 ≤ threshold then previous count s.index else s.index
      leftover := s.leftover - 1 })

def inParts (part : Nat) (step : Spread → Option Spread) (count : Nat) (s : Spread) :
    Option Spread :=
  if part = 0 then some s else Loop.times step count s

def raiseAll (bits count threshold part : Nat) (s : Spread) : Option Spread := do
  let s ← inParts part (bump bits count threshold part) count s
  Loop.run (bumpLeftover bits count threshold) (s.leftover + 1) s

/-- A unit is taken after at most `count` elements were passed by. -/
def lowerAll (bits count threshold part : Nat) (s : Spread) : Option Spread := do
  let s ← inParts part (lower bits count threshold part) count s
  Loop.run (lowerLeftover count threshold) (s.leftover * (count + 1) + 1) s

/-! ## `normalize` -/

def sumOf (bits : Nat) (input : List Nat) : Option Nat :=
  input.foldlM (fun sum t => checkedAdd bits sum t) 0

def sortedWithIdx (input : List Nat) : List (Nat × Nat) :=
  (input.zipIdx.map Prod.swap).mergeSort (fun a b => a.2 ≤ b.2)

def spread (bits : Nat) (input : List Nat) (sum target : Nat) : Option Spread :=
  let count := input.length
  let diff := max target sum - min target sum
  let output := sortedWithIdx input
  if sum < target then
    raiseAll bits count (target / count) (diff / count) ⟨output, 0, diff % count⟩
  else do
    let first ← output.head?
    lowerAll bits count first.2 (diff / count) ⟨output, count - 1, diff % count⟩

/-- `none` is a panic. -/
def normalize (bits : Nat) (input : List Nat) (target : Nat) :
    Option (Except String (List Nat)) :=
  match sumOf bits input with
  | none => some (.error "sum of input cannot fit in `T`")
  | some sum =>
    if 2 ^ bits ≤ input.length then some (.error "length of `inputs` cannot fit in `T`")
    else if input.length = 0 then some (.ok [])
    else if max target sum - min target sum = 0 then some (.ok input)
    else
      (spread bits input sum target).map fun s =>
        .ok ((s.output.mergeSort (fun a b => a.1 ≤ b.1)).map Prod.snd)

/-! ## What the steps keep -/

def total (s : Spread) : Nat := (s.output.map Prod.snd).sum

structure Spreads (input : List Nat) (R : Nat → Nat → Prop) (s : Spread) : Prop where
  keys : (s.output.map Prod.fst).Perm (List.range input.length)
  index_lt : s.index < input.length
  related : ∀ p ∈ s.output, ∀ x, input[p.1]? = some x → R x p.2

variable {input : List Nat} {R : Nat → Nat → Prop} {s : Spread}
variable {bits count threshold part amount : Nat}

theorem sum_set_add {l : List Nat} {k t : Nat} (h : l[k]? = some t) (u : Nat) :
    (l.set k u).sum + t = l.sum + u := by
  induction l generalizing k with
  | nil => simp at h
  | cons a l ih =>
    cases k with
    | zero =>
      obtain rfl : a = t := by simpa using h
      simp only [List.set_cons_zero, List.sum_cons]
      omega
    | succ k =>
      have := ih (k := k) (by simpa using h)
      simp only [List.set_cons_succ, List.sum_cons]
      omega

theorem le_total {p : Nat × Nat} (h : p ∈ s.output) : p.2 ≤ total s :=
  List.le_sum_of_mem (List.mem_map_of_mem h)

theorem Spreads.exists_get (h : Spreads input R s) : ∃ i t, s.output[s.index]? = some (i, t) := by
  have hlen : s.output.length = input.length := by simpa using h.keys.length_eq
  exact ⟨_, _, List.getElem?_eq_getElem (by rw [hlen]; exact h.index_lt)⟩

theorem Spreads.set (h : Spreads input R s) {i t u index : Nat} (leftover : Nat)
    (hget : s.output[s.index]? = some (i, t)) (hR : ∀ x, R x t → R x u)
    (hindex : index < input.length) :
    Spreads input R ⟨s.output.set s.index (i, u), index, leftover⟩ ∧
      total ⟨s.output.set s.index (i, u), index, leftover⟩ + t = total s + u := by
  have hkeys : (s.output.set s.index (i, u)).map Prod.fst = s.output.map Prod.fst := by
    have hi : (s.output.map Prod.fst)[s.index]? = some i := by simp [hget]
    obtain ⟨hlt, rfl⟩ := List.getElem?_eq_some_iff.mp hi
    rw [List.map_set]
    exact List.set_getElem_self hlt
  refine ⟨⟨by rw [hkeys]; exact h.keys, hindex, ?_⟩, ?_⟩
  · intro p hp x hx
    rcases List.mem_or_eq_of_mem_set hp with hmem | rfl
    · exact h.related p hmem x hx
    · exact hR x (h.related (i, t) (List.mem_of_getElem? hget) x hx)
  · simp only [total, List.map_set]
    exact sum_set_add (by simp [hget]) u

variable {index : Nat}

theorem next_lt (h : index < count) : next count index < count :=
  Nat.mod_lt _ (by omega)

theorem previous_lt (h : index < count) : previous count index < count := by
  unfold previous
  split_ifs <;> omega

/-! ## Raising -/

theorem bump_spec (threshold : Nat) (h : Spreads input (· ≤ ·) s)
    (hfits : total s + amount < 2 ^ bits) :
    ∃ t, bump bits input.length threshold amount s = some t ∧ Spreads input (· ≤ ·) t ∧
      total t = total s + amount ∧ t.leftover = s.leftover := by
  obtain ⟨i, t, hget⟩ := h.exists_get
  have hle : t ≤ total s := le_total (List.mem_of_getElem? hget)
  have hadd : checkedAdd bits t amount = some (t + amount) := checkedAdd_of_lt (by omega)
  have hindex : (if threshold ≤ t + amount then next input.length s.index else s.index) <
      input.length := by
    split_ifs
    · exact next_lt h.index_lt
    · exact h.index_lt
  obtain ⟨hspreads, htotal⟩ := h.set (u := t + amount) s.leftover hget
    (fun x hx => hx.trans (Nat.le_add_right t amount)) hindex
  refine ⟨_, by simp only [bump, hget, hadd, Option.bind_eq_bind, Option.bind_some], hspreads, ?_,
    rfl⟩
  omega

theorem inParts_spec {step : Spread → Option Spread} {J : Nat → Spread → Prop}
    (hstep : ∀ n s, J (part * (n + 1)) s → ∃ t, step s = some t ∧ J (part * n) t) {n : Nat}
    (h : J (part * n) s) : ∃ t, inParts part step n s = some t ∧ J 0 t := by
  by_cases hpart : part = 0
  · subst hpart
    exact ⟨s, if_pos rfl, by simpa using h⟩
  · obtain ⟨t, ht, hend⟩ := Loop.times_total (J := fun n s => J (part * n) s) hstep n h
    exact ⟨t, by rw [inParts, if_neg hpart, ht], by simpa using hend⟩

structure Raising (input : List Nat) (target rest : Nat) (s : Spread) : Prop where
  spreads : Spreads input (· ≤ ·) s
  total_eq : total s + rest + s.leftover = target

variable {target : Nat}

theorem raiseAll_spec (threshold : Nat) (h : Raising input target (part * input.length) s)
    (hfits : target < 2 ^ bits) :
    ∃ t, raiseAll bits input.length threshold part s = some t ∧ Spreads input (· ≤ ·) t ∧
      total t = target := by
  have hpart : ∀ n s, Raising input target (part * (n + 1)) s →
      ∃ t, bump bits input.length threshold part s = some t ∧
        Raising input target (part * n) t := by
    intro n s hs
    have htarget := hs.total_eq
    rw [Nat.mul_succ] at htarget
    obtain ⟨t, ht, hspreads, htotal, hleft⟩ := bump_spec threshold hs.spreads
      (show total s + part < 2 ^ bits by omega)
    exact ⟨t, ht, hspreads, by rw [htotal, hleft]; omega⟩
  obtain ⟨mid, hmid, hrest⟩ := inParts_spec hpart h
  have hunit : ∀ s, Raising input target 0 s → True →
      bumpLeftover bits input.length threshold s = some none ∨
        ∃ t, bumpLeftover bits input.length threshold s = some (some t) ∧
          Raising input target 0 t ∧ t.leftover < s.leftover := by
    intro s hs _
    by_cases hzero : s.leftover = 0
    · exact Or.inl (if_pos hzero)
    · have htarget := hs.total_eq
      obtain ⟨t, ht, hspreads, htotal, -⟩ := bump_spec threshold hs.spreads
        (show total s + 1 < 2 ^ bits by omega)
      refine Or.inr ⟨{ t with leftover := s.leftover - 1 }, ?_, ⟨⟨hspreads.keys, hspreads.index_lt,
        hspreads.related⟩, ?_⟩, by simp only; omega⟩
      · rw [bumpLeftover, if_neg hzero, ht, Option.map_some]
      · change total t + 0 + (s.leftover - 1) = target
        omega
  obtain ⟨t, ht, hend, hstop⟩ := Loop.run_total Spread.leftover hunit hrest (fun _ _ => trivial)
    (Nat.lt_succ_self mid.leftover)
  have hzero : t.leftover = 0 := by
    by_contra hne
    obtain ⟨t', ht', -⟩ := bump_spec threshold hend.spreads
      (show total t + 1 < 2 ^ bits by have := hend.total_eq; omega)
    simp [bumpLeftover, hne, ht'] at hstop
  refine ⟨t, by rw [raiseAll, hmid, Option.bind_eq_bind, Option.bind_some, ht], hend.spreads, ?_⟩
  have := hend.total_eq
  omega

/-! ## Lowering -/

structure Lowering (input : List Nat) (target rest : Nat) (s : Spread) : Prop where
  spreads : Spreads input (· ≥ ·) s
  total_eq : total s = target + rest + s.leftover

theorem index_lower_lt (threshold t : Nat) (h : index < count) :
    (if t ≤ threshold then previous count index else index) < count := by
  split_ifs
  · exact previous_lt h
  · exact h

theorem addShortfall_spec (t : Nat) {leftover : Nat} (hfits : leftover + part < 2 ^ bits) :
    ∃ l, addShortfall bits part t leftover = some l ∧ l + t = leftover + part + (t - part) := by
  by_cases hle : part ≤ t
  · exact ⟨leftover, if_pos hle, by omega⟩
  · refine ⟨leftover + (part - t), ?_, by omega⟩
    rw [addShortfall, if_neg hle, checkedAdd_of_lt (by omega)]

theorem lower_spec {target n : Nat} (h : Lowering input target (part * (n + 1)) s)
    (hfits : total s < 2 ^ bits) :
    ∃ t, lower bits input.length threshold part s = some t ∧
      Lowering input target (part * n) t ∧ total t ≤ total s := by
  obtain ⟨i, t, hget⟩ := h.spreads.exists_get
  have htotal := h.total_eq
  rw [Nat.mul_succ] at htotal
  obtain ⟨leftover, hleft, hleftover⟩ := addShortfall_spec t
    (show s.leftover + part < 2 ^ bits by omega)
  obtain ⟨hspreads, hset⟩ := h.spreads.set (u := t - part) leftover hget
    (fun x hx => (Nat.sub_le t part).trans hx)
    (index_lower_lt threshold (t - part) h.spreads.index_lt)
  refine ⟨_, by simp only [lower, hget, hleft, Option.bind_eq_bind, Option.bind_some],
    ⟨hspreads, ?_⟩, ?_⟩
  · simp only
    omega
  · omega

def distance (count index p : Nat) : Nat :=
  if p ≤ index then index - p else index + count - p

theorem distance_previous {index p : Nat} (hindex : index < count) (hp : p < count)
    (hne : p ≠ index) : distance count index p = distance count (previous count index) p + 1 := by
  unfold distance previous
  split_ifs <;> omega

theorem distance_lt {index p : Nat} (hindex : index < count) (hp : p < count) :
    distance count index p < count := by
  unfold distance
  split_ifs <;> omega

theorem exists_nonzero (h : 0 < total s) : ∃ p i t : Nat, s.output[p]? = some (i, t) ∧ t ≠ 0 := by
  by_contra hall
  have hall : ∀ p i t : Nat, s.output[p]? = some (i, t) → t = 0 := by
    intro p i t hget
    by_contra hne
    exact hall ⟨p, i, t, hget, hne⟩
  have hzero : total s = 0 := by
    apply List.sum_eq_zero
    intro t ht
    obtain ⟨⟨i, t⟩, hmem, rfl⟩ := List.mem_map.mp ht
    obtain ⟨p, hp⟩ := List.mem_iff_getElem?.mp hmem
    exact hall p i t hp
  omega

theorem lowerLeftover_skip (threshold : Nat) (hlen : s.output.length = count) {p i t : Nat}
    (hget : s.output[p]? = some (i, t)) (ht : t ≠ 0) (hleft : s.leftover ≠ 0) :
    ∀ (d index : Nat), index < count → distance count index p = d →
    ∃ e ≤ d, ∃ found, found < count ∧ (∃ i t, s.output[found]? = some (i, t) ∧ t ≠ 0) ∧
      ∀ fuel, Loop.run (lowerLeftover count threshold) (fuel + e) { s with index := index } =
        Loop.run (lowerLeftover count threshold) fuel { s with index := found } := by
  have hp : p < count := by
    rw [← hlen]
    exact (List.getElem?_eq_some_iff.mp hget).choose
  intro d
  induction d with
  | zero =>
    intro index hindex hd
    have hpi : p = index := by
      unfold distance at hd
      split_ifs at hd <;> omega
    exact ⟨0, le_rfl, index, hindex, ⟨i, t, by rw [← hpi]; exact hget, ht⟩, fun _ => rfl⟩
  | succ d ih =>
    intro index hindex hd
    obtain ⟨⟨i', t'⟩, hi'⟩ : ∃ q, s.output[index]? = some q :=
      ⟨_, List.getElem?_eq_getElem (by omega)⟩
    by_cases hzero : t' = 0
    · subst hzero
      have hne : p ≠ index := by
        rintro rfl
        rw [hget] at hi'
        simp only [Option.some.injEq, Prod.mk.injEq] at hi'
        exact ht hi'.2
      have hprev := distance_previous hindex hp hne
      obtain ⟨e, he, found, hfound, hnonzero, hrun⟩ := ih (previous count index)
        (previous_lt hindex) (by omega)
      have hround : lowerLeftover count threshold { s with index := index } =
          some (some { s with index := previous count index }) := by
        simp only [lowerLeftover, if_neg hleft, hi', Option.bind_eq_bind, Option.bind_some,
          if_true]
      refine ⟨e + 1, by omega, found, hfound, hnonzero, ?_⟩
      intro fuel
      rw [← Nat.add_assoc, Loop.run_of_round (fuel + e) hround]
      exact hrun fuel
    · exact ⟨0, by omega, index, hindex, ⟨i', t', hi', hzero⟩, fun _ => rfl⟩

theorem lowerLeftover_run (threshold : Nat) : ∀ (n fuel : Nat)
    (s : Spread), s.leftover = n →
    Lowering input target 0 s → n * (input.length + 1) + 1 ≤ fuel →
    ∃ t, Loop.run (lowerLeftover input.length threshold) fuel s = some t ∧
      Spreads input (· ≥ ·) t ∧ total t = target := by
  intro n
  induction n with
  | zero =>
    intro fuel s hleft h hfuel
    obtain ⟨fuel, rfl⟩ := Nat.exists_eq_add_of_le' (Nat.one_le_of_lt hfuel)
    refine ⟨s, Loop.run_of_stop fuel (if_pos hleft), h.spreads, ?_⟩
    have := h.total_eq
    omega
  | succ n ih =>
    intro fuel s hleft h hfuel
    have htotal := h.total_eq
    have hleftover : s.leftover ≠ 0 := by omega
    have hlen : s.output.length = input.length := by simpa using h.spreads.keys.length_eq
    obtain ⟨p, i, t, hget, ht⟩ := exists_nonzero (s := s) (by omega)
    have hp : p < input.length := by
      rw [← hlen]
      exact (List.getElem?_eq_some_iff.mp hget).choose
    obtain ⟨e, he, found, hfound, ⟨i, t, hgetf, htf⟩, hrun⟩ :=
      lowerLeftover_skip threshold hlen hget ht hleftover _ s.index h.spreads.index_lt rfl
    have hdist := distance_lt h.spreads.index_lt hp
    obtain ⟨hspreads, hset⟩ := (show Spreads input (· ≥ ·) { s with index := found } from
        ⟨h.spreads.keys, hfound, h.spreads.related⟩).set (u := t - 1) (s.leftover - 1) hgetf
      (fun x hx => (Nat.sub_le t 1).trans hx) (index_lower_lt threshold (t - 1) hfound)
    rw [Nat.succ_mul] at hfuel
    obtain ⟨rest, rfl⟩ : ∃ rest, fuel = rest + 1 + e := ⟨fuel - 1 - e, by omega⟩
    have hround : lowerLeftover input.length threshold { s with index := found } =
        some (some ⟨s.output.set found (i, t - 1),
          if t - 1 ≤ threshold then previous input.length found else found,
          s.leftover - 1⟩) := by
      simp only [lowerLeftover, if_neg hleftover, hgetf, Option.bind_eq_bind, Option.bind_some,
        if_neg htf]
    have hrun' := hrun (rest + 1)
    rw [Loop.run_of_round rest hround] at hrun'
    rw [hrun']
    have hset : total ⟨s.output.set found (i, t - 1),
        if t - 1 ≤ threshold then previous input.length found else found, s.leftover - 1⟩ + t =
        total s + (t - 1) := hset
    exact ih rest _ (by simp only; omega) ⟨hspreads, by simp only; omega⟩ (by omega)

theorem lowerAll_spec (threshold : Nat) (h : Lowering input target (part * input.length) s)
    (hfits : total s < 2 ^ bits) :
    ∃ t, lowerAll bits input.length threshold part s = some t ∧ Spreads input (· ≥ ·) t ∧
      total t = target := by
  have hpart : ∀ n s, Lowering input target (part * (n + 1)) s ∧ total s < 2 ^ bits →
      ∃ t, lower bits input.length threshold part s = some t ∧
        Lowering input target (part * n) t ∧ total t < 2 ^ bits := by
    intro n s hs
    obtain ⟨t, ht, hlowering, hle⟩ := lower_spec hs.1 hs.2
    exact ⟨t, ht, hlowering, hle.trans_lt hs.2⟩
  obtain ⟨mid, hmid, hrest, -⟩ := inParts_spec
    (J := fun rest s => Lowering input target rest s ∧ total s < 2 ^ bits) hpart ⟨h, hfits⟩
  obtain ⟨t, ht, hend⟩ := lowerLeftover_run threshold _ _ mid rfl hrest le_rfl
  exact ⟨t, by rw [lowerAll, hmid, Option.bind_eq_bind, Option.bind_some, ht], hend⟩

/-! ## The elements before and after -/

theorem sumOf_eq (hsum : input.sum < 2 ^ bits) : sumOf bits input = some input.sum := by
  have hfold : ∀ (l : List Nat) (acc : Nat), acc + l.sum < 2 ^ bits →
      l.foldlM (fun sum t => checkedAdd bits sum t) acc = some (acc + l.sum) := by
    intro l
    induction l with
    | nil => intro acc _; simp
    | cons t l ih =>
      intro acc hacc
      rw [List.sum_cons, ← Nat.add_assoc] at hacc
      rw [List.foldlM_cons, checkedAdd_of_lt (by omega), Option.bind_eq_bind, Option.bind_some,
        ih (acc + t) hacc, List.sum_cons, Nat.add_assoc]
  rw [sumOf, hfold input 0 (by simpa using hsum), zero_add]

theorem sortedWithIdx_spreads (hR : ∀ x, R x x) (hindex : index < input.length) (leftover : Nat) :
    Spreads input R ⟨sortedWithIdx input, index, leftover⟩ ∧
      total ⟨sortedWithIdx input, index, leftover⟩ = input.sum := by
  have hperm : (sortedWithIdx input).Perm (input.zipIdx.map Prod.swap) :=
    List.mergeSort_perm _ _
  have hfst : (input.zipIdx.map Prod.swap).map Prod.fst = List.range input.length := by
    rw [List.map_map, show Prod.fst ∘ Prod.swap = (Prod.snd : Nat × Nat → Nat) from rfl,
      List.zipIdx_map_snd, List.range_eq_range']
  have hsnd : (input.zipIdx.map Prod.swap).map Prod.snd = input := by
    rw [List.map_map, show Prod.snd ∘ Prod.swap = (Prod.fst : Nat × Nat → Nat) from rfl,
      List.zipIdx_map_fst]
  refine ⟨⟨?_, hindex, ?_⟩, ?_⟩
  · rw [← hfst]
    exact hperm.map Prod.fst
  · intro p hp x hx
    obtain ⟨q, hq, rfl⟩ := List.mem_map.mp (hperm.mem_iff.mp hp)
    rw [List.mem_zipIdx_iff_getElem?] at hq
    have hx : input[q.2]? = some x := hx
    rw [hq, Option.some.injEq] at hx
    subst hx
    exact hR _
  · rw [total, (hperm.map Prod.snd).sum_eq, hsnd]

theorem forall₂_of_spreads (h : Spreads input R s) :
    List.Forall₂ R input ((s.output.mergeSort fun a b => a.1 ≤ b.1).map Prod.snd) ∧
      ((s.output.mergeSort fun a b => a.1 ≤ b.1).map Prod.snd).sum = total s := by
  have hperm := List.mergeSort_perm s.output fun a b : Nat × Nat => a.1 ≤ b.1
  have hsorted : (s.output.mergeSort fun a b => a.1 ≤ b.1).Pairwise
      fun a b => decide (a.1 ≤ b.1) = true :=
    List.pairwise_mergeSort (fun a b c => by simpa using Nat.le_trans)
      (fun a b => by simpa using Nat.le_total a.1 b.1) s.output
  generalize s.output.mergeSort (fun a b => a.1 ≤ b.1) = sorted at *
  have hkeys : sorted.map Prod.fst = List.range input.length := by
    apply List.Perm.eq_of_pairwise' (r := (· ≤ ·)) _ List.pairwise_le_range
      ((hperm.map Prod.fst).trans h.keys)
    rw [List.pairwise_map]
    exact hsorted.imp (by simp)
  have hlen : sorted.length = input.length := by simpa using congrArg List.length hkeys
  refine ⟨?_, (hperm.map Prod.snd).sum_eq⟩
  rw [List.forall₂_iff_get]
  refine ⟨by simp [hlen], ?_⟩
  intro i hi hi'
  have hfst : sorted[i].1 = i := by
    have hget : (sorted.map Prod.fst)[i]? = (List.range input.length)[i]? := by rw [hkeys]
    simpa [hlen, hi] using hget
  have hmem : sorted[i] ∈ s.output := hperm.mem_iff.mp (List.getElem_mem _)
  simpa using h.related _ hmem input[i] (by simp [hfst, hi])

theorem spread_of_lt (hcount : 0 < input.length) (hlt : input.sum < target)
    (htarget : target < 2 ^ bits) :
    ∃ s, spread bits input input.sum target = some s ∧ Spreads input (· ≤ ·) s ∧
      total s = target := by
  have hdiff : max target input.sum - min target input.sum = target - input.sum := by omega
  have hdivision := Nat.div_add_mod' (target - input.sum) input.length
  obtain ⟨hspreads, htotal⟩ := sortedWithIdx_spreads (R := (· ≤ ·)) (fun _ => le_rfl) hcount
    ((target - input.sum) % input.length)
  have hraising : Raising input target ((target - input.sum) / input.length * input.length)
      ⟨sortedWithIdx input, 0, (target - input.sum) % input.length⟩ := by
    refine ⟨hspreads, ?_⟩
    rw [htotal]
    simp only
    omega
  rw [spread, hdiff, if_pos hlt]
  exact raiseAll_spec _ hraising htarget

theorem spread_of_gt (hcount : 0 < input.length) (hgt : target < input.sum)
    (hsum : input.sum < 2 ^ bits) :
    ∃ s, spread bits input input.sum target = some s ∧ Spreads input (· ≥ ·) s ∧
      total s = target := by
  have hdiff : max target input.sum - min target input.sum = input.sum - target := by omega
  have hdivision := Nat.div_add_mod' (input.sum - target) input.length
  obtain ⟨hspreads, htotal⟩ := sortedWithIdx_spreads (R := (· ≥ ·)) (fun _ => le_rfl)
    (Nat.sub_lt hcount one_pos) ((input.sum - target) % input.length)
  have hlowering : Lowering input target ((input.sum - target) / input.length * input.length)
      ⟨sortedWithIdx input, input.length - 1, (input.sum - target) % input.length⟩ := by
    refine ⟨hspreads, ?_⟩
    rw [htotal]
    simp only
    omega
  have hlen : (sortedWithIdx input).length = input.length := by
    rw [sortedWithIdx, List.length_mergeSort, List.length_map, List.length_zipIdx]
  obtain ⟨first, hfirst⟩ : ∃ first, (sortedWithIdx input).head? = some first := by
    rw [← Option.isSome_iff_exists, List.isSome_head?, ← List.length_pos_iff]
    omega
  rw [spread, hdiff, if_neg (by omega), hfirst, Option.bind_eq_bind, Option.bind_some]
  exact lowerAll_spec _ hlowering (by rw [htotal]; exact hsum)

/-- The target is hit, by a list of the same length; no element is lowered where the sum was
too small, and none is raised where it was too large. -/
theorem normalize_hits_target (bits : Nat) (input : List Nat) (target : Nat)
    (hne : input ≠ []) (hlen : input.length < 2 ^ bits) (hsum : input.sum < 2 ^ bits)
    (htarget : target < 2 ^ bits) :
    ∃ v, normalize bits input target = some (.ok v) ∧ v.length = input.length ∧
      v.sum = target ∧ (input.sum < target → List.Forall₂ (· ≤ ·) input v) ∧
      (target < input.sum → List.Forall₂ (· ≥ ·) input v) := by
  have hcount : 0 < input.length := List.length_pos_iff.mpr hne
  have hnormalize : normalize bits input target =
      if max target input.sum - min target input.sum = 0 then some (.ok input)
      else (spread bits input input.sum target).map fun s =>
          .ok ((s.output.mergeSort (fun a b => a.1 ≤ b.1)).map Prod.snd) := by
    simp only [normalize, sumOf_eq hsum]
    rw [if_neg (by omega), if_neg (by omega)]
  rw [hnormalize]
  rcases Nat.lt_trichotomy input.sum target with hlt | heq | hgt
  · obtain ⟨s, hs, hspreads, htotal⟩ := spread_of_lt hcount hlt htarget
    obtain ⟨hforall, hv⟩ := forall₂_of_spreads hspreads
    refine ⟨_, by rw [if_neg (by omega), hs, Option.map_some], hforall.length_eq.symm,
      hv.trans htotal, fun _ => hforall, fun hgt => ?_⟩
    omega
  · refine ⟨input, if_pos (by omega), rfl, heq, fun hlt => ?_, fun hgt => ?_⟩ <;> omega
  · obtain ⟨s, hs, hspreads, htotal⟩ := spread_of_gt hcount hgt hsum
    obtain ⟨hforall, hv⟩ := forall₂_of_spreads hspreads
    refine ⟨_, by rw [if_neg (by omega), hs, Option.map_some], hforall.length_eq.symm,
      hv.trans htotal, fun hlt => ?_, fun _ => hforall⟩
    omega

/-- Three numbers of eight bits, lowered below what the smallest of them is. -/
theorem normalize_hits_target_lower :
    ∃ v, normalize 8 [10, 1, 200] 4 = some (.ok v) ∧ v.length = 3 ∧ v.sum = 4 ∧
      List.Forall₂ (· ≥ ·) [10, 1, 200] v := by
  obtain ⟨v, hv, hlen, hsum, -, hge⟩ := normalize_hits_target 8 [10, 1, 200] 4 (by decide)
    (by decide) (by decide) (by decide)
  exact ⟨v, hv, hlen, hsum, hge (by decide)⟩

end PolkadotSdk.Arithmetic.Normalize
