import Mathlib
import PolkadotSdk.Lib.Loop

/-! # The search for a common ancestor

The last block that is on the chain of a peer and on ours is searched for by asking the peer for
single blocks: first ever further below the tip, by a distance that doubles, and from the first
match on by a binary search. Block numbers are `bits` wide; sums, products and differences wrap.
-/

namespace PolkadotSdk.NetworkSync

variable {H : Type}

/-! ## The search -/

inductive AncestorSearchState where
  | exponentialBackoff (nextDistanceToTip : ℕ)
  | binarySearch (left right : ℕ)
  deriving DecidableEq, Repr

section

variable (bits : ℕ)

def wrapNumber (number : ℕ) : ℕ := number % 2 ^ bits

/-- The difference of two numbers, which wraps below zero. -/
def subNumber (a b : ℕ) : ℕ := wrapNumber bits (a + 2 ^ bits - b)

def middleOf (left right : ℕ) : ℕ := wrapNumber bits (left + subNumber bits right left / 2)

/-- The next state and block to ask for; `some none` ends the search, and `none` is a failed
assertion. -/
def handleAncestorSearchState (currBlockNum : ℕ) (blockHashMatch : Bool) :
    AncestorSearchState → Option (Option (AncestorSearchState × ℕ))
  | .exponentialBackoff nextDistanceToTip =>
    if blockHashMatch ∧ nextDistanceToTip = 1 then some none
    else if blockHashMatch then
      let left := currBlockNum
      let right := wrapNumber bits (left + nextDistanceToTip / 2)
      some (some (.binarySearch left right, middleOf bits left right))
    else
      -- `checked_sub`, with zero in the place of a negative number
      let nextBlockNum := currBlockNum - nextDistanceToTip
      some (some (.exponentialBackoff (wrapNumber bits (nextDistanceToTip * 2)), nextBlockNum))
  | .binarySearch left right =>
    if left ≥ currBlockNum then some none
    else
      let left := if blockHashMatch then currBlockNum else left
      let right := if blockHashMatch then right else currBlockNum
      if right ≥ left then
        let middle := middleOf bits left right
        if middle = currBlockNum then some none
        else some (some (.binarySearch left right, middle))
      else none

structure AncestorSearch where
  start : ℕ
  current : ℕ
  state : AncestorSearchState
  deriving DecidableEq, Repr

def AncestorSearch.commonNumber (search : AncestorSearch) (bestQueuedNumber peerBestNumber : ℕ)
    (matching : Bool) (commonNumber : ℕ) : ℕ :=
  if matching then
    if search.start < bestQueuedNumber ∧ bestQueuedNumber ≤ peerBestNumber then bestQueuedNumber
    else if commonNumber < search.current then search.current
    else commonNumber
  else commonNumber

inductive SearchOutcome where
  | genesisMismatch
  | next (search : AncestorSearch)
  | complete
  deriving DecidableEq, Repr

def AncestorSearch.onBlock (search : AncestorSearch) (matching : Bool) : Option SearchOutcome :=
  if ¬ matching ∧ search.current = 0 then some .genesisMismatch
  else
    match handleAncestorSearchState bits search.current matching search.state with
    | none => none
    | some none => some .complete
    | some (some (state, current)) => some (.next { search with state, current })

end

/-! ## Whole searches -/

structure ChainPair (H : Type) where
  ours : ℕ → H
  best : ℕ
  theirs : ℕ → H
  peerBest : ℕ

namespace ChainPair

def startNumber (chains : ChainPair H) : ℕ := min chains.best chains.peerBest

def Matches (chains : ChainPair H) (number : ℕ) : Prop :=
  number ≤ chains.best ∧ number ≤ chains.peerBest ∧ chains.ours number = chains.theirs number

instance [DecidableEq H] (chains : ChainPair H) (number : ℕ) :
    Decidable (chains.Matches number) :=
  inferInstanceAs (Decidable (_ ∧ _ ∧ _))

end ChainPair

structure SearchRun where
  search : AncestorSearch
  commonNumber : ℕ
  requested : List ℕ
  outcome : Option SearchOutcome

namespace SearchRun

def start (chains : ChainPair H) (commonNumber : ℕ) : SearchRun where
  search :=
    { start := chains.best, current := chains.startNumber, state := .exponentialBackoff 1 }
  commonNumber := commonNumber
  requested := [chains.startNumber]
  outcome := none

def round [DecidableEq H] (bits : ℕ) (chains : ChainPair H) (run : SearchRun) :
    Option (Option SearchRun) :=
  match run.outcome with
  | some _ => some none
  | none =>
    let matching := decide (chains.Matches run.search.current)
    let commonNumber :=
      run.search.commonNumber chains.best chains.peerBest matching run.commonNumber
    match run.search.onBlock bits matching with
    | none => none
    | some (.next search) =>
      some (some { search, commonNumber, requested := run.requested ++ [search.current],
                   outcome := none })
    | some outcome => some (some { run with commonNumber, outcome := some outcome })

end SearchRun

/-! ## One answer -/

variable {bits : ℕ}

theorem wrapNumber_of_lt {number : ℕ} (h : number < 2 ^ bits) : wrapNumber bits number = number :=
  Nat.mod_eq_of_lt h

theorem middleOf_eq {left right : ℕ} (hle : left ≤ right) (hlt : right < 2 ^ bits) :
    middleOf bits left right = left + (right - left) / 2 := by
  have hsub : subNumber bits right left = right - left := by
    rw [subNumber, wrapNumber, show right + 2 ^ bits - left = right - left + 2 ^ bits by omega,
      Nat.add_mod_right, Nat.mod_eq_of_lt (by omega)]
  rw [middleOf, hsub, wrapNumber_of_lt (by omega)]

/-- The last block that did not match is half the distance above the current one, or nearer. -/
structure Backoff (c tip distance current : ℕ) : Prop where
  current_eq : current = tip - (distance - 1)
  distance : distance = 1 ∨ ∃ half, distance = 2 * half ∧ 0 < half ∧ c + half ≤ tip

structure Halving (c tip left right current : ℕ) : Prop where
  left_le : left ≤ c
  lt_right : c < right
  right_le : right ≤ tip
  current_eq : current = left + (right - left) / 2

section

variable {c tip distance current left right : ℕ}

theorem Backoff.step_match (h : Backoff c tip distance current) (htip : tip < 2 ^ bits)
    (hmatch : current ≤ c) :
    (distance = 1 ∧ handleAncestorSearchState bits current true (.exponentialBackoff distance) =
      some none) ∨
    ∃ right next, handleAncestorSearchState bits current true (.exponentialBackoff distance) =
      some (some (.binarySearch current right, next)) ∧ Halving c tip current right next := by
  rcases h.distance with rfl | ⟨half, rfl, hpos, hlast⟩
  · exact Or.inl ⟨rfl, by simp [handleAncestorSearchState]⟩
  · have hcurrent := h.current_eq
    have hne : 2 * half ≠ 1 := by omega
    have hright : wrapNumber bits (current + 2 * half / 2) = current + half := by
      rw [Nat.mul_div_cancel_left half (by decide), wrapNumber_of_lt (by omega)]
    refine Or.inr ⟨current + half, _, ?_, ⟨hmatch, by omega, by omega, rfl⟩⟩
    simp only [handleAncestorSearchState, hne, and_false, if_false, if_true, hright]
    rw [middleOf_eq (by omega) (by omega)]

theorem Backoff.step_mismatch (h : Backoff c tip distance current)
    (hnear : tip - c < 2 ^ (bits - 1))
    (hbits : 0 < bits) (hmatch : c < current) :
    handleAncestorSearchState bits current false (.exponentialBackoff distance) =
        some (some (.exponentialBackoff (2 * distance), current - distance)) ∧
      Backoff c tip (2 * distance) (current - distance) ∧ current - distance < current := by
  have hcurrent := h.current_eq
  have hpos : 0 < distance := by
    rcases h.distance with rfl | ⟨half, rfl, hpos, -⟩ <;> omega
  have hwidth : 2 ^ bits = 2 * 2 ^ (bits - 1) := by
    rw [← Nat.pow_succ', Nat.succ_eq_add_one, Nat.sub_add_cancel hbits]
  refine ⟨?_, ⟨by omega, Or.inr ⟨distance, rfl, hpos, by omega⟩⟩, by omega⟩
  simp only [handleAncestorSearchState, Bool.false_eq_true, false_and, if_false]
  rw [wrapNumber_of_lt (by omega), Nat.mul_comm]

theorem Halving.step_match (h : Halving c tip left right current) (htip : tip < 2 ^ bits)
    (hmatch : current ≤ c) :
    (current = c ∧ handleAncestorSearchState bits current true (.binarySearch left right) =
      some none) ∨
    ∃ next, handleAncestorSearchState bits current true (.binarySearch left right) =
        some (some (.binarySearch current right, next)) ∧ Halving c tip current right next ∧
      right - current < right - left := by
  obtain ⟨hleft, hright, hbound, hcurrent⟩ := h
  simp only [handleAncestorSearchState, if_true]
  by_cases hstop : left ≥ current
  · exact Or.inl ⟨by omega, if_pos hstop⟩
  · rw [if_neg hstop, if_pos (by omega), middleOf_eq (by omega) (by omega)]
    by_cases hmiddle : current + (right - current) / 2 = current
    · exact Or.inl ⟨by omega, if_pos hmiddle⟩
    · exact Or.inr ⟨_, if_neg hmiddle, ⟨hmatch, hright, hbound, rfl⟩, by omega⟩

theorem Halving.step_mismatch (h : Halving c tip left right current) (htip : tip < 2 ^ bits)
    (hmatch : c < current) :
    ∃ next, handleAncestorSearchState bits current false (.binarySearch left right) =
        some (some (.binarySearch left current, next)) ∧ Halving c tip left current next ∧
      current - left < right - left := by
  obtain ⟨hleft, hright, hbound, hcurrent⟩ := h
  refine ⟨left + (current - left) / 2, ?_, ⟨hleft, hmatch, by omega, rfl⟩, by omega⟩
  simp only [handleAncestorSearchState, Bool.false_eq_true, if_false]
  rw [if_neg (by omega), if_pos (by omega), middleOf_eq (by omega) (by omega), if_neg (by omega)]

end

/-- What is known of a search, with the common number from before it and the one it has. -/
inductive Known (c tip before : ℕ) (requested : List ℕ) :
    AncestorSearchState → ℕ → ℕ → Prop
  | backoff {distance current : ℕ} (h : Backoff c tip distance current) :
      Known c tip before requested (.exponentialBackoff distance) current before
  | halving {left right current : ℕ} (h : Halving c tip left right current)
      (hleft : left ∈ requested) :
      Known c tip before requested (.binarySearch left right) current (max before left)

variable {state : AncestorSearchState}

variable {c tip before current common : ℕ}

theorem Known.current_le {requested : List ℕ}
    (h : Known c tip before requested state current common) : current ≤ tip := by
  cases h with
  | backoff h =>
    have := h.current_eq
    omega
  | halving h =>
    obtain ⟨hleft, hright, hbound, hcurrent⟩ := h
    omega

theorem Known.mono {requested requested' : List ℕ}
    (h : Known c tip before requested state current common)
    (hsub : ∀ number ∈ requested, number ∈ requested') :
    Known c tip before requested' state current common := by
  cases h with
  | backoff h => exact .backoff h
  | halving h hleft => exact .halving h (hsub _ hleft)

def AncestorSearchState.remaining (tip current : ℕ) : AncestorSearchState → ℕ
  | .exponentialBackoff _ => tip + 2 + current
  | .binarySearch left right => 1 + (right - left)

theorem AncestorSearchState.remaining_pos (tip current : ℕ) (state : AncestorSearchState) :
    0 < state.remaining tip current := by
  cases state <;> simp only [remaining] <;> omega

/-- A true answer ends the search at the last common block, or brings it nearer to its end. -/
theorem Known.step {requested : List ℕ} (h : Known c tip before requested state current common)
    (hcurrent : current ∈ requested) (htip : tip < 2 ^ bits) (hnear : tip - c < 2 ^ (bits - 1))
    (hbits : 0 < bits) :
    (handleAncestorSearchState bits current (decide (current ≤ c)) state = some none ∧
      current ≤ c ∧ current = min c tip ∧ max common current = max before current) ∨
    ∃ state' next, handleAncestorSearchState bits current (decide (current ≤ c)) state =
        some (some (state', next)) ∧
      Known c tip before requested state' next
        (if current ≤ c then max common current else common) ∧
      state'.remaining tip next < state.remaining tip current := by
  have hle := h.current_le
  by_cases hmatch : current ≤ c
  · rw [decide_eq_true hmatch, if_pos hmatch]
    cases h with
    | backoff h =>
      have htop := h.current_eq
      rcases h.step_match htip hmatch with ⟨rfl, hstep⟩ | ⟨right, next, hstep, hhalving⟩
      · exact Or.inl ⟨hstep, hmatch, by omega, rfl⟩
      · refine Or.inr ⟨_, next, hstep, .halving hhalving hcurrent, ?_⟩
        have := hhalving.right_le
        simp only [AncestorSearchState.remaining]
        omega
    | @halving left right _ h hleft =>
      have hmiddle := h.current_eq
      rw [max_assoc, max_eq_right (by omega : left ≤ current)]
      rcases h.step_match htip hmatch with ⟨heq, hstep⟩ | ⟨next, hstep, hhalving, hlt⟩
      · exact Or.inl ⟨hstep, hmatch, by omega, rfl⟩
      · refine Or.inr ⟨_, next, hstep, .halving hhalving hcurrent, ?_⟩
        simp only [AncestorSearchState.remaining]
        omega
  · rw [decide_eq_false hmatch, if_neg hmatch]
    refine Or.inr ?_
    cases h with
    | backoff h =>
      obtain ⟨hstep, hbackoff, hlt⟩ := h.step_mismatch hnear hbits (by omega)
      refine ⟨_, _, hstep, .backoff hbackoff, ?_⟩
      simp only [AncestorSearchState.remaining]
      omega
    | halving h hleft =>
      obtain ⟨next, hstep, hhalving, hlt⟩ := h.step_mismatch htip (by omega)
      refine ⟨_, next, hstep, .halving hhalving hleft, ?_⟩
      simp only [AncestorSearchState.remaining]
      omega

/-! ## A distance that wraps

Where the chains fork too far below the tip, the distance wraps to zero before a block matches.
-/

inductive Far (bits tip : ℕ) : AncestorSearchState → ℕ → Prop
  | backoff {k : ℕ} (hk : k < bits) :
      Far bits tip (.exponentialBackoff (2 ^ k)) (tip - (2 ^ k - 1))
  | wrapped : Far bits tip (.exponentialBackoff 0) 0
  | genesis : Far bits tip (.binarySearch 0 0) 0

section

variable (hfar : c + 2 ^ (bits - 1) ≤ tip) (h : Far bits tip state current)

include hfar h

theorem Far.current_spec : current ≤ tip ∧ (current = 0 ∨ c < current) := by
  cases h with
  | @backoff k hk =>
    have hpow : 2 ^ k ≤ 2 ^ (bits - 1) := Nat.pow_le_pow_right (by decide) (by omega)
    have hpos : 0 < 2 ^ k := Nat.two_pow_pos k
    exact ⟨by omega, Or.inr (by omega)⟩
  | wrapped => exact ⟨Nat.zero_le _, Or.inl rfl⟩
  | genesis => exact ⟨Nat.zero_le _, Or.inl rfl⟩

theorem Far.step (htip : tip < 2 ^ bits) :
    (handleAncestorSearchState bits current (decide (current ≤ c)) state = some none ∧
      current = 0) ∨
    ∃ state' next, handleAncestorSearchState bits current (decide (current ≤ c)) state =
        some (some (state', next)) ∧ Far bits tip state' next ∧
      state'.remaining tip next < state.remaining tip current := by
  have hcurrent := (h.current_spec hfar).2
  cases h with
  | @backoff k hk =>
    have hpow : 2 ^ k ≤ 2 ^ (bits - 1) := Nat.pow_le_pow_right (by decide) (by omega)
    have hpos : 0 < 2 ^ k := Nat.two_pow_pos k
    have hdouble : 2 ^ k * 2 = 2 ^ (k + 1) := (pow_succ 2 k).symm
    have hmatch : ¬ tip - (2 ^ k - 1) ≤ c := by omega
    refine Or.inr ⟨.exponentialBackoff (wrapNumber bits (2 ^ (k + 1))),
      tip - (2 ^ k - 1) - 2 ^ k, by simp [handleAncestorSearchState, hmatch, hdouble], ?_, ?_⟩
    · rcases Nat.lt_or_eq_of_le (Nat.succ_le_of_lt hk) with hlt | heq
      · have hnext : tip - (2 ^ k - 1) - 2 ^ k = tip - (2 ^ (k + 1) - 1) := by omega
        rw [wrapNumber_of_lt (Nat.pow_lt_pow_right (by decide) hlt), hnext]
        exact .backoff hlt
      · have hnext : tip - (2 ^ k - 1) - 2 ^ k = 0 := by
          rw [← heq, Nat.succ_eq_add_one] at htip
          omega
        rw [← heq, wrapNumber, Nat.mod_self, hnext]
        exact .wrapped
    · simp only [AncestorSearchState.remaining]
      omega
  | wrapped =>
    refine Or.inr ⟨.binarySearch 0 0, 0, ?_, .genesis, ?_⟩
    · simp [handleAncestorSearchState, middleOf, subNumber, wrapNumber]
    · simp only [AncestorSearchState.remaining]
      omega
  | genesis => exact Or.inl ⟨by simp [handleAncestorSearchState], rfl⟩

end

/-! ## The result -/

theorem AncestorSearch.commonNumber_eq {search : AncestorSearch} {best : ℕ}
    (h : search.start = best) (peerBest : ℕ) (matching : Bool) (commonNumber : ℕ) :
    search.commonNumber best peerBest matching commonNumber =
      if matching then max commonNumber search.current else commonNumber := by
  simp only [AncestorSearch.commonNumber, h, lt_irrefl, false_and, if_false]
  split <;> [skip; rfl]
  split <;> omega

namespace SearchRun

structure Sound (chains : ChainPair H) (c before : ℕ) (run : SearchRun) : Prop where
  started : run.search.start = chains.best
  requested : ∀ number ∈ run.requested, number ≤ chains.startNumber
  current_mem : run.search.current ∈ run.requested
  known : run.outcome = none → Known c chains.startNumber before run.requested run.search.state
    run.search.current run.commonNumber
  ended : ∀ outcome, run.outcome = some outcome → outcome = .complete ∧
    run.commonNumber = max before (min c chains.startNumber) ∧
    min c chains.startNumber ∈ run.requested

def remaining (chains : ChainPair H) (run : SearchRun) : ℕ :=
  match run.outcome with
  | some _ => 0
  | none => run.search.state.remaining chains.startNumber run.search.current

theorem start_sound (chains : ChainPair H) (c before : ℕ) :
    (start chains before).Sound chains c before :=
  ⟨rfl, by simp [start], by simp [start], fun _ => .backoff ⟨rfl, Or.inl rfl⟩, nofun⟩

/-- What a search that wraps leaves: it saw no block that matches, but genesis. -/
structure Missed (bits : ℕ) (chains : ChainPair H) (c before : ℕ) (run : SearchRun) : Prop where
  started : run.search.start = chains.best
  requested : ∀ number ∈ run.requested,
    number ≤ chains.startNumber ∧ (number = 0 ∨ c < number)
  current_mem : run.search.current ∈ run.requested
  common : run.commonNumber = before
  far : run.outcome = none → Far bits chains.startNumber run.search.state run.search.current
  ended : ∀ outcome, run.outcome = some outcome → outcome = .complete ∧ 0 ∈ run.requested

variable [DecidableEq H] {chains : ChainPair H} {run : SearchRun} {c before : ℕ}

section

variable (houtcome : run.outcome = none)
  (hagree : ∀ number ≤ chains.startNumber,
    (chains.ours number = chains.theirs number ↔ number ≤ c))
  (htip : chains.startNumber < 2 ^ bits)

include houtcome hagree

theorem round_eq (hstarted : run.search.start = chains.best)
    (hcurrent : run.search.current ≤ chains.startNumber) :
    run.round bits chains =
      (handleAncestorSearchState bits run.search.current (decide (run.search.current ≤ c))
        run.search.state).map fun next =>
          let commonNumber := if run.search.current ≤ c then
            max run.commonNumber run.search.current else run.commonNumber
          match next with
          | none => some { run with commonNumber, outcome := some .complete }
          | some (state, current) =>
            some { search := { run.search with state, current }, commonNumber,
                   requested := run.requested ++ [current], outcome := none } := by
  have hmatching : decide (chains.Matches run.search.current) =
      decide (run.search.current ≤ c) := by
    simp only [ChainPair.startNumber] at hcurrent hagree
    refine decide_eq_decide.mpr ⟨fun hm => (hagree _ hcurrent).mp hm.2.2, fun hle => ?_⟩
    exact ⟨by omega, by omega, (hagree _ hcurrent).mpr hle⟩
  -- a block that does not match is above the last common one, and so not genesis
  have hgenesis : ¬ (¬ decide (run.search.current ≤ c) = true ∧ run.search.current = 0) := by
    rintro ⟨hno, hzero⟩
    exact hno (by simp [hzero])
  have hcommon := AncestorSearch.commonNumber_eq hstarted chains.peerBest
    (decide (run.search.current ≤ c)) run.commonNumber
  simp only [decide_eq_true_eq] at hcommon
  simp only [SearchRun.round, houtcome, hmatching, AncestorSearch.onBlock, if_neg hgenesis, hcommon]
  rcases handleAncestorSearchState bits run.search.current (decide (run.search.current ≤ c))
    run.search.state with _ | _ | _ <;> rfl

include htip

/-- Every answer keeps what is known, and the search comes nearer to its end. -/
theorem Sound.advance (h : run.Sound chains c before)
    (hnear : chains.startNumber - c < 2 ^ (bits - 1)) (hbits : 0 < bits) :
    ∃ next, run.round bits chains = some (some next) ∧
      next.Sound chains c before ∧ next.remaining chains < run.remaining chains := by
  rw [round_eq houtcome hagree h.started (h.requested _ h.current_mem)]
  rcases (h.known houtcome).step h.current_mem htip hnear hbits with
    ⟨hstep, hmatch, heq, hmax⟩ | ⟨state, next, hstep, hknown, hlt⟩
  · rw [hstep]
    refine ⟨_, rfl, ⟨h.started, h.requested, h.current_mem, nofun, fun outcome hout => ?_⟩, ?_⟩
    · cases hout
      rw [if_pos hmatch]
      exact ⟨rfl, by rw [← heq]; exact hmax, heq ▸ h.current_mem⟩
    · simp only [remaining, houtcome]
      exact AncestorSearchState.remaining_pos _ _ _
  · rw [hstep]
    refine ⟨_, rfl, ⟨h.started, ?_, by simp, fun _ => ?_, nofun⟩, ?_⟩
    · intro number hnumber
      rcases List.mem_append.mp hnumber with hold | hnew
      · exact h.requested number hold
      · rw [List.mem_singleton.mp hnew]
        exact hknown.current_le
    · exact hknown.mono fun _ => List.mem_append_left _
    · simpa only [remaining, houtcome] using hlt

theorem Missed.advance (h : run.Missed bits chains c before)
    (hfar : c + 2 ^ (bits - 1) ≤ chains.startNumber) :
    ∃ next, run.round bits chains = some (some next) ∧
      next.Missed bits chains c before ∧ next.remaining chains < run.remaining chains := by
  have hcommon : (if run.search.current ≤ c then max run.commonNumber run.search.current
      else run.commonNumber) = before := by
    rw [h.common]
    rcases (h.requested _ h.current_mem).2 with hzero | hlt
    · simp [hzero]
    · exact if_neg (by omega)
  rw [round_eq houtcome hagree h.started (h.requested _ h.current_mem).1]
  rcases (h.far houtcome).step hfar htip with ⟨hstep, hzero⟩ | ⟨state, next, hstep, hnext, hlt⟩
  · rw [hstep]
    refine ⟨_, rfl, ⟨h.started, h.requested, h.current_mem, hcommon, nofun, fun outcome hout => ?_⟩,
      ?_⟩
    · cases hout
      exact ⟨rfl, hzero ▸ h.current_mem⟩
    · simp only [remaining, houtcome]
      exact AncestorSearchState.remaining_pos _ _ _
  · rw [hstep]
    refine ⟨_, rfl, ⟨h.started, ?_, by simp, hcommon, fun _ => hnext, nofun⟩, ?_⟩
    · intro number hnumber
      rcases List.mem_append.mp hnumber with hold | hnew
      · exact h.requested number hold
      · rw [List.mem_singleton.mp hnew]
        exact hnext.current_spec hfar
    · simpa only [remaining, houtcome] using hlt

end

omit [DecidableEq H] in
theorem start_missed (hfar : c + 2 ^ (bits - 1) ≤ chains.startNumber) (hbits : 0 < bits)
    (before : ℕ) : (start chains before).Missed bits chains c before := by
  have hpos : 0 < 2 ^ (bits - 1) := Nat.two_pow_pos _
  refine ⟨rfl, ?_, by simp [start], rfl, fun _ => .backoff (k := 0) hbits, nofun⟩
  simp only [start, List.mem_singleton, forall_eq]
  exact ⟨le_rfl, Or.inr (by omega)⟩

theorem run_ends {I : SearchRun → Prop}
    (hadvance : ∀ run, I run → run.outcome = none → ∃ next, run.round bits chains =
      some (some next) ∧ I next ∧ next.remaining chains < run.remaining chains)
    (hstart : I (start chains before)) {fuel : ℕ} (hfuel : 2 * chains.startNumber + 2 < fuel) :
    ∃ last outcome, Loop.run (SearchRun.round bits chains) fuel (start chains before) = some last ∧
      I last ∧ last.outcome = some outcome := by
  have hrounds : ∀ run : SearchRun, I run → True →
      run.round bits chains = some none ∨ ∃ next, run.round bits chains = some (some next) ∧
        I next ∧ next.remaining chains < run.remaining chains := by
    intro run hrun _
    cases houtcome : run.outcome with
    | some outcome => exact Or.inl (by simp [SearchRun.round, houtcome])
    | none => exact Or.inr (hadvance run hrun houtcome)
  obtain ⟨last, hrun, hlast, hstop⟩ := Loop.run_total (remaining chains) hrounds hstart
    (fun _ _ => trivial) (show remaining chains (start chains before) < fuel by
      simp only [remaining, start, AncestorSearchState.remaining]
      omega)
  cases houtcome : last.outcome with
  | none =>
    obtain ⟨next, hnext, -, -⟩ := hadvance last hlast houtcome
    rw [hstop] at hnext
    cases hnext
  | some outcome => exact ⟨last, outcome, hrun, hlast, houtcome⟩

/-- The search ends with the last common block as the common number, after requests for blocks
not above the start, exactly where that block is genesis or so near to the start that the distance
does not wrap. -/
theorem search_finds_common (chains : ChainPair H) (c before : ℕ)
    (hagree : ∀ number ≤ chains.startNumber,
      (chains.ours number = chains.theirs number ↔ number ≤ c))
    (htip : chains.startNumber < 2 ^ bits) (hbits : 0 < bits) (fuel : ℕ)
    (hfuel : 2 * chains.startNumber + 2 < fuel) :
    (∃ last, Loop.run (SearchRun.round bits chains) fuel (start chains before) = some last ∧
      last.outcome = some .complete ∧
      last.commonNumber = max before (min c chains.startNumber) ∧
      min c chains.startNumber ∈ last.requested ∧
      ∀ number ∈ last.requested, number ≤ chains.startNumber ∧
        (chains.Matches number → number ≤ min c chains.startNumber)) ↔
    chains.startNumber - c < 2 ^ (bits - 1) ∨ c = 0 := by
  have hmatches : ∀ number ≤ chains.startNumber, chains.Matches number →
      number ≤ min c chains.startNumber := fun number hle hmatches =>
    le_min ((hagree number hle).mp hmatches.2.2) hle
  by_cases hnear : chains.startNumber - c < 2 ^ (bits - 1)
  · refine iff_of_true ?_ (Or.inl hnear)
    obtain ⟨last, outcome, hrun, hsound, houtcome⟩ := run_ends
      (fun run hrun hout => hrun.advance hout hagree htip hnear hbits)
      (start_sound chains c before) hfuel
    obtain ⟨rfl, hcommon, hmem⟩ := hsound.ended outcome houtcome
    refine ⟨last, hrun, houtcome, hcommon, hmem, fun number hnumber => ?_⟩
    have hle := hsound.requested number hnumber
    exact ⟨hle, hmatches number hle⟩
  · have hfar : c + 2 ^ (bits - 1) ≤ chains.startNumber := by
      have := Nat.two_pow_pos (bits - 1)
      omega
    obtain ⟨last, outcome, hrun, hmissed, houtcome⟩ := run_ends
      (fun run hrun hout => hrun.advance hout hagree htip hfar)
      (start_missed hfar hbits before) hfuel
    obtain ⟨rfl, hzero⟩ := hmissed.ended outcome houtcome
    constructor
    · rintro ⟨last', hrun', -, -, hmem, -⟩
      cases hrun.symm.trans hrun'
      rw [min_eq_left (Nat.le_of_add_right_le hfar)] at hmem
      rcases (hmissed.requested c hmem).2 with hc | hc
      · exact Or.inr hc
      · exact absurd hc (lt_irrefl c)
    · rintro (hlt | rfl)
      · exact absurd hlt hnear
      · refine ⟨last, hrun, houtcome, by simp [hmissed.common], by simpa using hzero,
          fun number hnumber => ?_⟩
        have hle := (hmissed.requested number hnumber).1
        exact ⟨hle, hmatches number hle⟩

def shortFork : ChainPair Bool where
  ours := fun _ => true
  best := 23
  theirs := fun number => number ≤ 5
  peerBest := 20

theorem search_finds_common_short :
    ∃ last, Loop.run (SearchRun.round 32 shortFork) 43 (start shortFork 0) = some last ∧
      last.outcome = some .complete ∧ last.commonNumber = max 0 (min 5 20) ∧
      min 5 20 ∈ last.requested ∧ ∀ number ∈ last.requested, number ≤ 20 ∧
        (shortFork.Matches number → number ≤ min 5 20) :=
  (search_finds_common shortFork 5 0 (fun number _ => by simp [shortFork]) (by decide)
    (by decide) 43 (by decide)).mpr (Or.inl (by decide))

/-- Chains of more than half the numbers that agree up to the block with number 1. -/
def longFork : ChainPair Bool where
  ours := fun _ => true
  best := 2 ^ 31 + 1
  theirs := fun number => number ≤ 1
  peerBest := 2 ^ 31 + 1

/-- The distance wraps to zero, and with it the right bound of the binary search: block 1 is
common but genesis is the result. -/
theorem search_stops_early :
    (∀ number ≤ longFork.startNumber,
      (longFork.ours number = longFork.theirs number ↔ number ≤ 1)) ∧
    ∃ last, Loop.run (SearchRun.round 32 longFork) 40 (start longFork 0) = some last ∧
      last.outcome = some .complete ∧ last.commonNumber = 0 := by
  refine ⟨fun number _ => by simp [longFork], ?_⟩
  have hrun : (Loop.run (SearchRun.round 32 longFork) 40 (start longFork 0)).map
      (fun last => (last.outcome, last.commonNumber)) = some (some .complete, 0) := by
    decide +kernel
  obtain ⟨last, hlast, heq⟩ := Option.map_eq_some_iff.mp hrun
  exact ⟨last, hlast, congrArg Prod.fst heq, congrArg Prod.snd heq⟩

end SearchRun

end PolkadotSdk.NetworkSync
