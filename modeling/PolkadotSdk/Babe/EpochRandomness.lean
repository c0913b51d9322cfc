import PolkadotSdk.Babe.Pallet
import PolkadotSdk.Lib.Run

/-! # The randomness of an epoch

Blocks deposit VRF outputs in segments, and an epoch change hashes what was deposited. It takes
the segments below the current one: what stands in the current segment stays behind.
-/

namespace PolkadotSdk.Babe

variable {Id Rand Vrf : Type}

inductive PalletOp (Id Vrf : Type) where
  | initializeBlock (preDigest : Option (PreDigest Vrf))
  | planConfigChange (change : NextConfigDescriptor)
  | enactEpochChange (authorities nextAuthorities : List (Id × Nat)) (sessionIndex : Option Nat)
      (blockNumber : Nat)
  | onFinalize (isDisabled : Nat → Bool)

def ConsensusLog.epochData : ConsensusLog Id Rand → Option (NextEpochDescriptor Id Rand)
  | .nextEpochData next => some next
  | .nextConfigData _ => none

def latestEpochData (logs : List (ConsensusLog Id Rand)) : Option (NextEpochDescriptor Id Rand) :=
  (logs.filterMap ConsensusLog.epochData).getLast?

structure Observed (Id Rand Vrf : Type) where
  pallet : Pallet Id Rand Vrf
  deposited : List Rand
  queued : List (Id × Nat)
  announced : NextEpochDescriptor Id Rand

namespace Observed

def genesis (zero : Rand) (authorities : List (Id × Nat)) (epochConfig : BabeEpochConfiguration) :
    Observed Id Rand Vrf :=
  ⟨.genesis zero authorities epochConfig, [], authorities, ⟨authorities, zero⟩⟩

/-- An epoch change to no authorities is ignored. -/
def step (config : Config Id Rand Vrf) (observed : Observed Id Rand Vrf) :
    PalletOp Id Vrf → Option (Observed Id Rand Vrf)
  | .initializeBlock preDigest =>
    some { observed with pallet := observed.pallet.initializeBlock preDigest }
  | .planConfigChange change =>
    match observed.pallet.planConfigChange change with
    | .ok pallet => some { observed with pallet }
    | .error _ => some observed
  | .enactEpochChange authorities nextAuthorities sessionIndex blockNumber =>
    (observed.pallet.enactEpochChange config authorities nextAuthorities sessionIndex
      blockNumber).map fun pallet =>
      if authorities.isEmpty then { observed with pallet }
      else
        ⟨pallet, [], nextAuthorities,
          (latestEpochData pallet.digest).getD observed.announced⟩
  | .onFinalize isDisabled =>
    (observed.pallet.onFinalize config isDisabled).map fun pallet =>
      { observed with
        pallet
        deposited := observed.deposited ++ (observed.pallet.deposit config).toList }

end Observed

namespace Pallet

/-! ## Segments -/

theorem takeSegments_rest (segments : Nat → List Rand) (count i : Nat) :
    (takeSegments segments count).2 i = if i < count then [] else segments i := by
  induction count with
  | zero => rfl
  | succ count ih =>
    simp only [takeSegments, Function.update_apply, ih]
    split_ifs <;> first | rfl | omega

theorem takeSegments_taken (segments : Nat → List Rand) (count : Nat) :
    (takeSegments segments count).1 = (List.range count).flatMap segments := by
  induction count with
  | zero => rfl
  | succ count ih =>
    simp only [takeSegments, takeSegments_rest, if_neg (Nat.lt_irrefl count), ih]
    rw [List.range_succ, List.flatMap_append, List.flatMap_singleton]

/-- The segments up to an index hold what was deposited, all but the last being full. -/
structure Filled (segments : Nat → List Rand) (index : Nat) (deposited : List Rand) : Prop where
  values : (List.range index).flatMap segments ++ segments index = deposited
  full : ∀ i < index, (segments i).length = underConstructionSegmentLength
  fits : (segments index).length ≤ underConstructionSegmentLength
  begun : index = 0 ∨ segments index ≠ []
  beyond : ∀ i, index < i → segments i = []

section Filled

variable {segments : Nat → List Rand} {index : Nat} {deposited : List Rand}

theorem filled_empty : Filled (fun _ => []) 0 ([] : List Rand) :=
  ⟨rfl, by simp, by simp, .inl rfl, fun _ _ => rfl⟩

theorem Filled.below_length (h : Filled segments index deposited) :
    ((List.range index).flatMap segments).length = index * underConstructionSegmentLength := by
  have hlength : ∀ count ≤ index, ((List.range count).flatMap segments).length =
      count * underConstructionSegmentLength := by
    intro count hcount
    induction count with
    | zero => simp
    | succ count ih =>
      rw [List.range_succ, List.flatMap_append, List.flatMap_singleton, List.length_append,
        ih (by omega), h.full count (by omega), Nat.succ_mul]
  exact hlength index (Nat.le_refl _)

end Filled

/-! ## An epoch change -/

theorem enactEpoch_leaves_last_segment (config : Config Id Rand Vrf) {pallet : Pallet Id Rand Vrf}
    {deposited : List Rand} (h : Filled pallet.underConstruction pallet.segmentIndex deposited)
    (epochIndex : Nat) (authorities nextAuthorities : List (Id × Nat)) (sessionIndex : Option Nat)
    (blockNumber : Nat) :
    let absorbed := pallet.segmentIndex * underConstructionSegmentLength
    let after := pallet.enactEpoch config epochIndex authorities nextAuthorities sessionIndex
      blockNumber
    after.nextRandomness =
        computeRandomness config after.randomness (epochIndex + 1) (deposited.take absorbed) ∧
      (∀ i ≠ pallet.segmentIndex, after.underConstruction i = []) ∧
      after.underConstruction pallet.segmentIndex = deposited.drop absorbed := by
  intro absorbed after
  have htaken : (takeSegments pallet.underConstruction pallet.segmentIndex).1 =
      deposited.take absorbed := by
    rw [takeSegments_taken, ← h.values, List.take_left' h.below_length]
  have hrest : ∀ i, after.underConstruction i =
      if i < pallet.segmentIndex then [] else pallet.underConstruction i :=
    takeSegments_rest pallet.underConstruction pallet.segmentIndex
  refine ⟨?_, fun i hi => ?_, ?_⟩
  · rw [← htaken]
    rfl
  · rw [hrest]
    split_ifs with hlt
    · rfl
    · exact h.beyond i (by omega)
  · rw [hrest, if_neg (Nat.lt_irrefl _), ← h.values, List.drop_left' h.below_length]

end Pallet

/-! ## Runs -/

namespace Observed

variable {config : Config Id Rand Vrf} {observed next : Observed Id Rand Vrf}

/-- Nothing stands in the current segment when an epoch change is enacted. -/
def Settled (observed : Observed Id Rand Vrf) : PalletOp Id Vrf → Prop
  | .enactEpochChange authorities _ _ _ =>
    authorities ≠ [] → observed.pallet.underConstruction observed.pallet.segmentIndex = []
  | _ => True

/-- Either something stands in the current segment, or nothing was deposited. -/
def Tracked (observed : Observed Id Rand Vrf) : Prop :=
  observed.pallet.underConstruction observed.pallet.segmentIndex ≠ [] ∧ observed.deposited ≠ [] ∨
    observed.pallet.segmentIndex = 0 ∧ observed.deposited = [] ∧
      observed.pallet.underConstruction = fun _ => []

theorem initializeBlock_segments (pallet : Pallet Id Rand Vrf)
    (preDigest : Option (PreDigest Vrf)) :
    (pallet.initializeBlock preDigest).segmentIndex = pallet.segmentIndex ∧
      (pallet.initializeBlock preDigest).underConstruction = pallet.underConstruction := by
  unfold Pallet.initializeBlock
  split
  · exact ⟨rfl, rfl⟩
  · exact ⟨rfl, rfl⟩
  · unfold Pallet.enterSlot
    dsimp only
    split_ifs
    · exact ⟨rfl, rfl⟩
    · exact ⟨rfl, rfl⟩

theorem onFinalize_segments {pallet after : Pallet Id Rand Vrf} {isDisabled : Nat → Bool}
    (h : pallet.onFinalize config isDisabled = some after) :
    match pallet.deposit config with
    | none => after.segmentIndex = pallet.segmentIndex ∧
        after.underConstruction = pallet.underConstruction
    | some randomness =>
      after.segmentIndex = (pallet.depositRandomness randomness).segmentIndex ∧
        after.underConstruction = (pallet.depositRandomness randomness).underConstruction := by
  unfold Pallet.onFinalize at h
  split at h
  · obtain ⟨-, h⟩ := Option.ite_none_left_eq_some.mp h
    cases h
    cases hdeposit : pallet.deposit config with
    | none => exact ⟨rfl, rfl⟩
    | some randomness => exact ⟨rfl, rfl⟩
  · rename_i hnone
    cases h
    have hdeposit : pallet.deposit config = none := by
      unfold Pallet.deposit
      split
      · rename_i preDigest hsome
        exact absurd hsome (hnone preDigest)
      · rfl
    rw [hdeposit]
    exact ⟨rfl, rfl⟩

theorem planConfigChange_segments {change : NextConfigDescriptor}
    (h : observed.step config (.planConfigChange change) = some next) :
    next.pallet.segmentIndex = observed.pallet.segmentIndex ∧
      next.pallet.underConstruction = observed.pallet.underConstruction ∧
      next.deposited = observed.deposited := by
  rw [step] at h
  split at h
  · rename_i pallet hplan
    cases h
    unfold Pallet.planConfigChange at hplan
    dsimp only at hplan
    split_ifs at hplan
    cases hplan
    exact ⟨rfl, rfl, rfl⟩
  · cases h
    exact ⟨rfl, rfl, rfl⟩

theorem depositRandomness_begun (pallet : Pallet Id Rand Vrf) (randomness : Rand) :
    (pallet.depositRandomness randomness).underConstruction
      (pallet.depositRandomness randomness).segmentIndex ≠ [] := by
  unfold Pallet.depositRandomness
  dsimp only
  split_ifs
  · simp
  · simp

theorem Tracked.settled_iff (h : observed.Tracked) :
    observed.pallet.underConstruction observed.pallet.segmentIndex = [] ↔
      observed.deposited = [] := by
  rcases h with ⟨hbegun, hdeposited⟩ | ⟨-, hdeposited, hsegments⟩
  · exact iff_of_false hbegun hdeposited
  · exact iff_of_true (congrFun hsegments _) hdeposited

/-- An epoch change hashes all that was deposited and leaves nothing exactly if nothing was. -/
theorem enactEpoch_absorbs_iff (config : Config Id Rand Vrf) (h : observed.Tracked)
    (epochIndex : Nat) (authorities nextAuthorities : List (Id × Nat)) (sessionIndex : Option Nat)
    (blockNumber : Nat) :
    let after := observed.pallet.enactEpoch config epochIndex authorities nextAuthorities
      sessionIndex blockNumber
    (after.nextRandomness =
        computeRandomness config after.randomness (epochIndex + 1) observed.deposited ∧
      ∀ i, after.underConstruction i = []) ↔ observed.deposited = [] := by
  intro after
  constructor
  · rintro ⟨-, hempty⟩
    have hrest := Pallet.takeSegments_rest observed.pallet.underConstruction
      observed.pallet.segmentIndex observed.pallet.segmentIndex
    rw [if_neg (Nat.lt_irrefl _)] at hrest
    exact h.settled_iff.mp (hrest.symm.trans (hempty _))
  · intro hdeposited
    rcases h with ⟨-, hsome⟩ | ⟨hindex, -, hsegments⟩
    · exact absurd hdeposited hsome
    have hfilled : Pallet.Filled observed.pallet.underConstruction observed.pallet.segmentIndex
        observed.deposited := by
      rw [hindex, hdeposited, hsegments]
      exact Pallet.filled_empty
    obtain ⟨hrandomness, hothers, hlast⟩ := Pallet.enactEpoch_leaves_last_segment config hfilled
      epochIndex authorities nextAuthorities sessionIndex blockNumber
    have hnone : ∀ count, observed.deposited.take count = observed.deposited := by
      simp [hdeposited]
    refine ⟨by rw [hrandomness, hnone], fun i => ?_⟩
    by_cases hi : i = observed.pallet.segmentIndex
    · rw [hi, hlast, hdeposited, List.drop_nil]
    · exact hothers i hi

theorem step_tracked {op : PalletOp Id Vrf} (h : observed.Tracked) (hsettled : observed.Settled op)
    (hstep : observed.step config op = some next) : next.Tracked := by
  cases op with
  | initializeBlock preDigest =>
    cases hstep
    obtain ⟨hindex, hsegments⟩ := initializeBlock_segments observed.pallet preDigest
    simpa only [Tracked, hindex, hsegments] using h
  | planConfigChange change =>
    obtain ⟨hindex, hsegments, hdeposited⟩ := planConfigChange_segments hstep
    simpa only [Tracked, hindex, hsegments, hdeposited] using h
  | enactEpochChange authorities nextAuthorities sessionIndex blockNumber =>
    obtain ⟨pallet, henact, hnext⟩ := Option.map_eq_some_iff.mp hstep
    by_cases hempty : authorities = []
    · subst hempty
      cases henact
      cases hnext
      exact h
    · rw [if_neg (by simpa using hempty)] at hnext
      obtain ⟨epochIndex, -, -, rfl⟩ := Pallet.enactEpochChange_eq hempty henact
      obtain ⟨-, hsegments⟩ := (enactEpoch_absorbs_iff config h epochIndex authorities
        nextAuthorities sessionIndex blockNumber).mpr (h.settled_iff.mp (hsettled hempty))
      subst hnext
      exact .inr ⟨rfl, rfl, funext hsegments⟩
  | onFinalize isDisabled =>
    obtain ⟨pallet, hfinalize, hnext⟩ := Option.map_eq_some_iff.mp hstep
    subst hnext
    have hsegments := onFinalize_segments hfinalize
    cases hdeposit : observed.pallet.deposit config with
    | none =>
      rw [hdeposit] at hsegments
      simpa only [Tracked, hsegments, Option.toList_none, List.append_nil] using h
    | some randomness =>
      rw [hdeposit] at hsegments
      refine .inl ⟨?_, by simp⟩
      rw [hsegments.1, hsegments.2]
      exact depositRandomness_begun observed.pallet randomness

variable {zero : Rand} {authorities : List (Id × Nat)} {epochConfig : BabeEpochConfiguration}

/-- In every run whose epoch changes found nothing in the current segment, the next epoch change
hashes the randomness that becomes current, the index of the next epoch and all values deposited
since the last one, with no value staying behind, exactly if there are no such values. -/
theorem epoch_absorbs_deposits (ops : List (PalletOp Id Vrf)) (last : Observed Id Rand Vrf)
    (current nextAuthorities : List (Id × Nat)) (sessionIndex : Option Nat) (blockNumber : Nat)
    (after : Pallet Id Rand Vrf)
    (hrun : Run.exec (step config) (genesis zero authorities epochConfig) ops = some last)
    (hsettled : Run.Along (step config) Settled (genesis zero authorities epochConfig) ops)
    (hcurrent : current ≠ [])
    (henact : last.pallet.enactEpochChange config current nextAuthorities sessionIndex
      blockNumber = some after) :
    after.randomness = last.pallet.nextRandomness ∧
      ((after.nextRandomness =
          computeRandomness config after.randomness (after.epochIndex + 1) last.deposited ∧
        ∀ i, after.underConstruction i = []) ↔ last.deposited = []) ∧
      (last.Settled (.enactEpochChange current nextAuthorities sessionIndex blockNumber) ↔
        last.deposited = []) := by
  have htracked : last.Tracked :=
    Run.exec_invariant (I := Tracked) (fun _ _ _ h hop hstep => step_tracked h hop hstep)
      (.inr ⟨rfl, rfl, rfl⟩) hsettled hrun
  obtain ⟨epochIndex, -, -, rfl⟩ := Pallet.enactEpochChange_eq hcurrent henact
  refine ⟨rfl, enactEpoch_absorbs_iff config htracked epochIndex current nextAuthorities
    sessionIndex blockNumber, ?_⟩
  exact (forall_prop_of_true hcurrent).trans htracked.settled_iff

def transparentConfig : Config Nat (List UInt8) UInt8 where
  epochDuration := 2
  bytes := id
  blake2256 := id
  makeBytes := fun _ _ _ _ output => some [output]

def soleGenesis : Observed Nat (List UInt8) UInt8 :=
  genesis [] [(1, 1)] ⟨(1, 4), .primaryAndSecondaryPlainSlots⟩

/-- Two blocks without a VRF output, and an epoch change in the second. -/
theorem epoch_absorbs_deposits_plain :
    ∃ (last : Observed Nat (List UInt8) UInt8) (after : Pallet Nat (List UInt8) UInt8),
      Run.exec (step transparentConfig) soleGenesis
        [.initializeBlock (some (.secondaryPlain ⟨0, 10⟩)), .onFinalize fun _ => false,
          .initializeBlock (some (.secondaryPlain ⟨0, 12⟩))] = some last ∧
      after.randomness = last.pallet.nextRandomness ∧
      after.nextRandomness = computeRandomness transparentConfig after.randomness
        (after.epochIndex + 1) last.deposited ∧
      ∀ i, after.underConstruction i = [] := by
  obtain ⟨after, hboth⟩ := Option.isSome_iff_exists.mp (show ((Run.exec (step transparentConfig)
    soleGenesis [.initializeBlock (some (.secondaryPlain ⟨0, 10⟩)), .onFinalize fun _ => false,
      .initializeBlock (some (.secondaryPlain ⟨0, 12⟩))]).bind fun last =>
      last.pallet.enactEpochChange transparentConfig [(1, 1)] [(1, 1)] none 2).isSome from rfl)
  obtain ⟨last, hrun, henact⟩ := Option.bind_eq_some_iff.mp hboth
  obtain ⟨hcurrent, habsorbs, -⟩ := epoch_absorbs_deposits _ last [(1, 1)] [(1, 1)] none 2 after
    hrun (And.intro trivial (And.intro trivial (And.intro trivial trivial))) (by simp) henact
  refine ⟨last, after, hrun, hcurrent, habsorbs.mpr ?_⟩
  cases hrun
  rfl

/-- The first block deposits the output 7. The epoch change in the second does not hash it, and
it is still stored afterwards. -/
theorem epoch_leaves_deposit_behind :
    ∃ (last : Observed Nat (List UInt8) UInt8) (after : Pallet Nat (List UInt8) UInt8),
      Run.exec (step transparentConfig) soleGenesis
        [.initializeBlock (some (.primary ⟨0, 10, 7⟩)), .onFinalize fun _ => false,
          .initializeBlock (some (.secondaryPlain ⟨0, 12⟩))] = some last ∧
      last.deposited = [[7]] ∧
      last.pallet.enactEpochChange transparentConfig [(1, 1)] [(1, 1)] none 2 = some after ∧
      after.nextRandomness = computeRandomness transparentConfig after.randomness
        (after.epochIndex + 1) [] ∧
      after.nextRandomness ≠ computeRandomness transparentConfig after.randomness
        (after.epochIndex + 1) last.deposited ∧
      after.underConstruction 0 = [[7]] :=
  ⟨_, _, rfl, rfl, rfl, rfl, by decide, rfl⟩

end Observed

end PolkadotSdk.Babe
