import PolkadotSdk.Babe.EpochRandomness

/-! # Announced epochs

An epoch change announces the epoch after the one that it enacts. The authorities and the
randomness of that epoch are in its digest; the configuration is the one that was announced
last, as it is only announced where it changes.
-/

namespace PolkadotSdk.Babe

variable {Id Rand Vrf : Type}

def ConsensusLog.configData : ConsensusLog Id Rand → Option NextConfigDescriptor
  | .nextEpochData _ => none
  | .nextConfigData next => some next

def latestConfigData (logs : List (ConsensusLog Id Rand)) : Option NextConfigDescriptor :=
  (logs.filterMap ConsensusLog.configData).getLast?

def announcedConfig (genesisConfig : BabeEpochConfiguration) (logs : List (ConsensusLog Id Rand)) :
    BabeEpochConfiguration :=
  ((latestConfigData logs).map NextConfigDescriptor.toConfiguration).getD genesisConfig

theorem latestConfigData_append (logs more : List (ConsensusLog Id Rand)) :
    latestConfigData (logs ++ more) = (latestConfigData more).or (latestConfigData logs) := by
  simp [latestConfigData, List.getLast?_append]

theorem latestEpochData_append (logs more : List (ConsensusLog Id Rand)) :
    latestEpochData (logs ++ more) = (latestEpochData more).or (latestEpochData logs) := by
  simp [latestEpochData, List.getLast?_append]

namespace Pallet

/-! ## The slots of a block -/

structure Clocked (epochDuration : Nat) (pallet : Pallet Id Rand Vrf) : Prop where
  genesis : pallet.genesisSlot = 0 → pallet.currentSlot = 0 ∧ pallet.epochIndex = 0
  started : pallet.epochIndex * epochDuration + pallet.genesisSlot ≤ pallet.currentSlot
  slot : pallet.currentSlot < 2 ^ 64

variable {epochDuration : Nat} {pallet : Pallet Id Rand Vrf}

theorem Clocked.enterSlot (h : pallet.Clocked epochDuration) {currentSlot : Nat}
    (hlater : pallet.currentSlot ≤ currentSlot) (hslot : currentSlot < 2 ^ 64) :
    (pallet.enterSlot currentSlot).Clocked epochDuration := by
  unfold Pallet.enterSlot
  dsimp only
  split_ifs with hgenesis
  · obtain ⟨-, hindex⟩ := h.genesis hgenesis
    refine ⟨fun hzero => ⟨hzero, hindex⟩, ?_, hslot⟩
    simp [initializeGenesisEpoch, depositConsensus, hindex]
  · have hstarted := h.started
    exact ⟨fun hzero => absurd hzero hgenesis, Nat.le_trans h.started hlater, hslot⟩

theorem Clocked.epochIndexOf_bound (h : pallet.Clocked epochDuration) {epochIndex : Nat}
    (hindex : epochIndexOf pallet.currentSlot pallet.genesisSlot epochDuration =
      some epochIndex) :
    epochIndex + 1 < 2 ^ 64 ∧
      epochIndex * epochDuration + pallet.genesisSlot ≤ pallet.currentSlot ∧
      (pallet.genesisSlot = 0 → epochIndex = 0) := by
  unfold epochIndexOf at hindex
  split_ifs at hindex with hduration
  cases hindex
  have hstarted := h.started
  have hslot := h.slot
  have hdiv := Nat.div_mul_le_self (pallet.currentSlot - pallet.genesisSlot) epochDuration
  have hle := Nat.div_le_self (pallet.currentSlot - pallet.genesisSlot) epochDuration
  have hgenesis : pallet.genesisSlot = 0 →
      (pallet.currentSlot - pallet.genesisSlot) / epochDuration = 0 := by
    intro hzero
    simp [(h.genesis hzero).1]
  refine ⟨?_, by omega, hgenesis⟩
  by_cases hzero : pallet.genesisSlot = 0
  · rw [hgenesis hzero]
    omega
  · omega

/-! ## The configuration -/

/-- The next configuration is the one announced last, or that of genesis. -/
structure Configured (genesisConfig : BabeEpochConfiguration) (pallet : Pallet Id Rand Vrf) :
    Prop where
  next : pallet.nextEpochConfig =
    (latestConfigData pallet.digest).map NextConfigDescriptor.toConfiguration
  current : ∃ epochConfig, pallet.epochConfig = some epochConfig ∧
    (latestConfigData pallet.digest = none → epochConfig = genesisConfig)

variable {genesisConfig : BabeEpochConfiguration}

theorem Configured.announced (h : pallet.Configured genesisConfig) :
    pallet.nextEpochConfig.or pallet.epochConfig =
      some (announcedConfig genesisConfig pallet.digest) := by
  obtain ⟨epochConfig, hcurrent, hgenesis⟩ := h.current
  rw [h.next, hcurrent]
  unfold announcedConfig
  cases hlatest : latestConfigData pallet.digest with
  | none => simp [hgenesis hlatest]
  | some change => simp

theorem enactEpoch_digest (config : Config Id Rand Vrf) (pallet : Pallet Id Rand Vrf)
    (epochIndex : Nat) (authorities nextAuthorities : List (Id × Nat)) (sessionIndex : Option Nat)
    (blockNumber : Nat) :
    let after := pallet.enactEpoch config epochIndex authorities nextAuthorities sessionIndex
      blockNumber
    latestEpochData after.digest = some ⟨nextAuthorities, after.nextRandomness⟩ ∧
      latestConfigData after.digest =
        pallet.pendingEpochConfigChange.or (latestConfigData pallet.digest) := by
  intro after
  have hdigest : after.digest = pallet.digest ++
      (.nextEpochData ⟨nextAuthorities, after.nextRandomness⟩ ::
        (pallet.pendingEpochConfigChange.map ConsensusLog.nextConfigData).toList) :=
    List.append_assoc pallet.digest [_] _
  rw [hdigest, latestEpochData_append, latestConfigData_append]
  cases pallet.pendingEpochConfigChange with
  | none => exact ⟨rfl, rfl⟩
  | some change => exact ⟨rfl, rfl⟩

theorem Configured.enactEpoch (h : pallet.Configured genesisConfig) (config : Config Id Rand Vrf)
    (epochIndex : Nat) (authorities nextAuthorities : List (Id × Nat)) (sessionIndex : Option Nat)
    (blockNumber : Nat) :
    (pallet.enactEpoch config epochIndex authorities nextAuthorities sessionIndex
      blockNumber).Configured genesisConfig := by
  obtain ⟨-, hdigest⟩ := enactEpoch_digest config pallet epochIndex authorities nextAuthorities
    sessionIndex blockNumber
  refine ⟨?_, announcedConfig genesisConfig pallet.digest, h.announced, fun hnone => ?_⟩
  · rw [hdigest, Option.map_or, ← h.next]
    rfl
  · rw [hdigest, Option.or_eq_none_iff] at hnone
    simp [announcedConfig, hnone.2]

end Pallet

/-! ## Runs -/

namespace Observed

variable {config : Config Id Rand Vrf} {observed next : Observed Id Rand Vrf}
  {genesisConfig : BabeEpochConfiguration}

/-- Slots do not go back, and an epoch change is given the authorities that were queued. -/
def Continues (observed : Observed Id Rand Vrf) : PalletOp Id Vrf → Prop
  | .initializeBlock preDigest => ∀ digest, preDigest = some digest →
      observed.pallet.currentSlot ≤ digest.slot ∧ digest.slot < 2 ^ 64
  | .enactEpochChange authorities _ _ _ => authorities = observed.queued ∧ authorities ≠ []
  | _ => True

structure Announces (config : Config Id Rand Vrf) (genesisConfig : BabeEpochConfiguration)
    (observed : Observed Id Rand Vrf) : Prop where
  clocked : observed.pallet.Clocked config.epochDuration
  configured : observed.pallet.Configured genesisConfig
  queued : observed.announced.authorities = observed.queued
  authorities : observed.pallet.nextAuthorities = observed.announced.authorities
  randomness : observed.pallet.nextRandomness = observed.announced.randomness

structure KeepsEpochs (pallet after : Pallet Id Rand Vrf) : Prop where
  epochIndex : after.epochIndex = pallet.epochIndex
  nextAuthorities : after.nextAuthorities = pallet.nextAuthorities
  nextRandomness : after.nextRandomness = pallet.nextRandomness
  epochConfig : after.epochConfig = pallet.epochConfig
  nextEpochConfig : after.nextEpochConfig = pallet.nextEpochConfig
  digest : latestConfigData after.digest = latestConfigData pallet.digest

theorem keepsEpochs_initializeBlock (pallet : Pallet Id Rand Vrf)
    (preDigest : Option (PreDigest Vrf)) :
    KeepsEpochs pallet (pallet.initializeBlock preDigest) := by
  unfold Pallet.initializeBlock
  split
  · exact ⟨rfl, rfl, rfl, rfl, rfl, rfl⟩
  · exact ⟨rfl, rfl, rfl, rfl, rfl, rfl⟩
  · unfold Pallet.enterSlot
    dsimp only
    split_ifs
    · refine ⟨rfl, rfl, rfl, rfl, rfl, ?_⟩
      exact (latestConfigData_append _ _).trans (by simp [latestConfigData, ConsensusLog.configData])
    · exact ⟨rfl, rfl, rfl, rfl, rfl, rfl⟩

theorem keepsEpochs_depositRandomness (pallet : Pallet Id Rand Vrf) (randomness : Rand) :
    KeepsEpochs pallet (pallet.depositRandomness randomness) ∧
      (pallet.depositRandomness randomness).genesisSlot = pallet.genesisSlot ∧
      (pallet.depositRandomness randomness).currentSlot = pallet.currentSlot := by
  unfold Pallet.depositRandomness
  dsimp only
  split_ifs
  · exact ⟨⟨rfl, rfl, rfl, rfl, rfl, rfl⟩, rfl, rfl⟩
  · exact ⟨⟨rfl, rfl, rfl, rfl, rfl, rfl⟩, rfl, rfl⟩

theorem keepsEpochs_onFinalize {pallet after : Pallet Id Rand Vrf} {isDisabled : Nat → Bool}
    (h : pallet.onFinalize config isDisabled = some after) :
    KeepsEpochs pallet after ∧ after.genesisSlot = pallet.genesisSlot ∧
      after.currentSlot = pallet.currentSlot := by
  unfold Pallet.onFinalize at h
  split at h
  · obtain ⟨-, h⟩ := Option.ite_none_left_eq_some.mp h
    cases h
    cases pallet.deposit config with
    | none => exact ⟨⟨rfl, rfl, rfl, rfl, rfl, rfl⟩, rfl, rfl⟩
    | some randomness =>
      obtain ⟨hkeeps, hslots⟩ := keepsEpochs_depositRandomness pallet randomness
      exact ⟨⟨hkeeps.epochIndex, hkeeps.nextAuthorities, hkeeps.nextRandomness,
        hkeeps.epochConfig, hkeeps.nextEpochConfig, hkeeps.digest⟩, hslots⟩
  · cases h
    exact ⟨⟨rfl, rfl, rfl, rfl, rfl, rfl⟩, rfl, rfl⟩

theorem Announces.keeps {pallet : Pallet Id Rand Vrf} (h : Announces config genesisConfig observed)
    (hclocked : pallet.Clocked config.epochDuration) (hkeeps : KeepsEpochs observed.pallet pallet)
    (deposited : List Rand) :
    Announces config genesisConfig ⟨pallet, deposited, observed.queued, observed.announced⟩ where
  clocked := hclocked
  configured := by
    obtain ⟨epochConfig, hcurrent, hgenesis⟩ := h.configured.current
    refine ⟨?_, epochConfig, hkeeps.epochConfig.trans hcurrent, ?_⟩
    · rw [hkeeps.nextEpochConfig, hkeeps.digest, h.configured.next]
    · rw [hkeeps.digest]
      exact hgenesis
  queued := h.queued
  authorities := hkeeps.nextAuthorities.trans h.authorities
  randomness := hkeeps.nextRandomness.trans h.randomness

theorem initializeBlock_clocked {preDigest : Option (PreDigest Vrf)}
    (h : observed.pallet.Clocked config.epochDuration)
    (hcontinues : observed.Continues (.initializeBlock preDigest)) :
    (observed.pallet.initializeBlock preDigest).Clocked config.epochDuration := by
  unfold Pallet.initializeBlock
  split
  · exact h
  · exact ⟨h.genesis, h.started, h.slot⟩
  · rename_i digest hnone
    obtain ⟨hlater, hslot⟩ := hcontinues digest rfl
    have hentered := h.enterSlot hlater hslot
    exact ⟨hentered.genesis, hentered.started, hentered.slot⟩

theorem Announces.enactEpoch (h : Announces config genesisConfig observed) {epochIndex : Nat}
    (hindex : epochIndexOf observed.pallet.currentSlot observed.pallet.genesisSlot
      config.epochDuration = some epochIndex) (authorities nextAuthorities : List (Id × Nat))
    (sessionIndex : Option Nat) (blockNumber : Nat) :
    let after := observed.pallet.enactEpoch config epochIndex authorities nextAuthorities
      sessionIndex blockNumber
    Announces config genesisConfig ⟨after, [], nextAuthorities,
      (latestEpochData after.digest).getD observed.announced⟩ := by
  intro after
  obtain ⟨hannounced, -⟩ := Pallet.enactEpoch_digest config observed.pallet epochIndex authorities
    nextAuthorities sessionIndex blockNumber
  obtain ⟨-, hstarted, hgenesis⟩ := h.clocked.epochIndexOf_bound hindex
  have hlatest : (latestEpochData after.digest).getD observed.announced =
      ⟨nextAuthorities, after.nextRandomness⟩ := by
    rw [hannounced]
    rfl
  rw [hlatest]
  exact {
    clocked := ⟨fun hzero => ⟨(h.clocked.genesis hzero).1, hgenesis hzero⟩, hstarted,
      h.clocked.slot⟩
    configured := h.configured.enactEpoch config epochIndex authorities nextAuthorities
      sessionIndex blockNumber
    queued := rfl
    authorities := rfl
    randomness := rfl }

theorem step_announces {op : PalletOp Id Vrf} (h : Announces config genesisConfig observed)
    (hcontinues : observed.Continues op) (hstep : observed.step config op = some next) :
    Announces config genesisConfig next := by
  cases op with
  | initializeBlock preDigest =>
    cases hstep
    exact h.keeps (initializeBlock_clocked h.clocked hcontinues)
      (keepsEpochs_initializeBlock _ _) observed.deposited
  | planConfigChange change =>
    rw [step] at hstep
    split at hstep
    · rename_i pallet hplan
      cases hstep
      unfold Pallet.planConfigChange at hplan
      dsimp only at hplan
      split_ifs at hplan
      cases hplan
      refine h.keeps ?_ ?_ observed.deposited
      · exact ⟨h.clocked.genesis, h.clocked.started, h.clocked.slot⟩
      · exact ⟨rfl, rfl, rfl, rfl, rfl, rfl⟩
    · cases hstep
      exact h
  | enactEpochChange authorities nextAuthorities sessionIndex blockNumber =>
    obtain ⟨pallet, henact, hnext⟩ := Option.map_eq_some_iff.mp hstep
    obtain ⟨-, hne⟩ := hcontinues
    rw [if_neg (by simpa using hne)] at hnext
    obtain ⟨epochIndex, hindex, -, rfl⟩ := Pallet.enactEpochChange_eq hne henact
    subst hnext
    exact h.enactEpoch hindex authorities nextAuthorities sessionIndex blockNumber
  | onFinalize isDisabled =>
    obtain ⟨pallet, hfinalize, hnext⟩ := Option.map_eq_some_iff.mp hstep
    subst hnext
    obtain ⟨hkeeps, hgenesis, hslot⟩ := keepsEpochs_onFinalize hfinalize
    refine h.keeps ⟨?_, ?_, ?_⟩ hkeeps _
    · rw [hgenesis, hslot, hkeeps.epochIndex]
      exact h.clocked.genesis
    · rw [hgenesis, hslot, hkeeps.epochIndex]
      exact h.clocked.started
    · rw [hslot]
      exact h.clocked.slot

theorem genesis_announces (zero : Rand) (authorities : List (Id × Nat)) :
    Announces config genesisConfig (genesis zero authorities genesisConfig) where
  clocked := ⟨fun _ => ⟨rfl, rfl⟩, by simp [genesis, Pallet.genesis], by simp [genesis, Pallet.genesis]⟩
  configured := ⟨rfl, genesisConfig, rfl, fun _ => rfl⟩
  queued := rfl
  authorities := rfl
  randomness := rfl

theorem currentEpoch_enactEpoch (h : Announces config genesisConfig observed) {epochIndex : Nat}
    (hindex : epochIndexOf observed.pallet.currentSlot observed.pallet.genesisSlot
      config.epochDuration = some epochIndex) (nextAuthorities : List (Id × Nat))
    (sessionIndex : Option Nat) (blockNumber : Nat) :
    (observed.pallet.enactEpoch config epochIndex observed.queued nextAuthorities sessionIndex
      blockNumber).currentEpoch config = some
        { epochIndex
          startSlot := epochIndex * config.epochDuration + observed.pallet.genesisSlot
          duration := config.epochDuration
          authorities := observed.announced.authorities
          randomness := observed.announced.randomness
          config := announcedConfig genesisConfig observed.pallet.digest } := by
  obtain ⟨-, hstarted, -⟩ := h.clocked.epochIndexOf_bound hindex
  have hslot := h.clocked.slot
  have hstart : epochStartSlot epochIndex observed.pallet.genesisSlot config.epochDuration =
      some (epochIndex * config.epochDuration + observed.pallet.genesisSlot) :=
    if_pos (by omega)
  rw [h.queued, ← h.randomness]
  exact Option.bind_eq_some_iff.mpr ⟨_, hstart,
    Option.bind_eq_some_iff.mpr ⟨_, h.configured.announced, rfl⟩⟩

theorem nextEpoch_eq (h : Announces config genesisConfig observed) {told : Epoch Id Rand}
    (htold : observed.pallet.nextEpoch config = some told) :
    told =
      { epochIndex := observed.pallet.epochIndex + 1
        startSlot := (observed.pallet.epochIndex + 1) * config.epochDuration +
          observed.pallet.genesisSlot
        duration := config.epochDuration
        authorities := observed.announced.authorities
        randomness := observed.announced.randomness
        config := announcedConfig genesisConfig observed.pallet.digest } := by
  simp only [Pallet.nextEpoch, Option.bind_eq_bind, Option.bind_eq_some_iff] at htold
  obtain ⟨index, hindex, start, hstart, epochConfig, hconfig, htold⟩ := htold
  rw [h.configured.announced] at hconfig
  unfold checkedAdd at hindex
  split_ifs at hindex
  cases hindex
  unfold epochStartSlot at hstart
  split_ifs at hstart
  cases hstart
  cases hconfig
  cases htold
  rw [← h.authorities, ← h.randomness]

/-- Where an epoch change is given the authorities that the last one queued, it enacts the epoch
that was announced, up to its index and start slot where epochs are skipped. -/
theorem enacted_is_announced (zero : Rand) (authorities : List (Id × Nat))
    (ops : List (PalletOp Id Vrf)) (last : Observed Id Rand Vrf)
    (current nextAuthorities : List (Id × Nat)) (sessionIndex : Option Nat) (blockNumber : Nat)
    (hrun : Run.exec (step config) (genesis zero authorities genesisConfig) ops = some last)
    (hcontinues : Run.Along (step config) Continues (genesis zero authorities genesisConfig)
      (ops ++ [.enactEpochChange current nextAuthorities sessionIndex blockNumber])) :
    (0 < config.epochDuration → (last.pallet.enactEpochChange config current nextAuthorities
      sessionIndex blockNumber).isSome) ∧
    ∀ after, last.pallet.enactEpochChange config current nextAuthorities sessionIndex
        blockNumber = some after →
      ∃ epoch, after.currentEpoch config = some epoch ∧
        epoch.authorities = last.announced.authorities ∧
        epoch.randomness = last.announced.randomness ∧
        epoch.config = announcedConfig genesisConfig last.pallet.digest ∧
        epoch.startSlot ≤ after.currentSlot ∧
        ∀ told, last.pallet.nextEpoch config = some told →
          { told with epochIndex := epoch.epochIndex, startSlot := epoch.startSlot } = epoch ∧
          (epoch.epochIndex = told.epochIndex → told = epoch) := by
  have hannounces : Announces config genesisConfig last :=
    Run.exec_invariant (fun _ _ _ h hop hstep => step_announces h hop hstep)
      (genesis_announces zero authorities) hcontinues.append_left hrun
  obtain ⟨rfl, hne⟩ := (hcontinues.append_right hrun).head
  refine ⟨fun hduration => ?_, fun after henact => ?_⟩
  · have hindex : epochIndexOf last.pallet.currentSlot last.pallet.genesisSlot
        config.epochDuration = some _ := if_neg (by omega)
    obtain ⟨hbound, -, -⟩ := hannounces.clocked.epochIndexOf_bound hindex
    rw [Pallet.enactEpochChange, if_neg (by simpa using hne), hindex]
    dsimp only
    rw [if_pos hbound, Option.isSome_some]
  · obtain ⟨epochIndex, hindex, -, rfl⟩ := Pallet.enactEpochChange_eq hne henact
    obtain ⟨-, hstarted, -⟩ := hannounces.clocked.epochIndexOf_bound hindex
    refine ⟨_, currentEpoch_enactEpoch hannounces hindex nextAuthorities sessionIndex blockNumber,
      rfl, rfl, rfl, hstarted, fun told htold => ?_⟩
    rw [nextEpoch_eq hannounces htold]
    refine ⟨rfl, fun hsame => ?_⟩
    have hsame : epochIndex = last.pallet.epochIndex + 1 := hsame
    rw [hsame]

def plannedBlocks : List (PalletOp Nat UInt8) :=
  [.initializeBlock (some (.secondaryPlain ⟨0, 10⟩)), .planConfigChange (.v1 (1, 2) .primarySlots),
    .onFinalize fun _ => false, .initializeBlock (some (.secondaryPlain ⟨0, 12⟩)),
    .enactEpochChange [(1, 1)] [(2, 1)] none 2, .onFinalize fun _ => false,
    .initializeBlock (some (.primary ⟨0, 16, 7⟩))]

theorem enacted_is_announced_skipped :
    ∃ (last : Observed Nat (List UInt8) UInt8) (after : Pallet Nat (List UInt8) UInt8),
      Run.exec (step transparentConfig) soleGenesis plannedBlocks = some last ∧
      last.pallet.enactEpochChange transparentConfig [(2, 1)] [(3, 1)] none 3 = some after ∧
      ∃ epoch, after.currentEpoch transparentConfig = some epoch ∧
        epoch.authorities = last.announced.authorities ∧
        epoch.randomness = last.announced.randomness ∧
        epoch.config = announcedConfig ⟨(1, 4), .primaryAndSecondaryPlainSlots⟩
          last.pallet.digest := by
  obtain ⟨after, hboth⟩ := Option.isSome_iff_exists.mp (show ((Run.exec (step transparentConfig)
    soleGenesis plannedBlocks).bind fun last =>
      last.pallet.enactEpochChange transparentConfig [(2, 1)] [(3, 1)] none 3).isSome from rfl)
  obtain ⟨last, hrun, henact⟩ := Option.bind_eq_some_iff.mp hboth
  have hcontinues : Run.Along (step transparentConfig) Continues soleGenesis
      (plannedBlocks ++ [.enactEpochChange [(2, 1)] [(3, 1)] none 3]) := by
    refine And.intro ?_ (And.intro trivial (And.intro trivial (And.intro ?_ (And.intro ?_
      (And.intro trivial (And.intro ?_ (And.intro ?_ trivial)))))))
    · rintro _ ⟨⟩
      decide
    · rintro _ ⟨⟩
      decide
    · exact ⟨rfl, by simp⟩
    · rintro _ ⟨⟩
      decide
    · exact ⟨rfl, by simp⟩
  obtain ⟨epoch, hepoch, hauthorities, hrandomness, hconfig, -⟩ :=
    (enacted_is_announced [] [(1, 1)] plannedBlocks last [(2, 1)] [(3, 1)] none 3 hrun
      hcontinues).2 after henact
  exact ⟨last, after, hrun, henact, epoch, hepoch, hauthorities, hrandomness, hconfig⟩

/-- An epoch change announces an epoch without authorities. The one after it is then given none and
does nothing: the epoch that was announced is never current. -/
theorem empty_epoch_not_enacted :
    ∃ (last : Observed Nat (List UInt8) UInt8) (after : Pallet Nat (List UInt8) UInt8)
      (epoch : Epoch Nat (List UInt8)),
      Run.exec (step transparentConfig) soleGenesis
        [.initializeBlock (some (.secondaryPlain ⟨0, 10⟩)), .onFinalize fun _ => false,
          .initializeBlock (some (.secondaryPlain ⟨0, 12⟩)),
          .enactEpochChange [(1, 1)] [] none 2, .onFinalize fun _ => false,
          .initializeBlock (some (.secondaryPlain ⟨0, 14⟩))] = some last ∧
      last.queued = [] ∧
      last.pallet.enactEpochChange transparentConfig [] [(2, 1)] none 3 = some after ∧
      after.currentEpoch transparentConfig = some epoch ∧
      epoch.authorities = [(1, 1)] ∧ last.announced.authorities = [] :=
  ⟨_, _, _, rfl, rfl, rfl, rfl, rfl, rfl⟩

end Observed

end PolkadotSdk.Babe
