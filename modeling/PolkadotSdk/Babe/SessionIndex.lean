import PolkadotSdk.Babe.EpochRandomness
import PolkadotSdk.Lib.BinarySearch

/-! # The session of an epoch

Sessions follow one another and epochs may be skipped. The pallet remembers where it skipped:
between two such epochs the distance of the epoch index from the session index is constant.
-/

namespace PolkadotSdk.Babe

variable {Id Rand Vrf : Type}

/-- The session that was live in an epoch that existed. The difference is `none` where it
underflows. -/
def Pallet.sessionIndexForEpoch (search : BinarySearch Nat) (pallet : Pallet Id Rand Vrf)
    (epochIndex : Nat) : Option Nat :=
  match search.search (pallet.skippedEpochs.map Prod.fst) epochIndex with
  | .ok index => pallet.skippedEpochs[index]?.map Prod.snd
  | .error 0 => some (min epochIndex (2 ^ 32 - 1))
  | .error (index + 1) =>
    pallet.skippedEpochs[index]?.bind fun closest =>
      if closest.2 ≤ closest.1 then
        some (min (epochIndex - (closest.1 - closest.2)) (2 ^ 32 - 1))
      else none

/-! ## Where a session stands among the epochs that were skipped to -/

/-- The session is as far from the epoch as it was at the last epoch skipped to. -/
structure Placed (skipped : List (Nat × Nat)) (epoch session : Nat) : Prop where
  before : (∀ jump ∈ skipped, epoch < jump.1) → epoch = session
  after : ∀ jump ∈ skipped, jump.1 ≤ epoch →
    (∀ other ∈ skipped, other.1 ≤ epoch → other.1 ≤ jump.1) →
    jump.2 ≤ jump.1 ∧ epoch + jump.2 = session + jump.1

variable {skipped : List (Nat × Nat)} {epoch session : Nat}

theorem Placed.push (h : Placed skipped epoch session) {jump : Nat × Nat}
    (hlater : epoch < jump.1) : Placed (skipped ++ [jump]) epoch session where
  before hall := h.before fun other hother => hall other (List.mem_append_left _ hother)
  after other hother hle hlast := by
    rcases List.mem_append.mp hother with hother | hother
    · exact h.after other hother hle fun k hk => hlast k (List.mem_append_left _ hk)
    · cases List.mem_singleton.mp hother
      omega

theorem placed_jump (hbelow : ∀ jump ∈ skipped, jump.1 < epoch) (hle : session ≤ epoch) :
    Placed (skipped ++ [(epoch, session)]) epoch session where
  before hall := absurd (hall (epoch, session) (by simp)) (Nat.lt_irrefl _)
  after other hother _ hlast := by
    have hself : epoch ≤ other.1 := hlast (epoch, session) (by simp) (Nat.le_refl _)
    rcases List.mem_append.mp hother with hother | hother
    · have := hbelow other hother
      omega
    · cases List.mem_singleton.mp hother
      exact ⟨hle, Nat.add_comm epoch session⟩

theorem Placed.succ (h : Placed skipped epoch session)
    (hbelow : ∀ jump ∈ skipped, jump.1 ≤ epoch) :
    Placed skipped (epoch + 1) (session + 1) where
  before hall := by
    rw [h.before fun jump hjump => by have := hall jump hjump; omega]
  after jump hjump _ hlast := by
    obtain ⟨hle, heq⟩ := h.after jump hjump (hbelow jump hjump) fun other hother hle =>
      hlast other hother (by omega)
    omega

theorem Placed.sessionIndexForEpoch {pallet : Pallet Id Rand Vrf}
    (h : Placed pallet.skippedEpochs epoch session)
    (hsorted : (pallet.skippedEpochs.map Prod.fst).Pairwise (· < ·)) (hsession : session < 2 ^ 32)
    (search : BinarySearch Nat) :
    pallet.sessionIndexForEpoch search epoch = some session := by
  have hle := hsorted.imp (fun hlt => Nat.le_of_lt hlt)
  unfold Pallet.sessionIndexForEpoch
  split
  · rename_i index hsearch
    have hfound := search.found _ _ _ hle hsearch
    rw [List.getElem?_map, Option.map_eq_some_iff] at hfound
    obtain ⟨jump, hjump, rfl⟩ := hfound
    obtain ⟨-, heq⟩ := h.after jump (List.mem_of_getElem? hjump) (Nat.le_refl _)
      fun _ _ hother => hother
    rw [hjump, Option.map_some, Nat.add_left_cancel (heq.trans (Nat.add_comm _ _))]
  · rename_i hsearch
    obtain ⟨-, -, habove⟩ := search.missing _ _ _ hle hsearch
    have heq := h.before fun jump hjump => habove jump.1 (List.mem_map_of_mem hjump)
    rw [heq, Nat.min_eq_left (by omega)]
  · rename_i index hsearch
    obtain ⟨hlength, hbelow, habove⟩ := search.missing _ _ _ hle hsearch
    have hindex : index < pallet.skippedEpochs.length := by simpa using hlength
    have hjump : pallet.skippedEpochs[index].1 < epoch := by
      apply hbelow
      rw [List.mem_take_iff_getElem]
      exact ⟨index, by simp [hindex], by simp⟩
    -- the entries after the position are above the epoch, and those before it are sorted
    have hlast : ∀ other ∈ pallet.skippedEpochs, other.1 ≤ epoch →
        other.1 ≤ pallet.skippedEpochs[index].1 := by
      intro other hother hupto
      obtain ⟨i, hi, rfl⟩ := List.mem_iff_getElem.mp hother
      by_cases hlt : i ≤ index
      · rcases Nat.lt_or_eq_of_le hlt with hlt | rfl
        · exact List.pairwise_iff_getElem.mp (List.pairwise_map.mp hle) i index hi hindex hlt
        · exact Nat.le_refl _
      · have hdrop : pallet.skippedEpochs[i].1 ∈
            (pallet.skippedEpochs.map Prod.fst).drop (index + 1) := by
          rw [List.mem_drop_iff_getElem]
          exact ⟨i - (index + 1), by simp; omega, by simp [Nat.add_sub_cancel' (by omega :
            index + 1 ≤ i)]⟩
        have := habove _ hdrop
        omega
    obtain ⟨hoffset, heq⟩ := h.after _ (List.getElem_mem hindex) (Nat.le_of_lt hjump) hlast
    rw [List.getElem?_eq_getElem hindex, Option.bind_some, if_pos hoffset]
    congr 1
    omega

/-! ## Runs -/

/-- The pallet in a run, with the sessions that its epochs began with, and the skips. -/
structure SessionRun (Id Rand Vrf : Type) where
  observed : Observed Id Rand Vrf
  sessions : Nat
  index : Nat
  lived : List (Nat × Nat)
  skips : Nat

namespace SessionRun

variable {config : Config Id Rand Vrf} {run next : SessionRun Id Rand Vrf}

def genesis (zero : Rand) (authorities : List (Id × Nat)) (epochConfig : BabeEpochConfiguration) :
    SessionRun Id Rand Vrf :=
  ⟨.genesis zero authorities epochConfig, 0, 0, [(0, 0)], 0⟩

def slotIndex (config : Config Id Rand Vrf) (run : SessionRun Id Rand Vrf) : Option Nat :=
  epochIndexOf run.observed.pallet.currentSlot run.observed.pallet.genesisSlot
    config.epochDuration

/-- A call with no authorities begins a session and no epoch. -/
def step (config : Config Id Rand Vrf) (run : SessionRun Id Rand Vrf) (op : PalletOp Id Vrf) :
    Option (SessionRun Id Rand Vrf) :=
  (run.observed.step config op).map fun observed =>
    match op with
    | .enactEpochChange authorities _ _ _ =>
      let called :=
        { run with
          observed
          sessions := run.sessions + 1
          index := (run.slotIndex config).getD run.index }
      if authorities.isEmpty then called
      else
        { called with
          lived := (observed.pallet.epochIndex, run.sessions + 1) :: run.lived
          skips :=
            if run.observed.pallet.epochIndex + 1 = observed.pallet.epochIndex then run.skips
            else run.skips + 1 }
    | _ => { run with observed }

def Increasing (config : Config Id Rand Vrf) (run : SessionRun Id Rand Vrf) :
    PalletOp Id Vrf → Prop
  | .enactEpochChange _ _ sessionIndex _ =>
    sessionIndex = some (run.sessions + 1) ∧ run.sessions + 1 < 2 ^ 32 ∧
      ∃ epochIndex, run.slotIndex config = some epochIndex ∧ run.index < epochIndex
  | _ => True

/-- Epochs are ahead of sessions by at least the calls that were ignored since the last change. -/
structure Mapped (run : SessionRun Id Rand Vrf) : Prop where
  live : ∃ session older, run.lived = (run.observed.pallet.epochIndex, session) :: older ∧
    run.observed.pallet.epochIndex + run.sessions ≤ run.index + session
  ahead : run.sessions ≤ run.index
  lived : ∀ epoch session, (epoch, session) ∈ run.lived →
    epoch ≤ run.observed.pallet.epochIndex ∧ session ≤ run.sessions ∧
      Placed run.observed.pallet.skippedEpochs epoch session
  jumps : ∀ jump ∈ run.observed.pallet.skippedEpochs, jump.1 ≤ run.observed.pallet.epochIndex
  sorted : (run.observed.pallet.skippedEpochs.map Prod.fst).Pairwise (· < ·)
  count : run.observed.pallet.skippedEpochs.length ≤ run.skips
  bound : run.sessions < 2 ^ 32

theorem genesis_mapped (zero : Rand) (authorities : List (Id × Nat))
    (epochConfig : BabeEpochConfiguration) :
    (genesis zero authorities epochConfig : SessionRun Id Rand Vrf).Mapped where
  live := ⟨0, [], rfl, Nat.le_refl _⟩
  ahead := Nat.le_refl _
  lived epoch session hmem := by
    cases List.mem_singleton.mp hmem
    exact ⟨Nat.le_refl _, Nat.le_refl _, fun _ => rfl, by simp [genesis, Observed.genesis,
      Pallet.genesis]⟩
  jumps := by simp [genesis, Observed.genesis, Pallet.genesis]
  sorted := List.Pairwise.nil
  count := Nat.le_refl _
  bound := by simp [genesis]

theorem Mapped.epochIndex_le (h : run.Mapped) : run.observed.pallet.epochIndex ≤ run.index := by
  obtain ⟨session, older, hlived, hahead⟩ := h.live
  have := (h.lived _ session (by rw [hlived]; exact List.mem_cons_self)).2.1
  omega

theorem Mapped.skippedTo (h : run.Mapped) {epochIndex : Nat} (hlater : run.index < epochIndex)
    (hbound : epochIndex + 1 < 2 ^ 64) (hskips : run.observed.pallet.epochIndex + 1 ≠ epochIndex →
      run.skips < maxSkippedEpochs) :
    run.observed.pallet.skippedTo epochIndex (some (run.sessions + 1)) =
      if run.observed.pallet.epochIndex + 1 = epochIndex then run.observed.pallet.skippedEpochs
      else run.observed.pallet.skippedEpochs ++ [(epochIndex, run.sessions + 1)] := by
  have hle := h.epochIndex_le
  have hahead := h.ahead
  have hcount := h.count
  unfold Pallet.skippedTo Pallet.recordSkipped
  rw [Nat.min_eq_left (by omega)]
  by_cases hnext : run.observed.pallet.epochIndex + 1 = epochIndex
  · rw [if_neg (not_not.mpr hnext), if_pos hnext]
  · have hroom := hskips hnext
    dsimp only
    rw [if_pos hnext, if_neg hnext, if_neg (by omega), if_neg (by omega)]

theorem Mapped.enacted (h : run.Mapped) {observed : Observed Id Rand Vrf} {epochIndex : Nat}
    (hlater : run.index < epochIndex) (hbound : epochIndex + 1 < 2 ^ 64)
    (hsession : run.sessions + 1 < 2 ^ 32)
    (hindex : observed.pallet.epochIndex = epochIndex)
    (hskipped : observed.pallet.skippedEpochs =
      run.observed.pallet.skippedTo epochIndex (some (run.sessions + 1)))
    {skips : Nat} (hskips : skips =
      if run.observed.pallet.epochIndex + 1 = epochIndex then run.skips else run.skips + 1)
    (hmax : skips ≤ maxSkippedEpochs) :
    Mapped (⟨observed, run.sessions + 1, epochIndex,
      (observed.pallet.epochIndex, run.sessions + 1) :: run.lived, skips⟩ :
        SessionRun Id Rand Vrf) := by
  have hle := h.epochIndex_le
  have hahead := h.ahead
  rw [h.skippedTo hlater hbound fun hne => by rw [if_neg hne] at hskips; omega] at hskipped
  have hjumps : ∀ jump ∈ run.observed.pallet.skippedEpochs, jump.1 < epochIndex := fun jump hjump =>
    Nat.lt_of_le_of_lt ((h.jumps jump hjump).trans hle) hlater
  refine ⟨⟨run.sessions + 1, run.lived, rfl, by simp [hindex]⟩, by simp; omega, ?_, ?_, ?_, ?_,
    hsession⟩
  all_goals dsimp only
  all_goals rw [hskipped]
  · intro epoch session hmem
    rcases List.mem_cons.mp hmem with heq | hold
    · cases heq
      refine ⟨Nat.le_refl _, Nat.le_refl _, ?_⟩
      rw [hindex]
      split_ifs with hnext
      · -- no call was ignored since the last change
        obtain ⟨last, older, hlived, hgap⟩ := h.live
        obtain ⟨-, hupto, hplaced⟩ := h.lived _ last (by rw [hlived]; exact List.mem_cons_self)
        cases show last = run.sessions by omega
        rw [← hnext]
        exact hplaced.succ h.jumps
      · exact placed_jump hjumps (by omega)
    · obtain ⟨hupto, hstarted, hplaced⟩ := h.lived epoch session hold
      refine ⟨by omega, by omega, ?_⟩
      split_ifs
      · exact hplaced
      · exact hplaced.push (show epoch < epochIndex by omega)
  · intro jump hjump
    rw [hindex]
    split_ifs at hjump
    · exact Nat.le_of_lt (hjumps jump hjump)
    · rcases List.mem_append.mp hjump with hjump | hjump
      · exact Nat.le_of_lt (hjumps jump hjump)
      · cases List.mem_singleton.mp hjump
        exact Nat.le_refl _
  · split_ifs
    · exact h.sorted
    · rw [List.map_append, List.pairwise_append]
      refine ⟨h.sorted, List.pairwise_singleton _ _, fun key hkey other hother => ?_⟩
      obtain ⟨jump, hjump, rfl⟩ := List.mem_map.mp hkey
      cases List.mem_singleton.mp hother
      exact hjumps jump hjump
  · rw [hskips]
    have hcount := h.count
    split_ifs
    · exact hcount
    · simpa using hcount

theorem keeps_epochs {observed after : Observed Id Rand Vrf} {op : PalletOp Id Vrf}
    (hstep : observed.step config op = some after)
    (hop : ∀ authorities next session block,
      op ≠ .enactEpochChange authorities next session block) :
    after.pallet.epochIndex = observed.pallet.epochIndex ∧
      after.pallet.skippedEpochs = observed.pallet.skippedEpochs := by
  cases op with
  | initializeBlock preDigest =>
    cases hstep
    dsimp only
    unfold Pallet.initializeBlock Pallet.enterSlot
    dsimp only
    split
    · exact ⟨rfl, rfl⟩
    · exact ⟨rfl, rfl⟩
    · split_ifs
      · exact ⟨rfl, rfl⟩
      · exact ⟨rfl, rfl⟩
  | planConfigChange change =>
    simp only [Observed.step, Pallet.planConfigChange] at hstep
    split_ifs at hstep
    · cases hstep
      exact ⟨rfl, rfl⟩
    · cases hstep
      exact ⟨rfl, rfl⟩
  | enactEpochChange authorities next session block => exact absurd rfl (hop _ _ _ _)
  | onFinalize isDisabled =>
    obtain ⟨pallet, hfinal, rfl⟩ := Option.map_eq_some_iff.mp hstep
    unfold Pallet.onFinalize Pallet.depositRandomness at hfinal
    dsimp only at hfinal ⊢
    split at hfinal
    · obtain ⟨-, hfinal⟩ := Option.ite_none_left_eq_some.mp hfinal
      cases hfinal
      dsimp only
      split
      · split_ifs
        · exact ⟨rfl, rfl⟩
        · exact ⟨rfl, rfl⟩
      · exact ⟨rfl, rfl⟩
    · cases hfinal
      exact ⟨rfl, rfl⟩

theorem Mapped.observe (h : run.Mapped) {observed : Observed Id Rand Vrf}
    (hindex : observed.pallet.epochIndex = run.observed.pallet.epochIndex)
    (hskipped : observed.pallet.skippedEpochs = run.observed.pallet.skippedEpochs)
    {sessions index : Nat} (hsessions : run.sessions ≤ sessions)
    (hindices : run.index + sessions ≤ index + run.sessions) (hbound : sessions < 2 ^ 32) :
    Mapped (⟨observed, sessions, index, run.lived, run.skips⟩ : SessionRun Id Rand Vrf) := by
  obtain ⟨session, older, hlived, hahead⟩ := h.live
  have := h.ahead
  constructor
  all_goals simp only [hindex, hskipped]
  · exact ⟨session, older, hlived, by omega⟩
  · omega
  · intro epoch session hmem
    obtain ⟨hupto, hstarted, hplaced⟩ := h.lived epoch session hmem
    exact ⟨hupto, hstarted.trans hsessions, hplaced⟩
  · exact h.jumps
  · exact h.sorted
  · exact h.count
  · exact hbound

theorem step_mapped {op : PalletOp Id Vrf} (h : run.skips ≤ maxSkippedEpochs → run.Mapped)
    (hop : run.Increasing config op) (hstep : run.step config op = some next)
    (hmax : next.skips ≤ maxSkippedEpochs) : next.Mapped := by
  obtain ⟨observed, hobserved, rfl⟩ := Option.map_eq_some_iff.mp hstep
  by_cases hcall : ∃ authorities nextAuthorities session block,
      op = .enactEpochChange authorities nextAuthorities session block
  · obtain ⟨authorities, nextAuthorities, session, block, rfl⟩ := hcall
    obtain ⟨rfl, hbound, epochIndex, hslot, hlater⟩ := hop
    simp only [hslot, Option.getD_some] at hmax ⊢
    by_cases hempty : authorities = []
    · subst hempty
      cases hobserved
      exact (h hmax).observe rfl rfl (Nat.le_succ _) (by omega) hbound
    · have hisEmpty : ¬authorities.isEmpty = true := by simpa using hempty
      obtain ⟨pallet, henact, rfl⟩ := Option.map_eq_some_iff.mp hobserved
      obtain ⟨index, hindex, hfits, rfl⟩ := Pallet.enactEpochChange_eq hempty henact
      cases hindex.symm.trans hslot
      simp only [if_neg hisEmpty] at hmax ⊢
      have hbefore : run.skips ≤ maxSkippedEpochs := by
        split_ifs at hmax
        · exact hmax
        · omega
      exact (h hbefore).enacted hlater hfits hbound rfl rfl rfl hmax
  · push Not at hcall
    obtain ⟨hindex, hskipped⟩ := keeps_epochs hobserved hcall
    cases op with
    | enactEpochChange authorities nextAuthorities session block =>
      exact absurd rfl (hcall _ _ _ _)
    | initializeBlock preDigest | planConfigChange change | onFinalize isDisabled =>
      have hmapped := h hmax
      exact hmapped.observe hindex hskipped (Nat.le_refl _) (Nat.le_refl _) hmapped.bound

/-- As long as at most as many changes skip epochs as are remembered, every epoch that existed
is mapped to the session that began with it. -/
theorem session_of_lived_epoch (search : BinarySearch Nat) (zero : Rand)
    (authorities : List (Id × Nat)) (epochConfig : BabeEpochConfiguration)
    (ops : List (PalletOp Id Vrf)) (last : SessionRun Id Rand Vrf)
    (hrun : Run.exec (step config) (genesis zero authorities epochConfig) ops = some last)
    (hincreasing : Run.Along (step config) (Increasing config)
      (genesis zero authorities epochConfig) ops)
    (hskips : last.skips ≤ maxSkippedEpochs) (epoch session : Nat)
    (hlived : (epoch, session) ∈ last.lived) :
    last.observed.pallet.sessionIndexForEpoch search epoch = some session := by
  have hmapped : last.skips ≤ maxSkippedEpochs → last.Mapped :=
    Run.exec_invariant (I := fun run => run.skips ≤ maxSkippedEpochs → run.Mapped)
      (fun _ _ _ h hop hstep => step_mapped h hop hstep)
      (fun _ => genesis_mapped zero authorities epochConfig) hincreasing hrun
  have h := hmapped hskips
  obtain ⟨-, hstarted, hplaced⟩ := h.lived epoch session hlived
  exact hplaced.sessionIndexForEpoch h.sorted (Nat.lt_of_le_of_lt hstarted h.bound) search

def skippingBlocks : List (PalletOp Nat UInt8) :=
  [.initializeBlock (some (.secondaryPlain ⟨0, 10⟩)), .onFinalize fun _ => false,
    .initializeBlock (some (.secondaryPlain ⟨0, 12⟩)),
    .enactEpochChange [(1, 1)] [(1, 1)] (some 1) 2, .onFinalize fun _ => false,
    .initializeBlock (some (.secondaryPlain ⟨0, 18⟩)),
    .enactEpochChange [(1, 1)] [(1, 1)] (some 2) 3, .onFinalize fun _ => false,
    .initializeBlock (some (.secondaryPlain ⟨0, 20⟩)),
    .enactEpochChange [(1, 1)] [(1, 1)] (some 3) 4]

def soleGenesis : SessionRun Nat (List UInt8) UInt8 :=
  genesis [] [(1, 1)] ⟨(1, 4), .primaryAndSecondaryPlainSlots⟩

theorem session_of_lived_epoch_skipped :
    ∃ last, Run.exec (step Observed.transparentConfig) soleGenesis skippingBlocks = some last ∧
      last.lived = [(5, 3), (4, 2), (1, 1), (0, 0)] ∧
      last.observed.pallet.sessionIndexForEpoch (.scan _) 5 = some 3 := by
  obtain ⟨last, hrun⟩ := Option.isSome_iff_exists.mp
    (show (Run.exec (step Observed.transparentConfig) soleGenesis skippingBlocks).isSome from rfl)
  have hlived : last.lived = [(5, 3), (4, 2), (1, 1), (0, 0)] ∧ last.skips = 1 := by
    cases hrun
    exact ⟨rfl, rfl⟩
  refine ⟨last, hrun, hlived.1, session_of_lived_epoch (.scan _) [] [(1, 1)] _ skippingBlocks last
    hrun ?_ (by rw [hlived.2]; decide) 5 3 (by rw [hlived.1]; decide)⟩
  exact ⟨trivial, trivial, trivial, ⟨rfl, by decide, 1, rfl, by decide⟩, trivial, trivial,
    ⟨rfl, by decide, 4, rfl, by decide⟩, trivial, trivial, ⟨rfl, by decide, 5, rfl, by decide⟩,
    trivial⟩

end SessionRun

end PolkadotSdk.Babe
