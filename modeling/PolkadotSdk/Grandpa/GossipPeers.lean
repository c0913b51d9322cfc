import Mathlib

/-! # The peers that are gossiped to

Peers are put into a first and a second stage, in a shuffled order. Authorities go first: two to
the first stage and four to the second. The remaining places of the first stage then go to the
next peers of the order, also to authorities that were set aside for the second stage.
-/

namespace PolkadotSdk.Grandpa.Gossip

inductive ObservedRole where
  | full
  | light
  | authority
  deriving DecidableEq, Repr

def luckyPeers : Nat := 4

structure Stages (P : Type) where
  firstStagePeers : Finset P
  secondStagePeers : Finset P

variable {P : Type} [DecidableEq P]

def allocate : Nat → List P → Stages P → Stages P
  | _, [], stages => stages
  | added, peer :: rest, stages =>
    if added < luckyPeers / 2 then
      allocate (added + 1) rest
        { stages with firstStagePeers := insert peer stages.firstStagePeers }
    else if added < luckyPeers + luckyPeers / 2 then
      allocate (added + 1) rest
        { stages with secondStagePeers := insert peer stages.secondStagePeers }
    else stages

def fillUp (nSecondStagePeers : Nat) : List (P × ObservedRole) → Stages P → Stages P
  | [], stages => stages
  | (peer, role) :: rest, stages =>
    if role = .light then fillUp nSecondStagePeers rest stages
    else if stages.firstStagePeers.card < luckyPeers then
      fillUp nSecondStagePeers rest
        ⟨insert peer stages.firstStagePeers, stages.secondStagePeers.erase peer⟩
    else if stages.secondStagePeers.card < nSecondStagePeers then
      fillUp nSecondStagePeers rest
        (if peer ∉ stages.firstStagePeers then
          { stages with secondStagePeers := insert peer stages.secondStagePeers }
        else stages)
    else stages

omit [DecidableEq P] in
def peersWith (test : ObservedRole → Bool) (shuffledPeers : List (P × ObservedRole)) : List P :=
  shuffledPeers.filterMap fun entry => if test entry.2 then some entry.1 else none

omit [DecidableEq P] in
def shuffledAuthorities (shuffledPeers : List (P × ObservedRole)) : List P :=
  peersWith (fun role => decide (role = .authority)) shuffledPeers

structure Selection (P : Type) extends Stages P where
  luckyLightPeers : Finset P

def reshuffle (nSecondStagePeers : Nat) (shuffledPeers : List (P × ObservedRole)) :
    Selection P where
  toStages := fillUp nSecondStagePeers shuffledPeers
    (allocate 0 (shuffledAuthorities shuffledPeers) ⟨∅, ∅⟩)
  luckyLightPeers :=
    ((peersWith (fun role => decide (role = .light)) shuffledPeers).take luckyPeers).toFinset

/-! ## The two stages in terms of the order -/

omit [DecidableEq P] in
def nonLight (shuffledPeers : List (P × ObservedRole)) : List P :=
  peersWith (fun role => decide (role ≠ .light)) shuffledPeers

def fillPeers (nSecondStagePeers : Nat) : List P → Stages P → Stages P
  | [], stages => stages
  | peer :: rest, stages =>
    if stages.firstStagePeers.card < luckyPeers then
      fillPeers nSecondStagePeers rest
        ⟨insert peer stages.firstStagePeers, stages.secondStagePeers.erase peer⟩
    else if stages.secondStagePeers.card < nSecondStagePeers then
      fillPeers nSecondStagePeers rest
        (if peer ∉ stages.firstStagePeers then
          { stages with secondStagePeers := insert peer stages.secondStagePeers }
        else stages)
    else stages

theorem fillUp_eq (n : Nat) (shuffledPeers : List (P × ObservedRole)) (stages : Stages P) :
    fillUp n shuffledPeers stages = fillPeers n (nonLight shuffledPeers) stages := by
  induction shuffledPeers generalizing stages with
  | nil => rfl
  | cons entry rest ih =>
    obtain ⟨peer, role⟩ := entry
    by_cases hlight : role = .light
    · have hskip : nonLight ((peer, role) :: rest) = nonLight rest := by
        simp [nonLight, peersWith, hlight]
      rw [fillUp, if_pos hlight, ih, hskip]
    · have htake : nonLight ((peer, role) :: rest) = peer :: nonLight rest := by
        simp [nonLight, peersWith, hlight]
      rw [fillUp, if_neg hlight, htake, fillPeers]
      simp only [ih]

theorem allocate_eq (authorities : List P) (added : Nat) (stages : Stages P) :
    allocate added authorities stages =
      ⟨stages.firstStagePeers ∪ (authorities.take (2 - added)).toFinset,
        stages.secondStagePeers ∪
          ((authorities.drop (2 - added)).take (6 - max 2 added)).toFinset⟩ := by
  induction authorities generalizing added stages with
  | nil => simp [allocate]
  | cons peer rest ih =>
    rw [allocate, show luckyPeers = 4 from rfl]
    split_ifs with hfirst hsecond
    · obtain ⟨m, hm⟩ : ∃ m, 2 - added = m + 1 := ⟨1 - added, by omega⟩
      rw [ih, show 2 - (added + 1) = m by omega, show max 2 (added + 1) = max 2 added by omega, hm,
        List.take_succ_cons, List.drop_succ_cons, List.toFinset_cons, Finset.insert_union,
        Finset.union_insert]
    · obtain ⟨m, hm⟩ : ∃ m, 6 - max 2 added = m + 1 := ⟨5 - max 2 added, by omega⟩
      rw [ih, show 2 - (added + 1) = 0 by omega, show 2 - added = 0 by omega,
        show 6 - max 2 (added + 1) = m by omega, hm, List.drop_zero, List.drop_zero,
        List.take_succ_cons, List.toFinset_cons, Finset.insert_union, Finset.union_insert]
      rfl
    · rw [show 2 - added = 0 by omega, show 6 - max 2 added = 0 by omega]
      simp

variable {peer : P} {peers : List P}

theorem filter_insert_of_notMem (h : peer ∉ peers) (s : Finset P) :
    (peers.filter fun x => x ∉ insert peer s) = peers.filter fun x => x ∉ s := by
  refine List.filter_congr fun x hx => ?_
  have hne : x ≠ peer := fun heq => h (heq ▸ hx)
  simp [hne]

def taken (first : Finset P) (peers : List P) : List P :=
  (peers.filter fun peer => peer ∉ first).take (luckyPeers - first.card)

def added (n : Nat) (first second : Finset P) (peers : List P) : List P :=
  (peers.filter fun peer => peer ∉ first ∪ second).take (n - second.card)

theorem fillPeers_second (n : Nat) (hnodup : peers.Nodup) {first : Finset P}
    (hfull : luckyPeers ≤ first.card) (second : Finset P) :
    fillPeers n peers ⟨first, second⟩ =
      ⟨first, second ∪ (added n first second peers).toFinset⟩ := by
  induction peers generalizing second with
  | nil => simp [fillPeers, added]
  | cons peer rest ih =>
    obtain ⟨hpeer, hrest⟩ := List.nodup_cons.mp hnodup
    rw [fillPeers, if_neg (not_lt.mpr hfull)]
    dsimp only
    by_cases hroom : second.card < n
    · rw [if_pos hroom]
      by_cases hfirst : peer ∈ first
      · rw [if_neg (not_not.mpr hfirst), ih hrest, added, added,
          List.filter_cons_of_neg (by simp [hfirst])]
      · rw [if_pos hfirst, ih hrest]
        by_cases hsecond : peer ∈ second
        · rw [Finset.insert_eq_of_mem hsecond, added, added,
            List.filter_cons_of_neg (by simp [hsecond])]
        · obtain ⟨m, hm⟩ : ∃ m, n - second.card = m + 1 := ⟨n - second.card - 1, by omega⟩
          rw [added, added, List.filter_cons_of_pos (by simp [hfirst, hsecond]), hm,
            List.take_succ_cons, List.toFinset_cons, Finset.card_insert_of_notMem hsecond,
            Finset.union_insert, filter_insert_of_notMem hpeer,
            show n - (second.card + 1) = m by omega, Finset.insert_union, Finset.union_insert]
    · rw [if_neg hroom, added, show n - second.card = 0 by omega]
      simp

/-- The first stage takes the next peers, which the second one loses. -/
theorem fillPeers_eq (n : Nat) (hnodup : peers.Nodup) {first second : Finset P}
    (hdisjoint : Disjoint first second) :
    fillPeers n peers ⟨first, second⟩ =
      ⟨first ∪ (taken first peers).toFinset,
        second \ (taken first peers).toFinset ∪
          (added n (first ∪ (taken first peers).toFinset)
            (second \ (taken first peers).toFinset) peers).toFinset⟩ := by
  induction peers generalizing first second with
  | nil => simp [fillPeers, taken, added]
  | cons peer rest ih =>
    obtain ⟨hpeer, hrest⟩ := List.nodup_cons.mp hnodup
    by_cases hroom : first.card < luckyPeers
    · rw [fillPeers, if_pos hroom]
      dsimp only
      by_cases hfirst : peer ∈ first
      · have hsecond : peer ∉ second := Finset.disjoint_left.mp hdisjoint hfirst
        have htaken : taken first (peer :: rest) = taken first rest := by
          rw [taken, taken, List.filter_cons_of_neg (by simp [hfirst])]
        rw [Finset.insert_eq_of_mem hfirst, Finset.erase_eq_of_notMem hsecond,
          ih hrest hdisjoint, htaken, added, added, List.filter_cons_of_neg (by simp [hfirst])]
      · -- the peer is taken, be it from the second stage or from none
        have htaken : taken first (peer :: rest) = peer :: taken (insert peer first) rest := by
          obtain ⟨m, hm⟩ : ∃ m, luckyPeers - first.card = m + 1 :=
            ⟨luckyPeers - first.card - 1, by omega⟩
          rw [taken, taken, List.filter_cons_of_pos (by simp [hfirst]), hm, List.take_succ_cons,
            Finset.card_insert_of_notMem hfirst, filter_insert_of_notMem hpeer,
            show luckyPeers - (first.card + 1) = m by omega]
        have hdisjoint' : Disjoint (insert peer first) (second.erase peer) :=
          Finset.disjoint_insert_left.mpr
            ⟨Finset.notMem_erase _ _, hdisjoint.mono_right (Finset.erase_subset _ _)⟩
        rw [ih hrest hdisjoint', htaken, List.toFinset_cons, Finset.insert_union,
          Finset.union_insert, Finset.erase_sdiff_comm, ← Finset.sdiff_insert, added, added,
          List.filter_cons_of_neg (by simp)]
    · have htaken : taken first (peer :: rest) = [] := by
        rw [taken, show luckyPeers - first.card = 0 by omega, List.take_zero]
      rw [fillPeers_second n hnodup (not_lt.mp hroom), htaken, List.toFinset_nil,
        Finset.union_empty, Finset.sdiff_empty]

/-! ## The quotas -/

variable {shuffledPeers : List (P × ObservedRole)}

omit [DecidableEq P] in
theorem mem_peersWith {test : ObservedRole → Bool} :
    peer ∈ peersWith test shuffledPeers ↔
      ∃ role, (peer, role) ∈ shuffledPeers ∧ test role = true := by
  simp only [peersWith, List.mem_filterMap, Option.ite_none_right_eq_some, Option.some.injEq]
  constructor
  · rintro ⟨entry, hentry, htest, rfl⟩
    exact ⟨entry.2, hentry, htest⟩
  · rintro ⟨role, hentry, htest⟩
    exact ⟨(peer, role), hentry, htest, rfl⟩

omit [DecidableEq P] in
theorem nodup_peersWith (test : ObservedRole → Bool) (h : (shuffledPeers.map Prod.fst).Nodup) :
    (peersWith test shuffledPeers).Nodup := by
  have hsublist : (peersWith test shuffledPeers).Sublist (shuffledPeers.map Prod.fst) := by
    induction shuffledPeers with
    | nil => exact .slnil
    | cons entry rest ih =>
      have hrest := ih (List.nodup_cons.mp h).2
      unfold peersWith at hrest ⊢
      rw [List.map_cons, List.filterMap_cons]
      cases test entry.2 with
      | true => exact hrest.cons_cons _
      | false => exact hrest.cons _
  exact h.sublist hsublist

omit [DecidableEq P] in
theorem not_light_of_mem (h : (shuffledPeers.map Prod.fst).Nodup)
    (hpeer : peer ∈ nonLight shuffledPeers) : (peer, .light) ∉ shuffledPeers := by
  intro hlight
  obtain ⟨role, hmem, htest⟩ := mem_peersWith.mp hpeer
  have heq := List.inj_on_of_nodup_map h hmem hlight rfl
  cases heq
  simp at htest

theorem length_filter_notMem (hnodup : peers.Nodup) {s : Finset P} (hs : ∀ peer ∈ s, peer ∈ peers) :
    (peers.filter fun peer => peer ∉ s).length = peers.length - s.card := by
  have hsub : s ⊆ peers.toFinset := fun peer hpeer => List.mem_toFinset.mpr (hs peer hpeer)
  rw [← List.toFinset_card_of_nodup (hnodup.filter _), ← List.toFinset_card_of_nodup hnodup,
    ← Finset.card_sdiff_of_subset hsub]
  congr 1
  ext peer
  simp

def firstAuthorities (shuffledPeers : List (P × ObservedRole)) : Finset P :=
  ((shuffledAuthorities shuffledPeers).take 2).toFinset

def setAside (shuffledPeers : List (P × ObservedRole)) : Finset P :=
  (((shuffledAuthorities shuffledPeers).drop 2).take 4).toFinset

def nextPeers (shuffledPeers : List (P × ObservedRole)) : Finset P :=
  (taken (firstAuthorities shuffledPeers) (nonLight shuffledPeers)).toFinset

def otherPeers (shuffledPeers : List (P × ObservedRole)) : List P :=
  (nonLight shuffledPeers).filter fun peer =>
    peer ∉ (firstAuthorities shuffledPeers ∪ nextPeers shuffledPeers) ∪
      (setAside shuffledPeers \ nextPeers shuffledPeers)

theorem disjoint_setAside (h : (shuffledPeers.map Prod.fst).Nodup) :
    Disjoint (firstAuthorities shuffledPeers) (setAside shuffledPeers) := by
  have hnodup := nodup_peersWith (fun role => decide (role = .authority)) h
  have hsplit := List.disjoint_take_drop hnodup (Nat.le_refl 2)
  rw [firstAuthorities, setAside, List.disjoint_toFinset_iff_disjoint]
  exact fun peer hfirst hsecond => hsplit hfirst (List.mem_of_mem_take hsecond)

theorem mem_firstAuthorities (h : peer ∈ firstAuthorities shuffledPeers) :
    peer ∈ shuffledAuthorities shuffledPeers :=
  List.mem_of_mem_take (List.mem_toFinset.mp h)

theorem mem_setAside (h : peer ∈ setAside shuffledPeers) :
    peer ∈ shuffledAuthorities shuffledPeers :=
  List.mem_of_mem_drop (List.mem_of_mem_take (List.mem_toFinset.mp h))

theorem mem_nextPeers (h : peer ∈ nextPeers shuffledPeers) :
    peer ∈ nonLight shuffledPeers ∧ peer ∉ firstAuthorities shuffledPeers := by
  have hmem := List.mem_of_mem_take (List.mem_toFinset.mp h)
  simpa using List.mem_filter.mp hmem

omit [DecidableEq P] in
theorem mem_nonLight (h : peer ∈ shuffledAuthorities shuffledPeers) :
    peer ∈ nonLight shuffledPeers := by
  obtain ⟨role, hmem, htest⟩ := mem_peersWith.mp h
  refine mem_peersWith.mpr ⟨role, hmem, ?_⟩
  rw [of_decide_eq_true htest]
  rfl

theorem placed_nonLight (h : peer ∈ (firstAuthorities shuffledPeers ∪ nextPeers shuffledPeers) ∪
      (setAside shuffledPeers \ nextPeers shuffledPeers)) : peer ∈ nonLight shuffledPeers := by
  simp only [Finset.mem_union, Finset.mem_sdiff] at h
  rcases h with (h | h) | ⟨h, -⟩
  · exact mem_nonLight (mem_firstAuthorities h)
  · exact (mem_nextPeers h).1
  · exact mem_nonLight (mem_setAside h)

theorem disjoint_placed (h : (shuffledPeers.map Prod.fst).Nodup) :
    Disjoint (firstAuthorities shuffledPeers ∪ nextPeers shuffledPeers)
      (setAside shuffledPeers \ nextPeers shuffledPeers) := by
  rw [Finset.disjoint_union_left]
  exact ⟨(disjoint_setAside h).mono_right Finset.sdiff_subset, Finset.disjoint_sdiff⟩

theorem mem_otherPeers (h : peer ∈ otherPeers shuffledPeers) :
    peer ∈ nonLight shuffledPeers ∧
      peer ∉ (firstAuthorities shuffledPeers ∪ nextPeers shuffledPeers) ∪
        (setAside shuffledPeers \ nextPeers shuffledPeers) := by
  simpa only [decide_eq_true_eq] using List.mem_filter.mp h

/-- The peers that fill the second stage up. -/
def addedPeers (n : Nat) (shuffledPeers : List (P × ObservedRole)) : List P :=
  (otherPeers shuffledPeers).take (n - (setAside shuffledPeers \ nextPeers shuffledPeers).card)

theorem nodup_addedPeers (h : (shuffledPeers.map Prod.fst).Nodup) (n : Nat) :
    (addedPeers n shuffledPeers).Nodup :=
  ((nodup_peersWith _ h).filter _).sublist (List.take_sublist _ _)

theorem mem_addedPeers {n : Nat} (h : peer ∈ (addedPeers n shuffledPeers).toFinset) :
    peer ∈ nonLight shuffledPeers ∧
      peer ∉ (firstAuthorities shuffledPeers ∪ nextPeers shuffledPeers) ∪
        (setAside shuffledPeers \ nextPeers shuffledPeers) :=
  mem_otherPeers (List.mem_of_mem_take (List.mem_toFinset.mp h))

theorem disjoint_addedPeers (n : Nat) :
    Disjoint (setAside shuffledPeers \ nextPeers shuffledPeers)
      (addedPeers n shuffledPeers).toFinset :=
  Finset.disjoint_left.mpr fun _ hplaced hpeer =>
    (mem_addedPeers hpeer).2 (Finset.mem_union_right _ hplaced)

theorem card_secondAuthorities (h : (shuffledPeers.map Prod.fst).Nodup) (n : Nat) :
    ((setAside shuffledPeers \ nextPeers shuffledPeers ∪
        (addedPeers n shuffledPeers).toFinset).filter
          (· ∈ shuffledAuthorities shuffledPeers)).card =
      (setAside shuffledPeers \ nextPeers shuffledPeers).card +
        (addedPeers n shuffledPeers).countP (· ∈ shuffledAuthorities shuffledPeers) := by
  have hplaced := Finset.filter_true_of_mem
    fun peer (hpeer : peer ∈ setAside shuffledPeers \ nextPeers shuffledPeers) =>
      mem_setAside (Finset.mem_sdiff.mp hpeer).1
  rw [Finset.filter_union, hplaced, Finset.card_union_of_disjoint
      ((disjoint_addedPeers n).mono_right (Finset.filter_subset _ _)),
    List.countP_eq_length_filter, ← List.toFinset_card_of_nodup ((nodup_addedPeers h n).filter _),
    List.toFinset_filter]
  simp only [decide_eq_true_eq]

section Sizes

variable (h : (shuffledPeers.map Prod.fst).Nodup)
  (hauthorities : 2 * luckyPeers ≤ (shuffledAuthorities shuffledPeers).length)

include h hauthorities

theorem card_firstAuthorities : (firstAuthorities shuffledPeers).card = 2 := by
  have hnodup : (shuffledAuthorities shuffledPeers).Nodup := nodup_peersWith _ h
  rw [luckyPeers] at hauthorities
  rw [firstAuthorities, List.toFinset_card_of_nodup (hnodup.sublist (List.take_sublist _ _)),
    List.length_take]
  omega

theorem card_setAside : (setAside shuffledPeers).card = 4 := by
  have hnodup : (shuffledAuthorities shuffledPeers).Nodup := nodup_peersWith _ h
  rw [luckyPeers] at hauthorities
  rw [setAside, List.toFinset_card_of_nodup
    (hnodup.sublist ((List.take_sublist _ _).trans (List.drop_sublist _ _))), List.length_take,
    List.length_drop]
  omega

theorem card_first (hpeers : luckyPeers ≤ (nonLight shuffledPeers).length) :
    (firstAuthorities shuffledPeers ∪ nextPeers shuffledPeers).card = luckyPeers := by
  have hnodup : (nonLight shuffledPeers).Nodup := nodup_peersWith _ h
  have hlength := length_filter_notMem hnodup
    fun peer hpeer => mem_nonLight (mem_firstAuthorities hpeer)
  have hfirst := card_firstAuthorities h hauthorities
  have hnext : (nextPeers shuffledPeers).card = 2 := by
    rw [luckyPeers] at hpeers
    rw [nextPeers, taken, List.toFinset_card_of_nodup
      ((hnodup.filter _).sublist (List.take_sublist _ _)), List.length_take, hlength, hfirst,
      luckyPeers]
    omega
  rw [Finset.card_union_of_disjoint, hfirst, hnext, luckyPeers]
  exact Finset.disjoint_left.mpr fun peer hpeer hnext => (mem_nextPeers hnext).2 hpeer

theorem length_otherPeers (hpeers : luckyPeers ≤ (nonLight shuffledPeers).length) :
    (otherPeers shuffledPeers).length + luckyPeers +
        (setAside shuffledPeers \ nextPeers shuffledPeers).card =
      (nonLight shuffledPeers).length := by
  have hnodup : (nonLight shuffledPeers).Nodup := nodup_peersWith _ h
  have hplaced := length_filter_notMem hnodup fun peer hpeer => placed_nonLight hpeer
  have hcard := Finset.card_union_of_disjoint (disjoint_placed h)
  have hle := List.toFinset_card_of_nodup hnodup ▸ Finset.card_le_card fun peer hpeer =>
    List.mem_toFinset.mpr (placed_nonLight hpeer)
  rw [card_first h hauthorities hpeers] at hcard
  rw [otherPeers, hplaced]
  omega

end Sizes

theorem reshuffle_eq (h : (shuffledPeers.map Prod.fst).Nodup) (n : Nat) :
    (reshuffle n shuffledPeers).toStages =
      ⟨firstAuthorities shuffledPeers ∪ nextPeers shuffledPeers,
        setAside shuffledPeers \ nextPeers shuffledPeers ∪
          (addedPeers n shuffledPeers).toFinset⟩ := by
  have hfill := fillPeers_eq n (nodup_peersWith (fun role => decide (role ≠ .light)) h)
    (disjoint_setAside h)
  rw [reshuffle, fillUp_eq, allocate_eq]
  simp only [Finset.empty_union, Nat.sub_zero]
  exact hfill

/-- The stages are disjoint and without light peers. With enough peers they have their sizes, and
the first one its authorities. The second one has its authorities exactly where the next peers make
up for those it loses to the first one. -/
theorem reshuffle_quotas (hnodup : (shuffledPeers.map Prod.fst).Nodup) {n : Nat}
    (hn : luckyPeers ≤ n) :
    let authorities := shuffledAuthorities shuffledPeers
    let first := (reshuffle n shuffledPeers).firstStagePeers
    let second := (reshuffle n shuffledPeers).secondStagePeers
    let lost := (setAside shuffledPeers ∩ nextPeers shuffledPeers).card
    Disjoint first second ∧ (∀ peer ∈ first ∪ second, (peer, .light) ∉ shuffledPeers) ∧
      (2 * luckyPeers ≤ authorities.length → luckyPeers + n ≤ (nonLight shuffledPeers).length →
        first.card = luckyPeers ∧ luckyPeers / 2 ≤ (first.filter (· ∈ authorities)).card ∧
        second.card = n ∧
        (luckyPeers ≤ (second.filter (· ∈ authorities)).card ↔
          lost ≤ ((otherPeers shuffledPeers).take (n + lost - luckyPeers)).countP
            (· ∈ authorities))) := by
  intro authorities first second lost
  have hfirst : first = firstAuthorities shuffledPeers ∪ nextPeers shuffledPeers :=
    congrArg Stages.firstStagePeers (reshuffle_eq hnodup n)
  have hsecond : second = setAside shuffledPeers \ nextPeers shuffledPeers ∪
      (addedPeers n shuffledPeers).toFinset :=
    congrArg Stages.secondStagePeers (reshuffle_eq hnodup n)
  refine ⟨?_, ?_, fun hauthorities hpeers => ?_⟩
  · rw [hfirst, hsecond, Finset.disjoint_union_right]
    refine ⟨disjoint_placed hnodup, Finset.disjoint_right.mpr fun peer hpeer hplaced => ?_⟩
    exact (mem_addedPeers hpeer).2 (Finset.mem_union_left _ hplaced)
  · intro peer hpeer
    refine not_light_of_mem hnodup ?_
    rw [hfirst, hsecond, ← Finset.union_assoc, Finset.mem_union] at hpeer
    rcases hpeer with hpeer | hpeer
    · exact placed_nonLight hpeer
    · exact (mem_addedPeers hpeer).1
  · have hcard := card_first hnodup hauthorities (by omega)
    have hothers := length_otherPeers hnodup hauthorities (by omega)
    have hlost : _ + lost = _ := Finset.card_sdiff_add_card_inter (setAside shuffledPeers) _
    rw [card_setAside hnodup hauthorities] at hlost
    rw [luckyPeers] at hn hpeers hothers
    refine ⟨hfirst ▸ hcard, ?_, ?_, ?_⟩
    · have hsub : firstAuthorities shuffledPeers ⊆ first.filter (· ∈ authorities) := by
        intro peer hpeer
        rw [Finset.mem_filter, hfirst]
        exact ⟨Finset.mem_union_left _ hpeer, mem_firstAuthorities hpeer⟩
      have hle := Finset.card_le_card hsub
      rwa [card_firstAuthorities hnodup hauthorities] at hle
    · rw [hsecond, Finset.card_union_of_disjoint (disjoint_addedPeers n),
        List.toFinset_card_of_nodup (nodup_addedPeers hnodup n), addedPeers, List.length_take]
      omega
    · have hcount : (otherPeers shuffledPeers).take (n + lost - luckyPeers) =
          addedPeers n shuffledPeers := by
        rw [addedPeers, luckyPeers]
        congr 1
        omega
      rw [hsecond, card_secondAuthorities hnodup, hcount, luckyPeers]
      dsimp only [authorities]
      omega

def fullAmong (before after : Nat) : List (Nat × ObservedRole) :=
  let roles := List.replicate before ObservedRole.authority ++
    List.replicate 2 ObservedRole.full ++ List.replicate after ObservedRole.authority
  roles.zipIdx.map Prod.swap

theorem reshuffle_quotas_fullFirst :
    (reshuffle 4 (fullAmong 0 8)).secondStagePeers.card = 4 ∧
      4 ≤ ((reshuffle 4 (fullAmong 0 8)).secondStagePeers.filter
        (· ∈ shuffledAuthorities (fullAmong 0 8))).card := by
  have h := @reshuffle_quotas _ _ (fullAmong 0 8) (by decide) 4 (by decide)
  obtain ⟨-, -, hsecond, hauthorities⟩ := h.2.2 (by decide) (by decide)
  exact ⟨hsecond, hauthorities.mpr (by decide)⟩

/-- Two authorities that were set aside for the second stage are taken into the first one, and full
peers take their places. -/
theorem reshuffle_loses_authorities :
    let shuffledPeers := fullAmong 4 4
    (shuffledPeers.map Prod.fst).Nodup ∧
      2 * luckyPeers ≤ (shuffledAuthorities shuffledPeers).length ∧
      luckyPeers + 4 ≤ (nonLight shuffledPeers).length ∧
      ((reshuffle 4 shuffledPeers).secondStagePeers.filter
        (· ∈ shuffledAuthorities shuffledPeers)).card = 2 := by
  decide

end PolkadotSdk.Grandpa.Gossip
