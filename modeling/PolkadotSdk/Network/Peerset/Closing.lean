import PolkadotSdk.Network.Peerset.Slots

/-! # What each report and command does

Closing a connected peer that stays reserved, and closing one without telling the backend, happens
only when the reserved-only mode is entered, since that sets every connected peer to closing but
asks only for the regular ones to be closed. A peer that is not reserved is active in the
reserved-only mode only when it is removed from the reserved ones while there is a free slot for
it. A slot is lost when a substream is reported closed that was not reported opened.
-/

namespace PolkadotSdk.Network

open Std

variable {Peer : Type} [LinearOrder Peer]

omit [LinearOrder Peer] in
/-- Candidates are distinct, and there are not more of them than were asked for. -/
def PeerStore.Fair (store : PeerStore Peer) : Prop :=
  ∀ count ignored, (store.outgoingCandidates count ignored).Nodup ∧
    (store.outgoingCandidates count ignored).length ≤ count

namespace Peerset

open PeerState

variable {t : Terms} {s s' counts : Peerset Peer} {peer : Peer} {peers : List Peer}

/-! ## Reports -/

def refused (peer : Peer) (result : OpenResult) : List Peer :=
  if result = .reject then [peer] else []

theorem reportSubstreamOpened_step (s : Peerset Peer) (peer : Peer) :
    Step t s (s.reportSubstreamOpened peer).1 (refused peer (s.reportSubstreamOpened peer).2) []
      [peer] := by
  unfold reportSubstreamOpened
  split
  · rename_i direction hget
    exact .shift (.inl rfl) hget rfl (by simp [isClosing]) (fun _ => ⟨rfl, rfl⟩)
      (by simp [isConnected]) (by simp)
  · rename_i direction hget
    exact .shift (.inl rfl) hget rfl (by simp [refused]) (by simp [isActive])
      (by simp [isConnected]) (by simp)
  · exact .refl ..

theorem reportSubstreamClosed_step (hstrict : t.strict → s.peers[peer]?.all fun state =>
      state.isOpen || state = .disconnected) :
    Step t s (s.reportSubstreamClosed peer) [] [peer] [] := by
  unfold reportSubstreamClosed
  split
  · exact .refl ..
  · rename_i direction hget
    exact .pending (.free hget rfl rfl fun _ => List.mem_singleton.mpr rfl) _
  · rename_i direction hget
    exact .pending (.free hget rfl rfl fun _ => List.mem_singleton.mpr rfl) _
  · rename_i state hconnected hclosing hget
    refine .pending (.leave (fun hterms => cost_idle ?_) (by simp) rfl) _
    have hidle := hstrict hterms
    rw [hget] at hidle ⊢
    cases state with
    | disconnected => rfl
    | connected direction => exact absurd rfl (hconnected direction)
    | closing direction => exact absurd rfl (hclosing direction)
    | backoff | opening | canceled => simp [isOpen, isConnected, isClosing] at hidle

theorem acceptInbound_step (hidle : s.peers[peer]?.bind PeerState.direction? = none)
    (hallowed : s.reservedOnly = true → peer ∈ s.reservedPeers) :
    Step t s (s.acceptInbound peer).1 [] [] [] := by
  have hopen := not_open_of_idle hidle
  unfold acceptInbound
  dsimp only
  split_ifs with hreserved hfree
  · rw [hreserved]
    exact .takes (.opening (.inbound .yes)) (fun _ _ => Iff.rfl) rfl rfl hopen.symm (fun _ => rfl)
      (fun _ _ => cost_idle hidle) (fun _ side h => absurd (by cases side <;> rfl) h)
      fun _ => hallowed
  · rw [Bool.eq_false_iff.mpr hreserved]
    refine .takes (.opening (.inbound .no)) (fun _ _ => Iff.rfl) rfl rfl hopen.symm (fun _ => rfl)
      (fun _ _ => cost_idle hidle) (fun _ side h => ⟨?_, ?_⟩) fun _ => hallowed
    · exact fun hin => hreserved (ExtTreeSet.contains_iff_mem.mpr hin)
    · cases side with
      | inbound => exact hfree
      | outbound => exact absurd rfl h
  · exact .rest hidle rfl

theorem validateInbound_step (s : Peerset Peer) (peer : Peer) :
    Step t s (s.validateInbound peer).1 [] [] [] := by
  have hallowed : ¬ (s.reservedOnly && !s.reservedPeers.contains peer) = true →
      s.reservedOnly = true → peer ∈ s.reservedPeers := by
    intro hreject honly
    rw [← ExtTreeSet.contains_iff_mem]
    simpa [honly] using hreject
  unfold validateInbound
  dsimp only
  split
  · rename_i hget
    split_ifs with hreject
    · exact .refl ..
    · exact acceptInbound_step (by rw [hget]; rfl) (hallowed hreject)
  · rename_i hget
    split_ifs with hfull hreject
    · exact .refl ..
    · exact .refl ..
    · exact acceptInbound_step (by rw [hget]; rfl) (hallowed hreject)
  · rename_i reserved hget
    split_ifs
    · exact .shift (.inl rfl) hget rfl (by simp [isClosing]) (by simp [isActive])
        (by simp [isConnected]) fun _ => rfl
    · exact .refl ..
  · exact .refl ..

theorem enter_step (s : Peerset Peer) (peer : Peer) :
    Step t s { s with peers := s.peers.insertIfNew peer .disconnected } [] [] [] := by
  have heq : { s with peers := s.peers.insertIfNew peer .disconnected } =
      s.put peer (s.peers[peer]?.getD .disconnected) := by
    rw [put]
    congr 1
    refine ExtTreeMap.ext_getElem? fun other => ?_
    rw [OrderedMap.getElem?_insertIfNew, OrderedMap.getElem?_insert]
  rw [heq]
  cases hget : s.peers[peer]? with
  | none => exact .rest (by rw [hget]; rfl) rfl
  | some state => exact .shift (.inl rfl) hget rfl .inl (⟨·, rfl⟩) (fun _ => id) fun _ => rfl

theorem reportInboundSubstream_step (s : Peerset Peer) (store : PeerStore Peer) (peer : Peer) :
    Step t s (s.reportInboundSubstream store peer).1 [] [] [] := by
  unfold reportInboundSubstream
  split_ifs
  · exact .refl ..
  · exact (enter_step s peer).trans (validateInbound_step _ peer) fun _ hin _ => hin

theorem reportSubstreamOpenFailure_step (s : Peerset Peer) (peer : Peer) :
    Step t s (s.reportSubstreamOpenFailure peer) [] [] [] := by
  unfold reportSubstreamOpenFailure
  split
  · rename_i direction hget
    exact .pending (.free hget rfl rfl (by simp [isOpen, isConnected, isClosing])) _
  · rename_i direction hget
    exact .pending (.free hget rfl rfl (by simp [isOpen, isConnected, isClosing])) _
  · exact .refl ..

theorem reportSubstreamRejected_step (s : Peerset Peer) (peer : Peer) :
    Step t s (s.reportSubstreamRejected peer) [] [] [] := by
  unfold reportSubstreamRejected
  split
  · rename_i direction hget
    exact .free hget rfl rfl (by simp [isOpen, isConnected, isClosing])
  · exact .refl ..

/-! ## Peers one after the other -/

/-- Steps for several peers that close none and leave the reserved peers and the mode alone. -/
structure Inner (t : Terms) (s s' : Peerset Peer) : Prop where
  step : Step t s s' [] [] []
  reservedPeers : s'.reservedPeers = s.reservedPeers
  reservedOnly : s'.reservedOnly = s.reservedOnly
  slots : s'.slots = s.slots

theorem Inner.refl (t : Terms) (s : Peerset Peer) : Inner t s s := ⟨.refl .., rfl, rfl, rfl⟩

theorem Inner.put (h : Inner t s s') (hframe : Framed s' counts)
    (hreserved : counts.reservedPeers = s'.reservedPeers) {state : PeerState}
    (hput : Step t s' (counts.put peer state) [] [] []) : Inner t s (counts.put peer state) :=
  ⟨h.step.trans hput fun _ hin _ => h.reservedPeers ▸ hin, hreserved.trans h.reservedPeers,
    hframe.reservedOnly.trans h.reservedOnly, hframe.slots.trans h.slots⟩

structure Expires (t : Terms) (s s' : Peerset Peer) : Prop where
  inner : Inner t s s'
  slots : ∀ direction, s'.shouldDisconnect direction = s.shouldDisconnect direction
  peers : ∀ peer : Peer, s'.peers[peer]? = s.peers[peer]? ∨ s'.peers[peer]? = some .disconnected

theorem Expires.put (h : Expires t s s')
    (hidle : s'.peers[peer]?.bind PeerState.direction? = none) :
    Expires t s (s'.put peer .disconnected) := by
  refine ⟨h.inner.put ⟨rfl, rfl, rfl⟩ rfl (.rest hidle rfl), fun direction => ?_, fun other => ?_⟩
  · rw [← h.slots]
    cases direction <;> rfl
  · rw [put_peers]
    split_ifs
    · exact .inr rfl
    · exact h.peers other

theorem expireBackoffs_expires (s : Peerset Peer) (wake : Wake Peer) :
    Expires t s (s.expireBackoffs wake) := by
  refine List.foldlRecOn _ expireBackoff (motive := Expires t s)
    ⟨⟨.pending (.refl ..) _, rfl, rfl, rfl⟩, fun direction => by cases direction <;> rfl,
      fun _ => .inl rfl⟩ fun state hstate peer _ => ?_
  unfold expireBackoff
  split
  · rename_i hget
    exact hstate.put (by rw [hget]; rfl)
  · rename_i hget
    exact hstate.put (by rw [hget]; rfl)
  · exact hstate

theorem connectReservedPeers_inner (s : Peerset Peer) (store : PeerStore Peer)
    (order : Shuffle Peer) : Inner t s (s.connectReservedPeers store order).1 := by
  refine List.foldlRecOn (order.apply s.reservedPeers.toList) (connectReserved store)
    (motive := fun state : Peerset Peer × List Peer => Inner t s state.1) (.refl t s)
    fun state hstate peer hpeer => ?_
  unfold connectReserved
  split_ifs with hget hbanned
  · exact hstate
  · exact hstate
  · have hin : peer ∈ s.reservedPeers := ExtTreeSet.mem_toList.mp (order.mem_apply.mp hpeer)
    have hidle : state.1.peers[peer]?.bind PeerState.direction? = none := by
      rw [not_not.mp hget]
      rfl
    exact hstate.put ⟨rfl, rfl, rfl⟩ rfl (.takes (.opening (.outbound .yes)) (fun _ _ => Iff.rfl)
      rfl rfl (not_open_of_idle hidle).symm (fun _ => rfl) (fun _ _ => cost_idle hidle)
      (fun _ side h => absurd (by cases side <;> rfl) h) fun _ _ => hstate.reservedPeers ▸ hin)

theorem openCandidates_inner
    (hidle : ∀ peer ∈ peers, s.peers[peer]?.bind PeerState.direction? = none)
    (hallowed : s.reservedOnly = false ∨ peers = [])
    (hstrict : t.strict → peers.Nodup ∧ s.numOut + peers.length ≤ s.maxOut ∧
      ∀ peer ∈ peers, peer ∉ s.reservedPeers) :
    Inner t s { peers.foldl (fun s peer => s.put peer (.opening (.outbound .no))) s with
      numOut := s.numOut + peers.length } ∧
    ∀ peer : Peer, (peers.foldl (fun s peer => s.put peer (.opening (.outbound .no))) s).peers[peer]? =
      if peer ∈ peers then some (.opening (.outbound .no)) else s.peers[peer]? := by
  induction peers using List.reverseRecOn with
  | nil => exact ⟨.refl t s, fun _ => rfl⟩
  | append_singleton peers peer ih =>
    have honly : s.reservedOnly = false := hallowed.resolve_right (by simp)
    obtain ⟨hinner, hpeers⟩ := ih (fun other hother => hidle other (List.mem_append_left _ hother))
      (.inl honly) fun hterms => by
        obtain ⟨hnodup, hle, hout⟩ := hstrict hterms
        rw [List.length_append, List.length_singleton] at hle
        exact ⟨hnodup.of_append_left, by omega, fun other hother =>
          hout other (List.mem_append_left _ hother)⟩
    simp only [List.foldl_append, List.foldl_cons, List.foldl_nil, List.length_append,
      List.length_singleton]
    generalize peers.foldl (fun s peer => s.put peer (.opening (.outbound .no))) s = mid
      at hinner hpeers ⊢
    have hget := hidle peer (by simp)
    refine ⟨?_, fun other => ?_⟩
    · have hopens : Step t { mid with numOut := s.numOut + peers.length }
          (({ mid with numOut := s.numOut + peers.length }.incrementSlot (.outbound .no)).put peer
            (.opening (.outbound .no))) [] [] [] := by
        refine .takes (.opening (.outbound .no)) (fun _ _ => Iff.rfl) rfl rfl (Eq.symm ?_) (fun _ => rfl)
          (fun hterms _ => cost_idle ?_) (fun hterms side hside => ?_) ?_
        · unfold is
          dsimp only
          rw [hpeers]
          split_ifs
          · rfl
          · exact not_open_of_idle hget
        · have hnew : peer ∉ peers := by
            have hnodup := (hstrict hterms).1
            rw [List.nodup_append] at hnodup
            exact fun hin => hnodup.2.2 peer hin peer (by simp) rfl
          simp [hpeers, hnew, hget]
        · obtain ⟨-, hle, hout⟩ := hstrict hterms
          refine ⟨hinner.reservedPeers ▸ hout peer (by simp), ?_⟩
          rw [hinner.slots]
          rw [List.length_append, List.length_singleton] at hle
          cases side with
          | inbound => exact absurd rfl hside
          | outbound => exact show s.numOut + peers.length < s.maxOut by omega
        · intro _ htrue
          rw [hinner.reservedOnly, honly] at htrue
          cases htrue
      exact hinner.put (framed_incrementSlot _).1 (framed_incrementSlot _).2 hopens
    · rw [put_peers, hpeers]
      by_cases heq : peer = other
      · simp [heq]
      · simp [heq, Ne.symm heq]

theorem allocateSlots_inner (s : Peerset Peer) (store : PeerStore Peer) (order : Shuffle Peer)
    (hstrict : t.strict → store.Fair) :
    Inner t s (s.allocateSlots store order).1 ∧
      ((s.allocateSlots store order).2.map (·.closePeers)).getD [] = [] := by
  have hconnect := s.connectReservedPeers_inner (t := t) store order
  unfold allocateSlots
  dsimp only
  generalize (s.connectReservedPeers store order).1 = mid at hconnect ⊢
  refine ⟨?_, by split_ifs <;> rfl⟩
  have hopen : Inner t mid { (if mid.numOut < mid.maxOut && !mid.reservedOnly then
      store.outgoingCandidates (mid.maxOut - mid.numOut) mid.ignored else []).foldl
      (fun s peer => s.put peer (.opening (.outbound .no))) mid with
      numOut := mid.numOut + (if mid.numOut < mid.maxOut && !mid.reservedOnly then
        store.outgoingCandidates (mid.maxOut - mid.numOut) mid.ignored else []).length } := by
    split_ifs with hfree
    · rw [Bool.and_eq_true, Bool.not_eq_true', decide_eq_true_eq] at hfree
      have hnot := store.not_ignored (mid.maxOut - mid.numOut) mid.ignored
      refine (openCandidates_inner (fun peer hpeer => ?_) (.inl hfree.2) fun hterms => ?_).1
      · cases hget : mid.peers[peer]? with
        | none => rfl
        | some known =>
          by_contra hbusy
          refine hnot peer hpeer (List.mem_append_left _ (List.mem_map.mpr ⟨(peer, known), ?_, rfl⟩))
          rw [List.mem_filter, OrderedMap.mem_toList_iff]
          refine ⟨hget, ?_⟩
          cases known <;> simp_all [PeerState.direction?]
      · obtain ⟨hnodup, hlength⟩ := hstrict hterms (mid.maxOut - mid.numOut) mid.ignored
        exact ⟨hnodup, by omega, fun peer hpeer hin => hnot peer hpeer
          (List.mem_append_right _ (ExtTreeSet.mem_toList.mpr hin))⟩
    · exact .refl t mid
  exact ⟨hconnect.step.trans hopen.step fun _ hin _ => hconnect.reservedPeers ▸ hin,
    hopen.reservedPeers.trans hconnect.reservedPeers,
    hopen.reservedOnly.trans hconnect.reservedOnly, hopen.slots.trans hconnect.slots⟩

/-! ## Commands -/

structure Adjusts (t : Terms) (s : Peerset Peer) (peers : List Peer)
    (state : Peerset Peer × Nat × Nat) : Prop where
  inner : Inner ⟨False, t.clear, t.full⟩ s state.1
  taken : state.1.taken = s.taken
  inbound : state.1.regular .inbound + state.2.1 = s.regular .inbound
  outbound : state.1.regular .outbound + state.2.2 = s.regular .outbound
  cost : ∀ (peer : Peer) direction, cost direction state.1.peers[peer]? ≤
    if peer ∈ peers then 0 else cost direction s.peers[peer]?

theorem cost_reserve (state : PeerState) (direction : TraitsDirection) :
    cost direction (some state.reserve) = 0 := by
  cases direction <;> rcases state with _ | _ | ⟨_ | _⟩ | ⟨_ | _⟩ | ⟨_ | _⟩ | ⟨_ | _⟩ <;>
    simp [cost, PeerState.reserve, PeerState.direction?, Direction.setReserved]

theorem Adjusts.step {state : Peerset Peer × Nat × Nat} (h : Adjusts t s peers state)
    (peer : Peer) : Adjusts t s (peers ++ [peer]) (adjustSlot state peer) := by
  have hput : ∀ (next : PeerState) (inPeers outPeers : Nat),
      (∀ direction, Peerset.cost direction (some next) = 0) →
      Step ⟨False, t.clear, t.full⟩ state.1 (state.1.put peer next) [] [] [] →
      inPeers = state.2.1 + Peerset.cost .inbound state.1.peers[peer]? →
      outPeers = state.2.2 + Peerset.cost .outbound state.1.peers[peer]? →
      Adjusts t s (peers ++ [peer]) (state.1.put peer next, inPeers, outPeers) := by
    rintro next _ _ hnext hstep rfl rfl
    have hin := state.1.regular_put peer next .inbound
    have hout := state.1.regular_put peer next .outbound
    have hinbound := h.inbound
    have houtbound := h.outbound
    rw [hnext] at hin hout
    refine ⟨h.inner.put ⟨rfl, rfl, rfl⟩ rfl hstep, h.taken, by dsimp only; omega,
      by dsimp only; omega, fun other direction => ?_⟩
    rw [put_peers]
    by_cases heq : peer = other
    · simp [heq, hnext]
    · simpa [heq, Ne.symm heq] using h.cost other direction
  unfold adjustSlot
  split
  · rename_i hget
    refine hput _ _ _ (cost_idle rfl) (.rest (by rw [hget]; rfl) rfl) ?_ ?_ <;> rw [hget] <;> rfl
  · rename_i known hget
    refine hput _ _ _ (cost_reserve known) ?_ (by rw [hget]; rfl) (by rw [hget]; rfl)
    refine .turn ⟨rfl, rfl, rfl⟩ (fun _ _ => Iff.rfl) (fun _ direction => ?_) False.elim
      (fun _ hclosing => .inl ?_) (fun _ _ _ hconnected => .inl ?_)
      (fun _ _ hactive hout => ⟨?_, hout⟩) fun _ _ => ?_
    · rw [cost_reserve]
      omega
    · rw [is_of_get hget]
      cases known <;> exact hclosing
    · rw [is_of_get hget] at hconnected
      cases known <;> exact hconnected
    · rw [is_of_get hget]
      cases known <;> exact hactive
    · rw [is_of_get hget]
      cases known <;> rfl

theorem foldl_adjustSlot (t : Terms) (s : Peerset Peer) (peers : List Peer) :
    Adjusts t s peers (s.calculateSlotAdjustment peers) := by
  unfold calculateSlotAdjustment
  induction peers using List.reverseRecOn with
  | nil => exact ⟨.refl _ s, rfl, rfl, rfl, fun _ _ => Nat.le_refl _⟩
  | append_singleton peers peer ih =>
    rw [List.foldl_append, List.foldl_cons, List.foldl_nil]
    exact ih.step peer

theorem adjustSlots_inner (hs : s.Balanced t.strict) (peers : List Peer) :
    ∃ s', s.adjustSlots peers = some s' ∧ Inner t s s' ∧
      ∀ (peer : Peer) direction, cost direction s'.peers[peer]? ≤
        if peer ∈ peers then 0 else cost direction s.peers[peer]? := by
  have h := foldl_adjustSlot t s peers
  unfold adjustSlots
  generalize s.calculateSlotAdjustment peers = state at h
  obtain ⟨mid, inPeers, outPeers⟩ := state
  obtain ⟨hinner, htaken, hin, hout, hcost⟩ := h
  have hnumIn : mid.numIn = s.numIn := congrFun htaken .inbound
  have hnumOut : mid.numOut = s.numOut := congrFun htaken .outbound
  have hregularIn : s.regular .inbound ≤ s.numIn := hs.counted .inbound
  have hregularOut : s.regular .outbound ≤ s.numOut := hs.counted .outbound
  dsimp only at hin hout hcost ⊢
  rw [if_pos ⟨by omega, by omega⟩]
  refine ⟨_, rfl, ⟨⟨fun hs => ⟨fun direction => ?_, fun hterms direction => ?_,
    fun hterms peer hpeer direction => ?_⟩, hinner.step.closing, hinner.step.connected,
    hinner.step.excludes, hinner.step.streams⟩, hinner.reservedPeers, hinner.reservedOnly, hinner.slots⟩, hcost⟩
  · cases direction with
    | inbound => exact show mid.regular .inbound ≤ mid.numIn - inPeers by omega
    | outbound => exact show mid.regular .outbound ≤ mid.numOut - outPeers by omega
  · obtain ⟨hle, hslots⟩ := hs.exact hterms direction
    have hsame : mid.slots direction = s.slots direction := congrFun hinner.slots direction
    cases direction with
    | inbound =>
      simp only [taken, slots] at hle hslots hsame
      exact show mid.numIn - inPeers ≤ mid.regular .inbound ∧ mid.numIn - inPeers ≤ mid.maxIn by
        omega
    | outbound =>
      simp only [taken, slots] at hle hslots hsame
      exact show mid.numOut - outPeers ≤ mid.regular .outbound ∧
        mid.numOut - outPeers ≤ mid.maxOut by omega
  · have hzero := hs.marked hterms peer (hinner.reservedPeers ▸ hpeer) direction
    have hle := hcost peer direction
    change cost direction mid.peers[peer]? = 0
    split_ifs at hle <;> omega

theorem disconnectPeer_step (s : Peerset Peer) (peer : Peer) :
    Step t s (s.disconnectPeer peer).1 (((s.disconnectPeer peer).2.map (·.closePeers)).getD [])
      [] [] := by
  unfold disconnectPeer
  split_ifs with hin
  · exact .refl ..
  · have hout : peer ∉ s.reservedPeers := fun h => hin (ExtTreeSet.contains_iff_mem.mpr h)
    split
    · rename_i direction hget
      exact .shift (.inl rfl) hget rfl (fun _ => .inr (List.mem_singleton.mpr rfl))
        (by simp [isActive]) (fun hin => absurd hin hout) fun _ => rfl
    · rename_i direction hget
      exact .shift (.inl rfl) hget rfl (by simp [isClosing]) (by simp [isActive])
        (fun hin => absurd hin hout) fun _ => rfl
    · exact .refl ..

theorem Step.regular {reservedPeers : ExtTreeSet Peer} {direction : Direction}
    {state : Direction → PeerState}
    (hreserved : ∀ other, other ≠ peer → (other ∈ reservedPeers ↔ other ∈ s.reservedPeers))
    (hstate : ∀ direction, (state direction).direction? = some direction)
    (hclosing : ∀ direction, (state direction).isClosing = false)
    (hopen : ∀ direction, (state direction).isOpen = s.is isOpen peer)
    (hout : peer ∉ reservedPeers) (hfree : s.shouldDisconnect direction = false)
    (hcost : t.strict → s.Balanced t.strict → ∀ side, cost side s.peers[peer]? = 0)
    (hmode : t.full → s.reservedOnly = false) :
    Step t s (makeRegular { s with reservedPeers := reservedPeers } peer direction state)
      [] [] [] := by
  refine .takes _ hreserved (hstate _) (hclosing _) (hopen _) (fun hin => absurd hin hout) hcost
    (fun _ side hside => ⟨hout, ?_⟩) fun hterms honly => absurd honly (by simp [hmode hterms])
  cases direction <;> cases side <;>
    simp [cost, hstate, Direction.setReserved, shouldDisconnect, taken, slots] at hfree hside ⊢ <;>
    omega

theorem inactive_of_get
    (hconnected : ∀ direction, s.peers[peer]? = some (.connected direction) → False)
    (hopening : ∀ direction, s.peers[peer]? = some (.opening direction) → False) :
    s.is isActive peer = false := by
  cases hget : s.peers[peer]? with
  | none => simp [is, hget]
  | some known =>
    rw [is_of_get hget]
    cases known with
    | opening direction => exact (hopening direction hget).elim
    | connected direction => exact (hconnected direction hget).elim
    | disconnected | backoff | canceled | closing => rfl

/-- Peers that are not in the new reserved set are closed or canceled, or kept as regular ones. -/
structure Replaces (t : Terms) (s : Peerset Peer) (peers : List Peer)
    (state : Peerset Peer × List Peer) : Prop where
  step : Step t s state.1 state.2 [] []
  reservedPeers : state.1.reservedPeers = s.reservedPeers
  reservedOnly : state.1.reservedOnly = s.reservedOnly
  others : ∀ peer ∉ peers, state.1.peers[peer]? = s.peers[peer]?
  active : s.reservedOnly = true → ∀ peer ∈ peers, state.1.is isActive peer = false

variable {state : Peerset Peer × List Peer}

theorem Replaces.put (h : Replaces t s peers state) (hframe : Framed state.1 counts)
    (hreserved : counts.reservedPeers = state.1.reservedPeers) {next : PeerState}
    {asked : List Peer} (hstep : Step t state.1 (counts.put peer next) asked [] [])
    (hactive : s.reservedOnly = true → next.isActive = false) :
    Replaces t s (peers ++ [peer]) (counts.put peer next, state.2 ++ asked) := by
  refine ⟨h.step.trans hstep fun _ hin _ => h.reservedPeers ▸ hin,
    hreserved.trans h.reservedPeers, hframe.reservedOnly.trans h.reservedOnly,
    fun other hother => ?_, fun honly other hother => ?_⟩
  · rw [List.mem_append, List.mem_singleton, not_or] at hother
    rw [put_peers, if_neg (Ne.symm hother.2), hframe.peers]
    exact h.others other hother.1
  · rw [is_put hframe.peers]
    split_ifs with heq
    · exact hactive honly
    · rw [List.mem_append, List.mem_singleton] at hother
      exact h.active honly other (hother.resolve_right (Ne.symm heq))

theorem Replaces.next (h : Replaces t s peers state) (hnew : peer ∉ peers)
    (hout : peer ∉ s.reservedPeers)
    (hcost : t.strict → ∀ side, cost side s.peers[peer]? = 0) :
    Replaces t s (peers ++ [peer]) (replaceReserved state peer) := by
  have hout' : peer ∉ state.1.reservedPeers := h.reservedPeers ▸ hout
  unfold replaceReserved
  split
  · rename_i direction hget
    split_ifs with hclose
    · exact h.put ⟨rfl, rfl, rfl⟩ rfl (.shift (.inl rfl) hget rfl
        (fun _ => .inr (List.mem_singleton.mpr rfl)) (by simp [isActive])
        (fun hin => absurd hin hout') fun _ => rfl) fun _ => rfl
    · rw [Bool.or_eq_true, not_or, Bool.not_eq_true, Bool.not_eq_true] at hclose
      rw [← List.append_nil state.2]
      exact h.put (framed_incrementSlot _).1 (framed_incrementSlot _).2
        (.regular (fun _ _ => Iff.rfl) (fun _ => rfl) (fun _ => rfl)
          (fun _ => by rw [is_of_get hget]; rfl) hout' hclose.2
          (fun hterms _ => h.others peer hnew ▸ hcost hterms) fun _ => hclose.1)
        fun honly => absurd honly (by rw [← h.reservedOnly, hclose.1]; exact Bool.false_ne_true)
  · rename_i direction hget
    rw [← List.append_nil state.2]
    exact h.put ⟨rfl, rfl, rfl⟩ rfl (.shift (.inl rfl) hget rfl (by simp [isClosing])
      (by simp [isActive]) (fun hin => absurd hin hout') fun _ => rfl) fun _ => rfl
  · rename_i hconnected hopening
    refine ⟨h.step, h.reservedPeers, h.reservedOnly, fun other hother => ?_,
      fun honly other hother => ?_⟩
    · rw [List.mem_append, not_or] at hother
      exact h.others other hother.1
    · rw [List.mem_append, List.mem_singleton] at hother
      rcases hother with hother | rfl
      · exact h.active honly other hother
      · exact inactive_of_get hconnected hopening

theorem foldl_replaceReserved (hnodup : peers.Nodup)
    (hout : ∀ peer ∈ peers, peer ∉ s.reservedPeers)
    (hcost : t.strict → ∀ peer ∈ peers, ∀ side, cost side s.peers[peer]? = 0) :
    Replaces t s peers (peers.foldl replaceReserved (s, [])) := by
  induction peers using List.reverseRecOn with
  | nil => exact ⟨.refl .., rfl, rfl, fun _ _ => rfl, by simp⟩
  | append_singleton peers peer ih =>
    rw [List.foldl_append, List.foldl_cons, List.foldl_nil]
    rw [List.nodup_append] at hnodup
    exact (ih hnodup.1 (fun other hother => hout other (List.mem_append_left _ hother))
      fun hterms other hother => hcost hterms other (List.mem_append_left _ hother)).next
      (fun hin => hnodup.2.2 peer hin peer (by simp) rfl) (hout peer (by simp))
      fun hterms => hcost hterms peer (by simp)

theorem setReservedPeers_step (hs : s.Balanced t.strict) (store : PeerStore Peer)
    (order : Shuffle Peer) (peers : List Peer) :
    ∃ s' command, s.setReservedPeers store order peers = some (s', command) ∧
      Step t s s' command.closePeers [] [] := by
  obtain ⟨adjusted, hadjust, hinner, hcost⟩ := adjustSlots_inner hs peers
  have hmid := hinner.step.balanced hs
  unfold setReservedPeers
  rw [hadjust]
  have hmem : ∀ peer, peer ∈ order.apply (adjusted.reservedPeers.toList.filter (· ∉ peers)) ↔
      peer ∈ adjusted.reservedPeers ∧ peer ∉ peers := by
    intro peer
    rw [Shuffle.mem_apply, List.mem_filter, ExtTreeSet.mem_toList]
    simp
  have hnodup : (order.apply (adjusted.reservedPeers.toList.filter (· ∉ peers))).Nodup :=
    (order.perm _).nodup_iff.mpr
      ((ExtTreeSet.distinct_toList.imp fun hne heq => hne (by simp [heq])).filter _)
  refine ⟨_, _, rfl, ?_⟩
  dsimp only
  generalize order.apply (adjusted.reservedPeers.toList.filter (· ∉ peers)) = removed
    at hmem hnodup ⊢
  have hnew : ∀ peer : Peer, peer ∈ ExtTreeSet.ofList peers ↔ peer ∈ peers := by
    intro peer
    simp [ExtTreeSet.mem_ofList]
  have hreplaces := foldl_replaceReserved (t := t)
    (s := { adjusted with reservedPeers := ExtTreeSet.ofList peers }) hnodup
    (fun peer hpeer hin => ((hmem peer).mp hpeer).2 ((hnew peer).mp hin))
    fun hterms peer hpeer => hmid.marked hterms peer ((hmem peer).mp hpeer).1
  generalize removed.foldl replaceReserved
    ({ adjusted with reservedPeers := ExtTreeSet.ofList peers }, []) = replaced at hreplaces ⊢
  have hconnect := replaced.1.connectReservedPeers_inner (t := t) store order
  have hfirst : Step t adjusted replaced.1 replaced.2 [] [] := by
    refine ⟨fun _ => hreplaces.step.balanced ⟨hmid.counted, hmid.exact, fun hterms peer hpeer side =>
      ?_⟩, hreplaces.step.closing, fun _ peer _ hin' hconnected => .inl ?_,
      fun _ honly peer hactive hout => ?_, hreplaces.step.streams⟩
    · have hle := hcost peer side
      rw [if_pos ((hnew peer).mp hpeer)] at hle
      exact Nat.le_zero.mp hle
    · rw [hreplaces.reservedPeers] at hin'
      rw [is_congr (hreplaces.others peer fun hout => ((hmem peer).mp hout).2 ((hnew peer).mp hin'))]
      exact hconnected
    · rw [hreplaces.reservedOnly] at honly
      rw [hreplaces.reservedPeers] at hout
      have hkept : peer ∉ removed := by
        intro hin
        rw [hreplaces.active honly peer hin] at hactive
        cases hactive
      rw [is_congr (hreplaces.others peer hkept)] at hactive
      exact ⟨honly, hactive, fun hin => hkept ((hmem peer).mpr ⟨hin, fun hpeers =>
        hout ((hnew peer).mpr hpeers)⟩)⟩
  have hstep := (hinner.step.trans hfirst fun _ hin _ => hinner.reservedPeers ▸ hin).trans
    hconnect.step fun _ _ hin => hconnect.reservedPeers ▸ hin
  rwa [List.nil_append, List.append_nil] at hstep

theorem addReserved_step (state : Peerset Peer × List Peer) (peer : Peer)
    (hcost : t.strict → ∀ side, cost side state.1.peers[peer]? = 0) :
    Step t state.1 (addReserved state peer).1 [] [] [] ∧
      (∀ other ∈ state.1.reservedPeers, other ∈ (addReserved state peer).1.reservedPeers) ∧
      ∀ (other : Peer) side, cost side (addReserved state peer).1.peers[other]? ≤
        cost side state.1.peers[other]? := by
  unfold addReserved
  split_ifs
  · exact ⟨.refl .., fun _ hin => hin, fun _ _ => Nat.le_refl _⟩
  · have hinserted : ∀ other ∈ state.1.reservedPeers,
        other ∈ state.1.reservedPeers.insert peer :=
      fun other hin => OrderedMap.mem_insert.mpr (.inr hin)
    have henlist : Step t state.1
        { state.1 with reservedPeers := state.1.reservedPeers.insert peer } [] [] [] := by
      refine ⟨fun hs => ⟨hs.counted, hs.exact, fun hterms other hin => ?_⟩, fun _ _ => .inl,
        fun _ _ _ _ => .inl, fun _ honly other hactive hout =>
          ⟨honly, hactive, fun hin => hout (hinserted other hin)⟩, fun _ _ _ => rfl⟩
      rcases OrderedMap.mem_insert.mp hin with rfl | hin
      · exact hcost hterms
      · exact hs.marked hterms other hin
    have hopens : state.1.peers[peer]?.bind PeerState.direction? = none →
        Step t state.1 (put { state.1 with reservedPeers := state.1.reservedPeers.insert peer } peer
          (.opening (.outbound .yes))) [] [] [] ∧
        (∀ other ∈ state.1.reservedPeers, other ∈ state.1.reservedPeers.insert peer) ∧
        ∀ (other : Peer) side, cost side (put { state.1 with
          reservedPeers := state.1.reservedPeers.insert peer } peer
            (.opening (.outbound .yes))).peers[other]? ≤ cost side state.1.peers[other]? := by
      intro hidle
      refine ⟨.takes (.opening (.outbound .yes))
        (fun _ hne => OrderedMap.mem_insert.trans (or_iff_right hne)) rfl rfl
        (not_open_of_idle hidle).symm (fun _ => rfl) (fun _ _ => cost_idle hidle)
        (fun _ side h => absurd (by cases side <;> rfl) h)
        fun _ _ => OrderedMap.mem_insert.mpr (.inl rfl), hinserted, fun other side => ?_⟩
      rw [put_peers]
      split_ifs
      · cases side <;> exact Nat.zero_le _
      · exact Nat.le_refl _
    dsimp only
    split
    · rename_i hget
      exact hopens (by rw [hget]; rfl)
    · rename_i hget
      exact hopens (by rw [hget]; rfl)
    · exact ⟨henlist, hinserted, fun _ _ => Nat.le_refl _⟩

theorem addReservedPeers_step (hs : s.Balanced t.strict) (peers : List Peer) :
    ∃ s' command, s.addReservedPeers peers = some (s', command) ∧
      Step t s s' command.closePeers [] [] := by
  obtain ⟨adjusted, hadjust, hinner, hcost⟩ := adjustSlots_inner hs peers
  unfold addReservedPeers
  rw [hadjust]
  refine ⟨_, _, rfl, ?_⟩
  refine (List.foldlRecOn peers addReserved (b := (adjusted, []))
    (motive := fun state : Peerset Peer × List Peer => Step t s state.1 [] [] [] ∧
      (∀ peer ∈ s.reservedPeers, peer ∈ state.1.reservedPeers) ∧
      ∀ peer ∈ peers, ∀ side, cost side state.1.peers[peer]? = 0)
    ⟨hinner.step, fun _ hin => hinner.reservedPeers ▸ hin, fun peer hpeer side => ?_⟩
    fun state ⟨hstep, hkept, hzero⟩ peer hpeer => ?_).1
  · have hle := hcost peer side
    rw [if_pos hpeer] at hle
    exact Nat.le_zero.mp hle
  · obtain ⟨hstep', hkept', hle⟩ := addReserved_step (t := t) state peer fun _ => hzero peer hpeer
    exact ⟨hstep.trans hstep' fun other hin _ => hkept other hin,
      fun other hin => hkept' other (hkept other hin),
      fun other hother side => Nat.le_zero.mp ((hle other side).trans_eq (hzero other hother side))⟩

/-- There is no free slot for a reserved peer of the list that is connected or opening. -/
def Full (s : Peerset Peer) (peers : List Peer) : Prop :=
  ∀ peer ∈ peers, peer ∈ s.reservedPeers → ∀ state ∈ s.peers[peer]?, state.isActive = true →
    ∀ direction ∈ state.direction?, s.shouldDisconnect direction = true

instance (s : Peerset Peer) (peers : List Peer) : Decidable (s.Full peers) :=
  inferInstanceAs (Decidable (∀ _ ∈ _, _))

/-- The peers that are still reserved were not looked at. In the reserved-only mode no slot is
taken. -/
structure Removes (t : Terms) (s : Peerset Peer) (state : Peerset Peer × List Peer) : Prop where
  step : Step t s state.1 state.2 [] []
  reserved : ∀ peer ∈ state.1.reservedPeers,
    peer ∈ s.reservedPeers ∧ state.1.peers[peer]? = s.peers[peer]?
  reservedOnly : state.1.reservedOnly = s.reservedOnly
  slots : t.full → s.reservedOnly = true → ∀ direction,
    state.1.shouldDisconnect direction = s.shouldDisconnect direction

theorem Removes.put (h : Removes t s state) {next : PeerState} {asked : List Peer}
    (hframe : Framed state.1 counts)
    (hreserved : counts.reservedPeers = state.1.reservedPeers.erase peer)
    (hstep : Step t state.1 (counts.put peer next) asked [] [])
    (hslots : t.full → s.reservedOnly = true → ∀ direction,
      counts.shouldDisconnect direction = state.1.shouldDisconnect direction) :
    Removes t s (counts.put peer next, state.2 ++ asked) := by
  have hshrinks : ∀ other ∈ (counts.put peer next).reservedPeers,
      other ≠ peer ∧ other ∈ state.1.reservedPeers := fun other hother =>
    OrderedMap.mem_erase.mp (hreserved ▸ hother)
  refine ⟨h.step.trans hstep fun other _ hin => (hshrinks other hin).2, fun other hother => ?_,
    hframe.reservedOnly.trans h.reservedOnly, fun hterms honly direction => ?_⟩
  · obtain ⟨hne, hin⟩ := hshrinks other hother
    rw [put_peers, if_neg (Ne.symm hne), hframe.peers]
    exact h.reserved other hin
  · rw [← h.slots hterms honly, ← hslots hterms honly]
    cases direction <;> rfl

theorem Removes.next (h : Removes t s state)
    (hfull : t.full → s.reservedOnly = true → s.Full [peer]) :
    Removes t s (removeReserved state peer) := by
  unfold removeReserved
  split_ifs with hin
  · exact h
  · have hin' : peer ∈ state.1.reservedPeers := by
      simpa [ExtTreeSet.contains_iff_mem] using hin
    have herased : ∀ other, other ≠ peer →
        (other ∈ state.1.reservedPeers.erase peer ↔ other ∈ state.1.reservedPeers) :=
      fun other hne => OrderedMap.mem_erase.trans (and_iff_right hne)
    have hout : peer ∉ state.1.reservedPeers.erase peer := fun hin =>
      (OrderedMap.mem_erase.mp hin).1 rfl
    have hkeep : ∀ {direction : Direction} {kept : Direction → PeerState},
        (∀ direction, (kept direction).direction? = some direction) →
        (∀ direction, (kept direction).isClosing = false) →
        (∀ direction, (kept direction).isActive = true) →
        (∀ direction', (kept direction').isOpen = (kept direction).isOpen) →
        state.1.peers[peer]? = some (kept direction) → ¬ shouldDisconnect
          { state.1 with reservedPeers := state.1.reservedPeers.erase peer } direction = true →
        Removes t s (makeRegular { state.1 with
          reservedPeers := state.1.reservedPeers.erase peer } peer direction kept, state.2) := by
      intro direction kept hkept hclosing hactive hopen hget hfree
      have hfree' : state.1.shouldDisconnect direction = false := by
        rw [← Bool.not_eq_true]
        cases direction <;> exact hfree
      have hmode : t.full → s.reservedOnly = true → False := by
        intro hterms honly
        obtain ⟨hstart, hsame⟩ := h.reserved peer hin'
        have hmust := hfull hterms honly peer (by simp) hstart (kept direction)
          (by rw [← hsame, hget]; rfl) (hactive _) direction (by rw [hkept]; rfl)
        rw [← h.slots hterms honly, hfree'] at hmust
        cases hmust
      rw [← List.append_nil state.2]
      exact h.put (framed_incrementSlot _).1 (framed_incrementSlot _).2
        (.regular herased hkept hclosing (fun _ => (hopen _).trans (is_of_get hget).symm) hout
          hfree' (fun hterms hs => hs.marked hterms peer hin') fun hterms => by
            rw [← Bool.not_eq_true, h.reservedOnly]
            exact hmode hterms)
        fun hterms honly => (hmode hterms honly).elim
    dsimp only
    split
    · rename_i direction hget
      split_ifs with hdrop
      · exact h.put ⟨rfl, rfl, rfl⟩ rfl (.shift (.inr rfl) hget rfl
          (fun _ => .inr (List.mem_singleton.mpr rfl)) (by simp [isActive])
          (fun hin => absurd hin hout) fun _ => rfl) fun _ _ direction => by cases direction <;> rfl
      · exact hkeep (fun _ => rfl) (fun _ => rfl) (fun _ => rfl) (fun _ => rfl) hget hdrop
    · rename_i direction hget
      split_ifs with hdrop
      · rw [← List.append_nil state.2]
        exact h.put ⟨rfl, rfl, rfl⟩ rfl (.shift (.inr rfl) hget rfl (by simp [isClosing])
          (by simp [isActive]) (fun hin => absurd hin hout) fun _ => rfl)
          fun _ _ direction => by cases direction <;> rfl
      · exact hkeep (fun _ => rfl) (fun _ => rfl) (fun _ => rfl) (fun _ => rfl) hget hdrop
    · rename_i hconnected hopening
      have hstrike : Step t state.1
          { state.1 with reservedPeers := state.1.reservedPeers.erase peer } [] [] [] := by
        refine ⟨fun hs => ⟨hs.counted, hs.exact, fun hterms other hin =>
          hs.marked hterms other (OrderedMap.mem_erase.mp hin).2⟩, fun _ _ => .inl,
          fun _ _ _ _ => .inl, fun _ honly other hactive hother => ⟨honly, hactive, fun hin => ?_⟩,
          fun _ _ _ => rfl⟩
        by_cases heq : other = peer
        · subst heq
          exact absurd (hactive.symm.trans (inactive_of_get hconnected hopening)) (by simp)
        · exact hother ((herased other heq).mpr hin)
      have hstep := h.step.trans hstrike fun _ _ hin => (OrderedMap.mem_erase.mp hin).2
      rw [List.append_nil] at hstep
      exact ⟨hstep, fun other hother => h.reserved other (OrderedMap.mem_erase.mp hother).2,
        h.reservedOnly, fun hterms honly direction => by
          rw [← h.slots hterms honly]
          cases direction <;> rfl⟩

theorem removeReservedPeers_step (hfull : t.full → s.reservedOnly = true → s.Full peers) :
    Step t s (s.removeReservedPeers peers).1 (s.removeReservedPeers peers).2.closePeers [] [] :=
  (List.foldlRecOn peers removeReserved (motive := Removes t s)
    ⟨.refl .., fun _ hin => ⟨hin, rfl⟩, rfl, fun _ _ _ => rfl⟩ fun _ hstate peer hpeer =>
      hstate.next fun hterms honly other hother => by
        rw [List.mem_singleton.mp hother]
        exact hfull hterms honly peer hpeer).step

def Clear (s : Peerset Peer) : Prop :=
  ∀ peer ∈ s.reservedPeers.toList, s.is isConnected peer = false

instance (s : Peerset Peer) : Decidable s.Clear := inferInstanceAs (Decidable (∀ _ ∈ _, _))

theorem setReservedOnly_step (s : Peerset Peer) (reservedOnly : Bool) (order : Shuffle Peer)
    (hclear : t.clear → reservedOnly = true → s.Clear) :
    Step t s (s.setReservedOnly order reservedOnly).1
      (((s.setReservedOnly order reservedOnly).2.map (·.closePeers)).getD []) [] [] := by
  unfold setReservedOnly
  cases reservedOnly with
  | false =>
    exact ⟨fun hs => ⟨hs.counted, hs.exact, hs.marked⟩, fun _ _ => .inl, fun _ _ _ _ => .inl,
      fun _ honly => (by cases honly), fun _ _ _ => rfl⟩
  | true =>
    have hcost : ∀ direction (known : PeerState), cost direction (some known) =
        (fun d => cost direction (d.map PeerState.connected)) known.direction? := by
      intro direction known
      cases direction <;> cases known <;> rfl
    have hshut : ∀ known : PeerState, known.shut.direction? = known.direction? := by
      intro known
      cases known <;> rfl
    have hregular : ∀ direction, regular { s with
        reservedOnly := true, peers := s.peers.map fun _ state => state.shut } direction =
        s.regular direction := by
      intro direction
      unfold regular
      simp only [hcost]
      refine OrderedMap.total_congr fun peer => ?_
      rw [ExtTreeMap.getElem?_map, Option.map_map]
      exact congrArg (Option.map · _) (funext fun known =>
        congrArg (Option.map PeerState.connected) (hshut known))
    dsimp only
    rw [if_pos rfl]
    refine ⟨fun hs => ⟨fun direction => ?_, fun hterms direction => ?_,
      fun hterms peer hin direction => ?_⟩, fun hterms peer hclosing => ?_,
      fun hterms peer hin _ hconnected => ?_, fun _ _ peer hactive => ?_, fun peer _ _ => ?_⟩
    · rw [hregular]
      exact (hs.counted direction).trans_eq (by cases direction <;> rfl)
    · rw [hregular]
      have hexact := hs.exact hterms direction
      cases direction <;> exact hexact
    · have hzero := hs.marked hterms peer hin direction
      dsimp only
      rw [ExtTreeMap.getElem?_map]
      cases hget : s.peers[peer]? with
      | none => exact cost_none direction
      | some known =>
        rw [hget] at hzero
        rw [Option.map_some, hcost, hshut, ← hcost, hzero]
    · rw [is, ExtTreeMap.getElem?_map] at hclosing
      cases hget : s.peers[peer]? with
      | none => simp [hget] at hclosing
      | some known =>
        cases known with
        | closing direction => exact .inl (is_of_get hget)
        | connected direction =>
          refine .inr (List.mem_filter.mpr ⟨order.mem_apply.mpr ?_, ?_⟩)
          · exact OrderedMap.mem_keys_iff.mpr ⟨_, hget⟩
          · have hcontains : s.reservedPeers.contains peer = false := by
              rw [Bool.eq_false_iff, ne_eq, ExtTreeSet.contains_iff_mem]
              intro hin
              have hfalse := hclear hterms rfl peer (ExtTreeSet.mem_toList.mpr hin)
              rw [is_of_get hget] at hfalse
              cases hfalse
            simp [regularConnected, hcontains, hget]
        | disconnected | backoff | opening | canceled => simp [hget, shut, isClosing] at hclosing
    · rw [hclear hterms rfl peer (ExtTreeSet.mem_toList.mpr hin)] at hconnected
      cases hconnected
    · rw [is, ExtTreeMap.getElem?_map] at hactive
      cases hget : s.peers[peer]? with
      | none => simp [hget] at hactive
      | some known => cases known <;> simp [hget, shut, isActive] at hactive
    · unfold is
      rw [ExtTreeMap.getElem?_map]
      cases hget : s.peers[peer]? with
      | none => rfl
      | some known => cases known <;> rfl

/-! ## Polling -/

def asked (answer : Option (PeersetNotificationCommand Peer)) : List Peer :=
  (answer.map (·.closePeers)).getD []

/-- Entering the reserved-only mode finds no reserved peer connected. -/
def Wake.EntersClear (wake : Wake Peer) (s : Peerset Peer) : Prop :=
  wake.command = some (.setReservedOnly true) → s.Clear

def Wake.removed (wake : Wake Peer) : List Peer :=
  match wake.command with
  | some (.removeReservedPeers peers) => peers
  | _ => []

/-- In the reserved-only mode, reserved peers are removed when there is no free slot for them. -/
def Wake.RemovesFull (wake : Wake Peer) (s : Peerset Peer) : Prop :=
  s.reservedOnly = true → s.Full wake.removed

instance (wake : Wake Peer) (s : Peerset Peer) : Decidable (wake.EntersClear s) :=
  inferInstanceAs (Decidable (_ → _))

instance (wake : Wake Peer) (s : Peerset Peer) : Decidable (wake.RemovesFull s) :=
  inferInstanceAs (Decidable (_ → _))

variable {wake : Wake Peer}

theorem handleCommand_step (hs : s.Balanced t.strict) (hclear : t.clear → wake.EntersClear s)
    (hfull : t.full → wake.RemovesFull s) :
    ∃ s' answer, s.handleCommand wake = some (s', answer) ∧ Step t s s' (asked answer) [] [] := by
  unfold handleCommand
  split
  · exact ⟨_, _, rfl, .refl ..⟩
  · rename_i command hcommand
    unfold onCommand
    cases command with
    | setReservedPeers peers =>
      obtain ⟨s', command, heq, hstep⟩ := setReservedPeers_step hs wake.store wake.order peers
      exact ⟨s', some command, by simp only [heq, Option.map_some], hstep⟩
    | addReservedPeers peers =>
      obtain ⟨s', command, heq, hstep⟩ := addReservedPeers_step hs peers
      exact ⟨s', some command, by simp only [heq, Option.map_some], hstep⟩
    | removeReservedPeers peers =>
      refine ⟨_, _, rfl, removeReservedPeers_step fun hterms honly => ?_⟩
      have hpeers := hfull hterms honly
      rwa [Wake.removed, hcommand] at hpeers
    | setReservedOnly reservedOnly =>
      exact ⟨_, _, rfl, s.setReservedOnly_step reservedOnly wake.order fun hterms htrue =>
        hclear hterms (htrue ▸ hcommand)⟩
    | disconnectPeer peer => exact ⟨_, _, rfl, s.disconnectPeer_step peer⟩
    | getReservedPeers => exact ⟨_, _, rfl, .refl ..⟩

theorem pollNext_step (hs : s.Balanced t.strict) (hclear : t.clear → wake.EntersClear s)
    (hfull : t.full → wake.RemovesFull s) (hstrict : t.strict → wake.store.Fair) :
    ∃ s' answer, s.pollNext wake = some (s', answer) ∧ Step t s s' (asked answer) [] [] := by
  obtain ⟨hexpired, hslots, hpeers⟩ := s.expireBackoffs_expires (t := t) wake
  obtain ⟨mid, answer, hcommand, hstep⟩ := @handleCommand_step Peer _ t _ wake
    (hexpired.step.balanced hs) (fun hterms hset peer hin => by
      have hfalse := hclear hterms hset peer (hexpired.reservedPeers ▸ hin)
      rcases hpeers peer with heq | heq
      · rwa [is_congr heq]
      · exact is_of_get heq)
    (fun hterms honly peer hin hreserved state hstate hactive direction hdirection => by
      rw [hexpired.reservedPeers] at hreserved
      rw [hslots]
      rcases hpeers peer with heq | heq
      · rw [heq] at hstate
        exact hfull hterms (hexpired.reservedOnly ▸ honly) peer hin hreserved state hstate hactive
          direction hdirection
      · rw [heq] at hstate
        cases hstate
        cases hactive)
  have hmid := hexpired.step.trans hstep fun _ hin _ => hexpired.reservedPeers ▸ hin
  unfold pollNext
  rw [hcommand]
  cases answer with
  | some command => exact ⟨_, _, rfl, hmid⟩
  | none =>
    dsimp only
    split_ifs
    · obtain ⟨hinner, hasked⟩ := mid.allocateSlots_inner wake.store wake.order hstrict
      generalize mid.allocateSlots wake.store wake.order = result at hinner hasked
      refine ⟨result.1, result.2, rfl, ?_⟩
      rw [asked, hasked]
      exact hmid.trans hinner.step fun _ _ hin => hinner.reservedPeers ▸ hin
    · exact ⟨_, _, rfl, hmid⟩

end Peerset

end PolkadotSdk.Network
