import PolkadotSdk.Network.Peerset.Model

/-! # What a handler may do

The peers whose substream counts as regular never outnumber the slots that are taken. A peer is
set to closing only when the backend is told to close its substream, and a connected peer that
stays reserved stays connected. In the reserved-only mode only reserved peers are connected or
opening. Each of this is kept by single changes of the state of a peer.
-/

namespace PolkadotSdk.Network

open Std

variable {Peer : Type} [LinearOrder Peer]

namespace PeerState

def isActive : PeerState → Bool
  | .opening _ | .connected _ => true
  | _ => false

def isConnected : PeerState → Bool
  | .connected _ => true
  | _ => false

def isClosing : PeerState → Bool
  | .closing _ => true
  | _ => false

def isOpen (state : PeerState) : Bool := state.isConnected || state.isClosing

end PeerState

namespace Peerset

open PeerState

/-! ## The state of a peer -/

@[simp] theorem put_peers (s : Peerset Peer) (peer other : Peer) (state : PeerState) :
    (s.put peer state).peers[other]? = if peer = other then some state else s.peers[other]? :=
  OrderedMap.getElem?_insert _ _ _ _

def is (test : PeerState → Bool) (s : Peerset Peer) (peer : Peer) : Bool :=
  s.peers[peer]?.any test

variable {test : PeerState → Bool} {s s' counts : Peerset Peer} {peer : Peer}
  {old state : PeerState}

theorem is_of_get (h : s.peers[peer]? = some state) : s.is test peer = test state := by
  rw [is, h]
  rfl

theorem exists_of_is (h : s.is test peer = true) :
    ∃ state, s.peers[peer]? = some state ∧ test state = true := by
  unfold is at h
  cases hget : s.peers[peer]? with
  | none => simp [hget] at h
  | some state => exact ⟨state, rfl, by simpa [hget] using h⟩

theorem is_congr (h : s'.peers[peer]? = s.peers[peer]?) : s'.is test peer = s.is test peer := by
  rw [is, h, is]

theorem is_put (hpeers : counts.peers = s.peers) (peer other : Peer) (state : PeerState) :
    (counts.put peer state).is test other =
      if peer = other then test state else s.is test other := by
  unfold is
  rw [put_peers, hpeers]
  split_ifs <;> rfl

/-! ## Taken slots -/

def taken (s : Peerset Peer) : TraitsDirection → Nat
  | .inbound => s.numIn
  | .outbound => s.numOut

def slots (s : Peerset Peer) : TraitsDirection → Nat
  | .inbound => s.maxIn
  | .outbound => s.maxOut

/-- The slots of a direction that a peer in the state takes. -/
def cost : TraitsDirection → Option PeerState → Nat
  | .inbound, state => if state.bind PeerState.direction? = some (.inbound .no) then 1 else 0
  | .outbound, state => if state.bind PeerState.direction? = some (.outbound .no) then 1 else 0

def regular (s : Peerset Peer) (direction : TraitsDirection) : Nat :=
  OrderedMap.total (fun _ state => cost direction (some state)) s.peers

theorem cost_none (direction : TraitsDirection) : cost direction none = 0 := by
  cases direction <;> rfl

theorem cost_idle {state : Option PeerState} (h : state.bind PeerState.direction? = none)
    (direction : TraitsDirection) : cost direction state = 0 := by
  cases direction <;> simp [cost, h]

theorem regular_put (s : Peerset Peer) (peer : Peer) (state : PeerState)
    (direction : TraitsDirection) :
    (s.put peer state).regular direction + cost direction s.peers[peer]? =
      s.regular direction + cost direction (some state) := by
  unfold regular
  cases hget : s.peers[peer]? with
  | none =>
    have htotal := OrderedMap.total_insert_of_none
      (f := fun _ state => cost direction (some state)) hget state
    rw [cost_none]
    simp only [put]
    omega
  | some old =>
    exact OrderedMap.total_insert_of_some
      (f := fun _ state => cost direction (some state)) hget state

def Counted (s : Peerset Peer) : Prop := ∀ direction, s.regular direction ≤ s.taken direction

/-- Every regular substream has its slot. Exact counts are those of the regular substreams. -/
structure Balanced (strict : Prop) (s : Peerset Peer) : Prop where
  counted : s.Counted
  exact : strict → ∀ direction,
    s.taken direction ≤ s.regular direction ∧ s.taken direction ≤ s.slots direction
  marked : strict → ∀ peer ∈ s.reservedPeers, ∀ direction, cost direction s.peers[peer]? = 0

theorem Balanced.cost_le {strict : Prop} (h : s.Balanced strict) (peer : Peer)
    (direction : TraitsDirection) : cost direction s.peers[peer]? ≤ s.taken direction := by
  have hput := s.regular_put peer .disconnected direction
  have hle := h.counted direction
  rw [show cost direction (some .disconnected) = 0 from cost_idle rfl direction] at hput
  omega

/-! ## Steps -/

/-- What is asked for: exact counts, no closing that is not told of, the reserved-only mode. -/
structure Terms where
  strict : Prop
  clear : Prop
  full : Prop

/-- Counts stay balanced. Only the peers that are asked for are set to closing, and connected peers
that stay reserved stay connected, but for those that have ended. In the reserved-only mode only
reserved peers become active. -/
structure Step (t : Terms) (s s' : Peerset Peer) (asked ended begun : List Peer) : Prop where
  balanced : s.Balanced t.strict → s'.Balanced t.strict
  closing : t.clear → ∀ peer, s'.is isClosing peer → s.is isClosing peer ∨ peer ∈ asked
  connected : t.clear → ∀ peer ∈ s.reservedPeers, peer ∈ s'.reservedPeers →
    s.is isConnected peer → s'.is isConnected peer ∨ peer ∈ ended
  excludes : t.full → s'.reservedOnly = true → ∀ peer, s'.is isActive peer →
    peer ∉ s'.reservedPeers → s.reservedOnly = true ∧ s.is isActive peer ∧ peer ∉ s.reservedPeers
  streams : ∀ peer ∉ ended, peer ∉ begun → s'.is isOpen peer = s.is isOpen peer

variable {t : Terms} {asked asked' ended begun : List Peer}

theorem Step.refl (t : Terms) (s : Peerset Peer) (asked ended begun : List Peer) :
    Step t s s asked ended begun :=
  ⟨id, fun _ _ => .inl, fun _ _ _ _ => .inl, fun _ honly _ hactive hout => ⟨honly, hactive, hout⟩,
    fun _ _ _ => rfl⟩

theorem Step.trans {s₁ s₂ : Peerset Peer} (h : Step t s s₁ asked [] [])
    (h' : Step t s₁ s₂ asked' [] []) (hreserved : ∀ peer ∈ s.reservedPeers, peer ∈ s₂.reservedPeers →
      peer ∈ s₁.reservedPeers) :
    Step t s s₂ (asked ++ asked') [] [] := by
  refine ⟨h'.balanced ∘ h.balanced, fun hclear peer hclosing => ?_,
    fun hclear peer hin hin' hconnected => ?_, fun hfull honly peer hactive hout => ?_,
    fun peer hended hbegun => (h'.streams peer hended hbegun).trans (h.streams peer hended hbegun)⟩
  · rw [List.mem_append]
    rcases h'.closing hclear peer hclosing with hclosing | hasked
    · exact (h.closing hclear peer hclosing).imp_right .inl
    · exact .inr (.inr hasked)
  · have hmid := hreserved peer hin hin'
    refine h'.connected hclear peer hmid hin' ?_
    exact (h.connected hclear peer hin hmid hconnected).resolve_right List.not_mem_nil
  · obtain ⟨honly₁, hactive₁, hout₁⟩ := h'.excludes hfull honly peer hactive hout
    exact h.excludes hfull honly₁ peer hactive₁ hout₁

theorem Step.pending (h : Step t s s' asked ended begun) (pendingBackoffs : List Peer) :
    Step t s { s' with pendingBackoffs := pendingBackoffs } asked ended begun :=
  ⟨fun hs => ⟨(h.balanced hs).counted, (h.balanced hs).exact, (h.balanced hs).marked⟩, h.closing,
    h.connected, h.excludes, h.streams⟩

/-- Nothing but the slots that are taken and the reserved peers is changed. -/
structure Framed (s counts : Peerset Peer) : Prop where
  peers : counts.peers = s.peers
  reservedOnly : counts.reservedOnly = s.reservedOnly
  slots : counts.slots = s.slots

/-- One peer changes its state, and the counts with it; it may become reserved or stop being so. -/
theorem Step.turn (hframe : Framed s counts)
    (hreserved : ∀ other, other ≠ peer → (other ∈ counts.reservedPeers ↔ other ∈ s.reservedPeers))
    (hle : s.Balanced t.strict → ∀ direction, s.taken direction + cost direction (some state) ≤
      counts.taken direction + cost direction s.peers[peer]?)
    (hexact : t.strict → s.Balanced t.strict → ∀ direction,
      counts.taken direction + cost direction s.peers[peer]? ≤
        s.taken direction + cost direction (some state) ∧
      counts.taken direction ≤ s.slots direction ∧
      (peer ∈ counts.reservedPeers → cost direction (some state) = 0))
    (hclosing : t.clear → state.isClosing = true → s.is isClosing peer = true ∨ peer ∈ asked)
    (hconnected : t.clear → peer ∈ s.reservedPeers → peer ∈ counts.reservedPeers →
      s.is isConnected peer = true → state.isConnected = true ∨ peer ∈ ended)
    (hactive : t.full → s.reservedOnly = true → state.isActive = true →
      peer ∉ counts.reservedPeers → s.is isActive peer = true ∧ peer ∉ s.reservedPeers)
    (hopen : peer ∉ ended → peer ∉ begun → state.isOpen = s.is isOpen peer) :
    Step t s (counts.put peer state) asked ended begun := by
  have htaken : (counts.put peer state).taken = counts.taken := rfl
  have hregular : ∀ direction, (counts.put peer state).regular direction +
      cost direction s.peers[peer]? = s.regular direction + cost direction (some state) := by
    intro direction
    have hput := counts.regular_put peer state direction
    unfold regular at hput ⊢
    rw [hframe.peers] at hput
    exact hput
  refine ⟨fun h => ⟨fun direction => ?_, fun hterms direction => ?_,
      fun hterms other hin direction => ?_⟩, fun hterms other hother => ?_,
    fun hterms other hin hin' hother => ?_, fun hterms honly other hother hout => ?_,
    fun other hended hbegun => ?_⟩
  · have hmove := hle h direction
    have hbefore := h.counted direction
    have hafter := hregular direction
    rw [htaken]
    omega
  · obtain ⟨hmove, hmax, -⟩ := hexact hterms h direction
    have hbefore := (h.exact hterms direction).1
    have hafter := hregular direction
    refine ⟨?_, hmax.trans_eq (congrFun hframe.slots direction).symm⟩
    rw [htaken]
    omega
  · rw [put_peers, hframe.peers]
    split_ifs with heq
    · exact (hexact hterms h direction).2.2 (heq ▸ hin)
    · exact h.marked hterms other ((hreserved other (Ne.symm heq)).mp hin) direction
  · rw [is_put hframe.peers] at hother
    split_ifs at hother with heq
    · exact heq ▸ hclosing hterms hother
    · exact .inl hother
  · rw [is_put hframe.peers]
    split_ifs with heq
    · subst heq
      exact hconnected hterms hin hin' hother
    · exact .inl hother
  · have honly : s.reservedOnly = true := hframe.reservedOnly ▸ honly
    refine ⟨honly, ?_⟩
    rw [is_put hframe.peers] at hother
    split_ifs at hother with heq
    · subst heq
      exact hactive hterms honly hother hout
    · exact ⟨hother, fun hin => hout ((hreserved other (Ne.symm heq)).mpr hin)⟩
  · rw [is_put hframe.peers]
    split_ifs with heq
    · subst heq
      exact hopen hended hbegun
    · rfl

theorem framed_freeSlot (s : Peerset Peer) (direction : Direction) :
    Framed s (s.freeSlot direction) ∧ (s.freeSlot direction).reservedPeers = s.reservedPeers := by
  unfold freeSlot
  split <;> exact ⟨⟨rfl, rfl, rfl⟩, rfl⟩

variable {reservedPeers : ExtTreeSet Peer}

theorem framed_incrementSlot (direction : Direction) :
    Framed s ({ s with reservedPeers := reservedPeers }.incrementSlot direction) ∧
      ({ s with reservedPeers := reservedPeers }.incrementSlot direction).reservedPeers =
        reservedPeers := by
  unfold incrementSlot
  split <;> exact ⟨⟨rfl, rfl, rfl⟩, rfl⟩

theorem taken_freeSlot {strict : Prop} (h : s.Balanced strict) (hget : s.peers[peer]? = some old)
    {direction : Direction} (hold : old.direction? = some direction) (side : TraitsDirection) :
    (s.freeSlot direction).taken side + cost side s.peers[peer]? = s.taken side := by
  have hle := h.cost_le peer side
  rw [hget] at hle ⊢
  rcases direction with ⟨_ | _⟩ | ⟨_ | _⟩ <;> cases side <;>
    simp [cost, hold, taken, freeSlot] at hle ⊢ <;> omega

theorem taken_incrementSlot (s : Peerset Peer) (direction : Direction)
    (hstate : state.direction? = some direction) (side : TraitsDirection) :
    (s.incrementSlot direction).taken side = s.taken side + cost side (some state) := by
  rcases direction with ⟨_ | _⟩ | ⟨_ | _⟩ <;> cases side <;>
    simp [cost, hstate, taken, incrementSlot]

theorem tests_of_idle (h : state.direction? = none) :
    state.isClosing = false ∧ state.isActive = false ∧ state.isOpen = false := by
  cases state <;> first | exact ⟨rfl, rfl, rfl⟩ | cases h

theorem not_open_of_idle (h : s.peers[peer]?.bind PeerState.direction? = none) :
    s.is isOpen peer = false := by
  unfold is
  cases hget : s.peers[peer]? with
  | none => rfl
  | some state =>
    rw [hget] at h
    exact (tests_of_idle h).2.2

theorem not_connected_of_not_open (h : s.is isOpen peer = false) :
    s.is isConnected peer = false := by
  unfold is at h ⊢
  cases hget : s.peers[peer]? with
  | none => rfl
  | some state =>
    rw [hget] at h
    exact (Bool.or_eq_false_iff.mp h).1

theorem Step.leave (hcost : t.strict → ∀ direction, cost direction s.peers[peer]? = 0)
    (hopen : peer ∉ ended → s.is isOpen peer = false) (hstate : state.direction? = none) :
    Step t s (s.put peer state) asked ended begun := by
  obtain ⟨hclosing, hactive, hshut⟩ := tests_of_idle hstate
  have hnone : ∀ direction, cost direction (some state) = 0 := cost_idle hstate
  refine .turn ⟨rfl, rfl, rfl⟩ (fun _ _ => Iff.rfl) (fun _ direction => by rw [hnone]; omega)
    (fun hterms hs direction => ⟨?_, (hs.exact hterms direction).2, fun _ => hnone direction⟩)
    (fun _ h => absurd h (by simp [hclosing])) (fun _ _ _ h => .inr ?_)
    (fun _ _ h => absurd h (by simp [hactive])) fun hended _ => hshut.trans (hopen hended).symm
  · rw [hcost hterms, hnone]
  · by_contra hended
    rw [not_connected_of_not_open (hopen hended)] at h
    cases h

theorem Step.rest (hidle : s.peers[peer]?.bind PeerState.direction? = none)
    (hstate : state.direction? = none) : Step t s (s.put peer state) asked ended begun :=
  .leave (fun _ => cost_idle hidle) (fun _ => not_open_of_idle hidle) hstate

/-- The substream of the peer stays what it is. The peer may stop being reserved. -/
theorem Step.shift
    (hreserved : reservedPeers = s.reservedPeers ∨ reservedPeers = s.reservedPeers.erase peer)
    (hget : s.peers[peer]? = some old) (hsame : state.direction? = old.direction?)
    (hclosing : state.isClosing = true → old.isClosing = true ∨ peer ∈ asked)
    (hactive : state.isActive = true → old.isActive = true ∧ reservedPeers = s.reservedPeers)
    (hconnected : peer ∈ reservedPeers → old.isConnected = true → state.isConnected = true)
    (hopen : peer ∉ begun → state.isOpen = old.isOpen) :
    Step t s ({ s with reservedPeers := reservedPeers }.put peer state) asked ended begun := by
  have hcost : ∀ direction, cost direction (some state) = cost direction s.peers[peer]? := by
    rw [hget]
    intro direction
    cases direction <;> simp [cost, hsame]
  have htaken : taken { s with reservedPeers := reservedPeers } = s.taken := by
    funext direction
    cases direction <;> rfl
  have hothers : ∀ other, other ≠ peer → (other ∈ reservedPeers ↔ other ∈ s.reservedPeers) := by
    intro other hne
    rcases hreserved with rfl | rfl
    · rfl
    · exact OrderedMap.mem_erase.trans (and_iff_right hne)
  refine .turn ⟨rfl, rfl, rfl⟩ hothers (fun _ direction => by rw [hcost, htaken])
    (fun hterms hs direction => ⟨by rw [hcost, htaken], ?_, fun hin => ?_⟩)
    (fun _ h => ?_) (fun _ _ hin h => ?_) (fun _ _ h hout => ?_)
    fun _ hbegun => (hopen hbegun).trans (is_of_get hget).symm
  · rw [htaken]
    exact (hs.exact hterms direction).2
  · rw [hcost]
    refine hs.marked hterms peer ?_ direction
    rcases hreserved with rfl | rfl
    · exact hin
    · exact (OrderedMap.mem_erase.mp hin).2
  · rw [is_of_get hget]
    exact hclosing h
  · rw [is_of_get hget] at h
    exact .inl (hconnected hin h)
  · rw [is_of_get hget]
    exact ⟨(hactive h).1, (hactive h).2 ▸ hout⟩

theorem Step.free {direction : Direction} (hget : s.peers[peer]? = some old)
    (hold : old.direction? = some direction) (hstate : state.direction? = none)
    (hended : old.isOpen = true → peer ∈ ended) :
    Step t s ((s.freeSlot direction).put peer state) asked ended begun := by
  obtain ⟨hclosing, hactive, hshut⟩ := tests_of_idle hstate
  obtain ⟨hframe, hreserved⟩ := framed_freeSlot s direction
  have hcost : ∀ side, cost side (some state) = 0 := cost_idle hstate
  refine .turn hframe (fun _ _ => by rw [hreserved])
    (fun hs side => by rw [taken_freeSlot hs hget hold, hcost]; exact Nat.le_refl _)
    (fun hterms hs side => ⟨by rw [taken_freeSlot hs hget hold]; omega, ?_, fun _ => hcost side⟩)
    (fun _ h => absurd h (by simp [hclosing])) (fun _ _ _ h => ?_)
    (fun _ _ h => absurd h (by simp [hactive])) fun hnot _ => ?_
  · have hslots := (hs.exact hterms side).2
    have hfree := taken_freeSlot hs hget hold side
    omega
  · rw [is_of_get hget] at h
    exact .inr (hended (by simp [isOpen, h]))
  · rw [hshut, is_of_get hget, eq_comm, ← Bool.not_eq_true]
    exact fun h => hnot (hended h)

/-- A substream that took no slot takes one. The peer may become reserved or stop being so. -/
theorem Step.takes (state : PeerState)
    (hreserved : ∀ other, other ≠ peer → (other ∈ reservedPeers ↔ other ∈ s.reservedPeers))
    {direction : Direction} (hstate : state.direction? = some direction)
    (hclosing : state.isClosing = false) (hopen : state.isOpen = s.is isOpen peer)
    (hin : peer ∈ reservedPeers → state.isOpen = false)
    (hcost : t.strict → s.Balanced t.strict → ∀ side, cost side s.peers[peer]? = 0)
    (hslot : t.strict → ∀ side, cost side (some state) ≠ 0 →
      peer ∉ reservedPeers ∧ s.taken side < s.slots side)
    (hallowed : t.full → s.reservedOnly = true → peer ∈ reservedPeers) :
    Step t s (({ s with reservedPeers := reservedPeers }.incrementSlot direction).put peer state)
      asked ended begun := by
  obtain ⟨hframe, hsame⟩ := @framed_incrementSlot Peer _ s reservedPeers direction
  have htaken : ∀ side, taken ({ s with reservedPeers := reservedPeers }.incrementSlot direction)
      side = s.taken side + cost side (some state) := by
    intro side
    rw [taken_incrementSlot _ direction hstate]
    cases side <;> rfl
  refine .turn hframe (by rwa [hsame]) (fun _ side => by rw [htaken]; omega)
    (fun hterms hs side => ⟨by rw [htaken, hcost hterms hs]; omega, ?_, fun hin => ?_⟩)
    (fun _ h => absurd h (by simp [hclosing])) (fun _ _ hpeer h => ?_)
    (fun hterms honly _ hout => absurd (hallowed hterms honly) (hsame ▸ hout)) fun _ _ => hopen
  · rw [htaken]
    by_cases hzero : cost side (some state) = 0
    · rw [hzero]
      exact (hs.exact hterms side).2
    · have hone : cost side (some state) ≤ 1 := by
        cases side <;> simp only [cost] <;> split <;> omega
      have hlt := (hslot hterms side hzero).2
      omega
  · by_contra hzero
    exact (hslot hterms side hzero).1 (hsame ▸ hin)
  · rw [not_connected_of_not_open (hopen.symm.trans (hin (hsame ▸ hpeer)))] at h
    cases h

end Peerset

end PolkadotSdk.Network
