import PolkadotSdk.Network.Peerset.Runs

/-! # Counting slots and connected peers

A peer set counts the slots that its regular peers take and the peers that are connected. Both
counts are right as long as a substream is reported closed only for a peer that is connected or
closing, or that has been turned away. The backend may report otherwise: the protocol rejects an
inbound substream while an outbound one to the same peer is opening, the peer is disconnected, and
a second substream is being opened to it when the first one is closed.
-/

namespace PolkadotSdk.Network

open Std

variable {Peer : Type} [LinearOrder Peer]

namespace Peerset

open PeerState

def streams (s : Peerset Peer) : Nat := (s.peers.keys.filter (s.is isOpen)).length

variable {s s' : Peerset Peer} {peer : Peer}

theorem mem_streams : peer ∈ s.peers.keys.filter (s.is isOpen) ↔ s.is isOpen peer = true := by
  rw [List.mem_filter, and_iff_right_iff_imp]
  intro h
  obtain ⟨state, hget, -⟩ := exists_of_is h
  exact OrderedMap.mem_keys_iff.mpr ⟨state, hget⟩

theorem streams_nodup (s : Peerset Peer) : (s.peers.keys.filter (s.is isOpen)).Nodup :=
  (OrderedMap.keys_nodup s.peers).filter _

theorem streams_congr (h : ∀ peer, s'.is isOpen peer = s.is isOpen peer) :
    s'.streams = s.streams := by
  refine List.Perm.length_eq ((List.perm_ext_iff_of_nodup s'.streams_nodup s.streams_nodup).mpr ?_)
  intro other
  rw [mem_streams, mem_streams, h]

theorem streams_succ (hothers : ∀ other, other ≠ peer → s'.is isOpen other = s.is isOpen other)
    (hold : s.is isOpen peer = false) (hnew : s'.is isOpen peer = true) :
    s'.streams = s.streams + 1 := by
  have hfresh : peer ∉ s.peers.keys.filter (s.is isOpen) := by
    rw [mem_streams, hold]
    exact Bool.false_ne_true
  refine List.Perm.length_eq ((List.perm_ext_iff_of_nodup s'.streams_nodup
    (List.nodup_cons.mpr ⟨hfresh, s.streams_nodup⟩)).mpr fun other => ?_)
  rw [List.mem_cons, mem_streams, mem_streams]
  by_cases heq : other = peer
  · simp [heq, hnew]
  · simp [heq, hothers other heq]

/-- `connected_peers` after a report; `none` is a count that falls below zero. -/
def connectedAfter (s : Peerset Peer) (connectedPeers : Nat) : Event Peer → Option Nat
  | .opened peer =>
    match s.peers[peer]? with
    | some (.opening _) | some (.canceled _) => some (connectedPeers + 1)
    | _ => some connectedPeers
  | .closed peer =>
    match s.peers[peer]? with
    | none | some .disconnected => some connectedPeers
    | some _ => if connectedPeers = 0 then none else some (connectedPeers - 1)
  | .poll _ | .inbound _ _ | .openFailure _ | .rejected _ => some connectedPeers

theorem connectedAfter_opened (s : Peerset Peer) (peer : Peer)
    (hothers : ∀ other, other ≠ peer →
      (s.reportSubstreamOpened peer).1.is isOpen other = s.is isOpen other) :
    s.connectedAfter s.streams (.opened peer) = some (s.reportSubstreamOpened peer).1.streams := by
  have hbegun : ∀ state next : PeerState, s.peers[peer]? = some state → state.isOpen = false →
      (s.reportSubstreamOpened peer).1 = s.put peer next → next.isOpen = true →
      (s.reportSubstreamOpened peer).1.streams = s.streams + 1 := by
    intro state next hget hold hput hnew
    refine streams_succ hothers ((is_of_get hget).trans hold) ?_
    rw [hput, is_put rfl, if_pos rfl, hnew]
  cases hget : s.peers[peer]? with
  | none => simp only [connectedAfter, reportSubstreamOpened, hget]
  | some state =>
    cases state with
    | opening direction =>
      rw [hbegun _ (.connected direction) hget rfl (by simp only [reportSubstreamOpened, hget]) rfl]
      simp only [connectedAfter, hget]
    | canceled direction =>
      rw [hbegun _ (.closing direction) hget rfl (by simp only [reportSubstreamOpened, hget]) rfl]
      simp only [connectedAfter, hget]
    | disconnected | backoff | connected | closing =>
      simp only [connectedAfter, reportSubstreamOpened, hget]

theorem not_open_reportSubstreamClosed (s : Peerset Peer) (peer : Peer) :
    (s.reportSubstreamClosed peer).is isOpen peer = false := by
  have hback : ∀ counts : Peerset Peer, (counts.backOff peer).is isOpen peer = false :=
    fun counts => (is_put (s := counts) rfl peer peer .backoff).trans (if_pos rfl)
  unfold reportSubstreamClosed
  split
  · rename_i hget
    simp [is, hget]
  · exact hback _
  · exact hback _
  · exact hback _

theorem connectedAfter_closed
    (hknown : s.peers[peer]?.all fun state => state.isOpen || state = .disconnected)
    (hothers : ∀ other, other ≠ peer →
      (s.reportSubstreamClosed peer).is isOpen other = s.is isOpen other) :
    s.connectedAfter s.streams (.closed peer) = some (s.reportSubstreamClosed peer).streams := by
  have hnot := s.not_open_reportSubstreamClosed peer
  by_cases hopen : s.is isOpen peer = true
  · have hsucc := streams_succ (fun other hne => (hothers other hne).symm) hnot hopen
    obtain ⟨state, hget, hstate⟩ := exists_of_is hopen
    cases state with
    | connected | closing =>
      simp only [connectedAfter, hget]
      rw [if_neg (by omega), hsucc, Nat.add_sub_cancel]
    | disconnected | backoff | opening | canceled => cases hstate
  · rw [Bool.not_eq_true] at hopen
    have hsame : (s.reportSubstreamClosed peer).streams = s.streams := by
      refine streams_congr fun other => ?_
      by_cases heq : other = peer
      · rw [heq, hnot, hopen]
      · exact hothers other heq
    rw [hsame]
    cases hget : s.peers[peer]? with
    | none => simp only [connectedAfter, hget]
    | some state =>
      rw [is_of_get hget] at hopen
      rw [hget, Option.all_some, hopen, Bool.false_or, decide_eq_true_eq] at hknown
      simp only [connectedAfter, hget, hknown]

end Peerset

structure Tally (Peer : Type) [LinearOrder Peer] where
  session : Session Peer
  connectedPeers : Nat

namespace Tally

def new (maxOut maxIn : Nat) (reservedOnly : Bool) (reservedPeers : List Peer) : Tally Peer :=
  ⟨.new maxOut maxIn reservedOnly reservedPeers, 0⟩

def step (s : Tally Peer) (event : Event Peer) : Option (Tally Peer) := do
  let session ← s.session.step event
  let connectedPeers ← s.session.peerset.connectedAfter s.connectedPeers event
  some ⟨session, connectedPeers⟩

/-- The counts are those of the peers, and there are slots for the regular ones. -/
structure Exact (s : Tally Peer) : Prop where
  taken : ∀ direction, s.session.peerset.taken direction = s.session.peerset.regular direction
  slots : ∀ direction, s.session.peerset.taken direction ≤ s.session.peerset.slots direction
  cost : ∀ (peer : Peer) direction, Peerset.cost direction s.session.peerset.peers[peer]? ≤
    s.session.peerset.taken direction
  connected : s.connectedPeers = s.session.peerset.streams

variable {s : Tally Peer} {event : Event Peer}

theorem step_balanced (hs : s.session.peerset.Balanced True)
    (hconnected : s.connectedPeers = s.session.peerset.streams)
    (hevent : Session.Fair event ∧ s.session.ClosesOpen event) :
    ∃ s', s.step event = some s' ∧ s'.session.peerset.Balanced True ∧
      s'.connectedPeers = s'.session.peerset.streams := by
  obtain ⟨session', asked, hstep, hspec, -⟩ := Session.step_spec (t := ⟨True, False, False⟩) hs
    (fun _ => hevent) False.elim False.elim
  have hothers := hspec.streams
  have hcount : s.session.peerset.connectedAfter s.connectedPeers event =
      some session'.peerset.streams := by
    rw [hconnected]
    cases event with
    | opened peer =>
      cases hstep
      exact s.session.peerset.connectedAfter_opened peer fun other hne =>
        hothers other List.not_mem_nil (by simpa [Session.begun] using hne)
    | closed peer =>
      cases hstep
      exact Peerset.connectedAfter_closed hevent.2 fun other hne =>
        hothers other (by simpa [Session.ended] using hne) List.not_mem_nil
    | poll | inbound | openFailure | rejected =>
      exact congrArg some (Peerset.streams_congr fun other =>
        hothers other List.not_mem_nil List.not_mem_nil).symm
  refine ⟨⟨session', session'.peerset.streams⟩, ?_, hspec.balanced hs, rfl⟩
  unfold step
  rw [hstep, Option.bind_eq_bind, Option.bind_some, hcount]
  rfl

theorem streams_new (maxOut maxIn : Nat) (reservedOnly : Bool) (reservedPeers : List Peer) :
    (Peerset.new maxOut maxIn reservedOnly reservedPeers).streams = 0 := by
  refine List.length_eq_zero_iff.mpr (List.eq_nil_iff_forall_not_mem.mpr fun peer hin => ?_)
  have hopen := Peerset.mem_streams.mp hin
  rw [Peerset.not_open_of_idle (Peerset.idle_new maxOut maxIn reservedOnly reservedPeers peer)]
    at hopen
  cases hopen

/-- Where the peer store is fair and substreams are reported closed only for peers that are
connected, closing, disconnected or not known, no count falls below zero, and the counts are exact.
-/
theorem run_counts_exact (maxOut maxIn : Nat) (reservedOnly : Bool) (reservedPeers : List Peer)
    (events : List (Event Peer)) (hfair : ∀ event ∈ events, Session.Fair event)
    (hevents : Run.Along step (·.session.ClosesOpen ·)
      (new maxOut maxIn reservedOnly reservedPeers) events) :
    ∃ s, Run.exec step (new maxOut maxIn reservedOnly reservedPeers) events = some s ∧ s.Exact := by
  obtain ⟨s, hrun, hs, hconnected⟩ := Run.exec_total
    (I := fun s : Tally Peer => s.session.peerset.Balanced True ∧
      s.connectedPeers = s.session.peerset.streams)
    (fun s event hs hevent => step_balanced hs.1 hs.2 hevent)
    ⟨Peerset.balanced_new True maxOut maxIn reservedOnly reservedPeers,
      (streams_new maxOut maxIn reservedOnly reservedPeers).symm⟩ (hevents.and_mem hfair)
  exact ⟨s, hrun, fun direction => Nat.le_antisymm (hs.exact trivial direction).1
    (hs.counted direction), fun direction => (hs.exact trivial direction).2, hs.cost_le, hconnected⟩

end Tally

/-! ## The protocol of the backend -/

/-- What the backend has yet to report. -/
structure Wire (Peer : Type) where
  opening : List Peer
  validating : List Peer
  opened : List Peer

namespace Wire

def answer (wire : Wire Peer) (peer : Peer) : Option (Wire Peer) :=
  if peer ∈ wire.opening then some { wire with opening := wire.opening.erase peer }
  else if peer ∈ wire.validating then some { wire with validating := wire.validating.erase peer }
  else none

/-- A peer has at most one substream to be opened, and is reported opened before closed. -/
def step (wire : Wire Peer) (s : Peerset Peer) : Event Peer → Option (Wire Peer)
  | .poll wake => do
    let (_, command) ← s.pollNext wake
    let peers := (command.map (·.openPeers)).getD []
    if ∀ peer ∈ peers, peer ∉ wire.opening then
      some { wire with opening := peers ++ wire.opening }
    else none
  | .inbound store peer =>
    if (s.reportInboundSubstream store peer).2 = .accept then
      some { wire with validating := peer :: wire.validating }
    else some wire
  | .rejected peer =>
    if peer ∈ wire.validating then some { wire with validating := wire.validating.erase peer }
    else none
  | .opened peer =>
    (wire.answer peer).map fun wire => { wire with opened := peer :: wire.opened }
  | .openFailure peer => wire.answer peer
  | .closed peer =>
    if peer ∈ wire.opened then some { wire with opened := wire.opened.erase peer } else none

end Wire

namespace Tally

open Session (storeOf allocate command Fair)

/-- A step that keeps to the protocol of the backend. -/
def stepOn (s : Tally Peer × Wire Peer) (event : Event Peer) : Option (Tally Peer × Wire Peer) := do
  let wire ← s.2.step s.1.session.peerset event
  let tally ← s.1.step event
  some (tally, wire)

theorem storeOf_fair {candidates : List Nat} (h : candidates.Nodup) : (storeOf candidates).Fair :=
  fun _ _ => ⟨(h.filter _).sublist (List.take_sublist _ _), List.length_take_le _ _⟩

/-- Two peers are connected, and one of them is closed. -/
theorem run_counts_exact_closing :
    let events := [allocate [1, 2], .opened 1, .opened 2, command (.disconnectPeer 1), .closed 1]
    (∀ event ∈ events, Fair event) ∧
      Run.Along step (·.session.ClosesOpen ·) (new 2 1 false []) events ∧
      ∃ s, Run.exec step (new 2 1 false []) events = some s ∧ s.Exact := by
  intro events
  have hfair : ∀ event ∈ events, Fair event := by
    have hnil := storeOf_fair List.nodup_nil
    have htwo : (storeOf [1, 2]).Fair := storeOf_fair (by decide)
    simp only [events, List.forall_mem_cons]
    exact ⟨htwo, trivial, trivial, hnil, trivial, by simp⟩
  have hevents : Run.Along step (·.session.ClosesOpen ·) (new 2 1 false []) events := by
    decide +kernel
  exact ⟨hfair, hevents, run_counts_exact 2 1 false [] events hfair hevents⟩

/-- A substream is reported opened after an inbound one from its peer was rejected. One peer is left
with a substream, but two slots are taken and no peer counts as connected. -/
theorem run_counts_inexact :
    let events := [allocate [1], .opened 1, allocate [2], .inbound (storeOf []) 2, .rejected 2,
      .opened 2, allocate [2], .closed 2]
    (Run.exec stepOn (new 2 1 false [], ⟨[], [], []⟩) events).map (fun (s, _) =>
      (s.session.peerset.numOut, s.session.peerset.regular .outbound, s.connectedPeers,
        s.session.peerset.streams)) = some (2, 1, 0, 1) := by
  decide +kernel

end Tally

end PolkadotSdk.Network
