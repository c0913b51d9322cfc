import PolkadotSdk.Network.Peerset.Closing

/-! # Runs of the peer set

Reports and polls in any order, from a new peer set.
-/

namespace PolkadotSdk.Network

open Std

variable {Peer : Type} [LinearOrder Peer]

namespace Peerset

open PeerState

theorem reportSubstreamOpened_closing {s : Peerset Peer} {peer : Peer}
    (h : (s.reportSubstreamOpened peer).1.is isClosing peer = true) :
    (s.reportSubstreamOpened peer).2 = .reject := by
  unfold reportSubstreamOpened at h ⊢
  split at h
  · rw [is_put rfl, if_pos rfl] at h
    cases h
  · rfl
  · rfl

theorem idle_new (maxOut maxIn : Nat) (reservedOnly : Bool) (reservedPeers : List Peer)
    (peer : Peer) :
    (new maxOut maxIn reservedOnly reservedPeers).peers[peer]?.bind PeerState.direction? = none := by
  have hpeers := OrderedMap.getElem?_insertAll reservedPeers PeerState.disconnected ∅ peer
  rw [show (new maxOut maxIn reservedOnly reservedPeers).peers[peer]? = _ from hpeers]
  split_ifs
  · rfl
  · simp

theorem balanced_new (strict : Prop) (maxOut maxIn : Nat) (reservedOnly : Bool)
    (reservedPeers : List Peer) :
    (new maxOut maxIn reservedOnly reservedPeers).Balanced strict := by
  have hidle := idle_new maxOut maxIn reservedOnly reservedPeers
  refine ⟨fun direction => ?_, fun _ direction => ?_, fun _ peer _ => cost_idle (hidle peer)⟩
  · refine (OrderedMap.total_eq_zero fun peer state hget => ?_).le.trans (Nat.zero_le _)
    have hpeer := cost_idle (hidle peer) direction
    rwa [hget] at hpeer
  · cases direction <;> exact ⟨Nat.zero_le _, Nat.zero_le _⟩

end Peerset

/-! ## The reserved-only mode -/

namespace Session

open PeerState

/-- Reserved peers are removed only when there is no free slot for them. -/
def RemovesFull (s : Session Peer) : Event Peer → Prop
  | .poll wake => wake.RemovesFull s.peerset
  | _ => True

instance (s : Session Peer) (event : Event Peer) : Decidable (s.RemovesFull event) :=
  match event with
  | .poll wake => inferInstanceAs (Decidable (wake.RemovesFull s.peerset))
  | .inbound _ _ | .opened _ | .closed _ | .openFailure _ | .rejected _ => isTrue trivial

/-- Since its substream was last opened, the peer was to close, or was rejected. -/
def Told (peer : Peer) : List (Notice Peer) → Prop
  | [] => False
  | .command command :: log => peer ∈ command.closePeers ∨ Told peer log
  | .opened other result :: log => if other = peer then result = .reject else Told peer log

instance decidableTold (peer : Peer) : ∀ log, Decidable (Told peer log)
  | [] => isFalse id
  | .command _ :: log =>
    have := decidableTold peer log
    inferInstanceAs (Decidable (_ ∨ _))
  | .opened other result :: log =>
    have := decidableTold peer log
    inferInstanceAs (Decidable (if other = peer then result = .reject else Told peer log))

/-- The reserved-only mode is entered only while no reserved peer is connected. -/
def EntersClear (s : Session Peer) : Event Peer → Prop
  | .poll wake => wake.EntersClear s.peerset
  | _ => True

instance (s : Session Peer) (event : Event Peer) : Decidable (s.EntersClear event) :=
  match event with
  | .poll wake => inferInstanceAs (Decidable (wake.EntersClear s.peerset))
  | .inbound _ _ | .opened _ | .closed _ | .openFailure _ | .rejected _ => isTrue trivial

def ended : Event Peer → List Peer
  | .closed peer => [peer]
  | _ => []

def begun : Event Peer → List Peer
  | .opened peer => [peer]
  | _ => []

def Fair : Event Peer → Prop
  | .poll wake => wake.store.Fair
  | _ => True

/-- A substream is reported closed only for a peer that is connected, closing, disconnected or not
known. -/
def ClosesOpen (s : Session Peer) : Event Peer → Prop
  | .closed peer => s.peerset.peers[peer]?.all fun state => state.isOpen || state = .disconnected
  | _ => True

instance (s : Session Peer) (event : Event Peer) : Decidable (s.ClosesOpen event) :=
  match event with
  | .closed _ => inferInstanceAs (Decidable (_ = true))
  | .poll _ | .inbound _ _ | .opened _ | .openFailure _ | .rejected _ => isTrue trivial

variable {s s' : Session Peer} {event : Event Peer}

theorem told_append_command {peer : Peer} {answer : Option (PeersetNotificationCommand Peer)}
    {log : List (Notice Peer)} (h : Told peer log ∨ peer ∈ Peerset.asked answer) :
    Told peer (answer.toList.map Notice.command ++ log) := by
  cases answer with
  | none => exact h.resolve_right fun hnil => nomatch hnil
  | some command => exact h.symm

/-- Every step is defined, and the peers that it asks to close are told of. -/
theorem step_spec {t : Peerset.Terms} (hs : s.peerset.Balanced t.strict)
    (hstrict : t.strict → Fair event ∧ s.ClosesOpen event) (hclear : t.clear → s.EntersClear event)
    (hfull : t.full → s.RemovesFull event) :
    ∃ s' asked, s.step event = some s' ∧
      Peerset.Step t s.peerset s'.peerset asked (ended event) (begun event) ∧
      ∀ peer, s'.peerset.is isClosing peer = true → Told peer s.log ∨ peer ∈ asked →
        Told peer s'.log := by
  have hsame : ∀ peer : Peer, Told peer s.log ∨ peer ∈ [] → Told peer s.log := fun _ h =>
    h.resolve_right List.not_mem_nil
  cases event with
  | poll wake =>
    obtain ⟨peerset, answer, hpoll, hstep⟩ := Peerset.pollNext_step hs hclear hfull
      fun hterms => (hstrict hterms).1
    exact ⟨_, _, by rw [step, hpoll]; rfl, hstep, fun _ _ => told_append_command⟩
  | opened other =>
    refine ⟨_, _, rfl, s.peerset.reportSubstreamOpened_step other, fun peer hclosing h => ?_⟩
    simp only [Told]
    split_ifs with heq
    · subst heq
      exact Peerset.reportSubstreamOpened_closing hclosing
    · refine h.resolve_right fun hasked => heq ?_
      unfold Peerset.refused at hasked
      split_ifs at hasked
      · exact (List.mem_singleton.mp hasked).symm
      · cases hasked
  | closed other =>
    exact ⟨_, _, rfl, Peerset.reportSubstreamClosed_step fun hterms => (hstrict hterms).2, fun peer _ => hsame peer⟩
  | inbound store other =>
    exact ⟨_, _, rfl, s.peerset.reportInboundSubstream_step store other, fun peer _ => hsame peer⟩
  | openFailure other =>
    exact ⟨_, _, rfl, s.peerset.reportSubstreamOpenFailure_step other, fun peer _ => hsame peer⟩
  | rejected other =>
    exact ⟨_, _, rfl, s.peerset.reportSubstreamRejected_step other, fun peer _ => hsame peer⟩

/-- In the reserved-only mode only reserved peers are opening or connected. -/
def Exclusive (s : Session Peer) : Prop :=
  s.peerset.reservedOnly = true → ∀ (peer : Peer) (state : PeerState),
    s.peerset.peers[peer]? = some state → state.isActive = true → peer ∈ s.peerset.reservedPeers

theorem Exclusive.step (hs : s.Exclusive) {asked ended begun : List Peer}
    (h : Peerset.Step ⟨False, False, True⟩ s.peerset s'.peerset asked ended begun) :
    s'.Exclusive := by
  intro honly peer state hget hactive
  by_contra hout
  obtain ⟨honly', hactive', hout'⟩ := h.excludes trivial honly peer
    ((Peerset.is_of_get hget).trans hactive) hout
  obtain ⟨state', hget', hstate'⟩ := Peerset.exists_of_is hactive'
  exact hout' (hs honly' peer state' hget' hstate')

theorem exclusive_new (maxOut maxIn : Nat) (reservedOnly : Bool) (reservedPeers : List Peer) :
    (new maxOut maxIn reservedOnly reservedPeers).Exclusive := by
  intro _ peer state hget hactive
  have hidle := Peerset.idle_new maxOut maxIn reservedOnly reservedPeers peer
  rw [show (Peerset.new maxOut maxIn reservedOnly reservedPeers).peers[peer]? = _ from hget] at hidle
  rw [(Peerset.tests_of_idle hidle).2.1] at hactive
  cases hactive

/-- In every run in which reserved peers are removed, in the reserved-only mode, only when there is
no free slot for them, every peer that is opening or connected in that mode is reserved. -/
theorem run_exclusive (maxOut maxIn : Nat) (reservedOnly : Bool) (reservedPeers : List Peer)
    (events : List (Event Peer))
    (hevents : Run.Along step RemovesFull (new maxOut maxIn reservedOnly reservedPeers) events) :
    ∃ s, Run.exec step (new maxOut maxIn reservedOnly reservedPeers) events = some s ∧
      (s.peerset.reservedOnly = true → ∀ (peer : Peer) (direction : Direction),
        s.peerset.peers[peer]? = some (.opening direction) ∨
          s.peerset.peers[peer]? = some (.connected direction) →
        peer ∈ s.peerset.reservedPeers) := by
  obtain ⟨s, hrun, -, hs⟩ := Run.exec_total
    (I := fun s : Session Peer => s.peerset.Balanced False ∧ s.Exclusive) (fun s event hs hevent => by
      obtain ⟨s', asked, hstep, hspec, -⟩ := step_spec (t := ⟨False, False, True⟩) hs.1 False.elim
        False.elim fun _ => hevent
      exact ⟨s', hstep, hspec.balanced hs.1, hs.2.step hspec⟩)
    ⟨Peerset.balanced_new False maxOut maxIn reservedOnly reservedPeers,
      exclusive_new maxOut maxIn reservedOnly reservedPeers⟩ hevents
  refine ⟨s, hrun, fun honly peer direction hget => ?_⟩
  rcases hget with hget | hget
  · exact hs honly peer _ hget rfl
  · exact hs honly peer _ hget rfl

/-! ## Slot counts -/

/-- Whatever is reported, in whatever order, no slot count falls below zero, and the peers that
count as regular never outnumber the slots taken for them. -/
theorem run_slots_cover (maxOut maxIn : Nat) (reservedOnly : Bool) (reservedPeers : List Peer)
    (events : List (Event Peer)) :
    ∃ s, Run.exec step (new maxOut maxIn reservedOnly reservedPeers) events = some s ∧
      ∀ direction, s.peerset.regular direction ≤ s.peerset.taken direction := by
  obtain ⟨s, hrun, hs⟩ := Run.exec_total
    (I := fun s : Session Peer => s.peerset.Balanced False) (P := fun _ _ => True)
    (fun s event hs _ => by
      obtain ⟨s', _, hstep, hspec, -⟩ := step_spec (t := ⟨False, False, False⟩) hs False.elim
        (fun h => (h.elim : s.EntersClear event)) False.elim
      exact ⟨s', hstep, hspec.balanced hs⟩)
    (s := new maxOut maxIn reservedOnly reservedPeers)
    (Peerset.balanced_new False maxOut maxIn reservedOnly reservedPeers)
    (Run.Along.of_forall (fun _ _ => trivial) _ events)
  exact ⟨s, hrun, hs.counted⟩

/-! ## Runs on small peer sets -/

def storeOf (candidates : List Nat) : PeerStore Nat where
  isBanned _ := false
  outgoingCandidates count ignored := (candidates.filter (· ∉ ignored)).take count
  not_ignored count ignored peer hpeer := by
    simpa using (List.mem_filter.mp (List.mem_of_mem_take hpeer)).2

def command (command : PeersetCommand Nat) : Event Nat :=
  .poll ⟨storeOf [], .asGiven Nat, 0, .asGiven Nat, some command, false⟩

def allocate (candidates : List Nat) : Event Nat :=
  .poll ⟨storeOf candidates, .asGiven Nat, 8, .asGiven Nat, none, true⟩

/-- Without outbound slots, a reserved peer is connected and removed; another one is connected and
replaced, and a regular one is turned away. -/
theorem run_exclusive_closing :
    let events := [allocate [], .opened 2, command (.removeReservedPeers [2]), .closed 2,
      command (.setReservedPeers [3]), .opened 3, command (.setReservedPeers [4]),
      .inbound (storeOf []) 5]
    Run.Along step RemovesFull (new 0 1 true [2]) events ∧
      ∃ s, Run.exec step (new 0 1 true [2]) events = some s ∧
        (s.peerset.reservedOnly = true → ∀ (peer : Nat) (direction : Direction),
          s.peerset.peers[peer]? = some (.opening direction) ∨
            s.peerset.peers[peer]? = some (.connected direction) →
          peer ∈ s.peerset.reservedPeers) := by
  intro events
  have hevents : Run.Along step RemovesFull (new 0 1 true [2]) events := by
    decide +kernel
  exact ⟨hevents, run_exclusive 0 1 true [2] events hevents⟩

def peerAfter (s : Session Nat) (events : List (Event Nat)) (peer : Nat) :
    Option (Option PeerState × Bool × Bool) :=
  (Run.exec step s events).map fun s => (s.peerset.peers[peer]?,
    s.peerset.reservedPeers.contains peer, s.peerset.reservedOnly)

/-- A reserved peer is removed in the reserved-only mode while there is a free slot: connected or
opening, it is kept as a regular one. -/
theorem run_not_exclusive :
    peerAfter (new 1 1 true [7]) [allocate [], .opened 7, command (.removeReservedPeers [7])] 7 =
        some (some (.connected (.outbound .no)), false, true) ∧
      peerAfter (new 1 1 true [7]) [allocate [], command (.removeReservedPeers [7])] 7 =
        some (some (.opening (.outbound .no)), false, true) := by
  decide +kernel

/-! ## Closing -/

def Explained (s : Session Peer) : Prop :=
  ∀ peer, s.peerset.is isClosing peer = true → Told peer s.log

theorem Explained.step (hs : s.Explained) (hbalanced : s.peerset.Balanced False)
    (hclear : s.EntersClear event) :
    ∃ s' asked, s.step event = some s' ∧ s'.Explained ∧
      Peerset.Step ⟨False, True, False⟩ s.peerset s'.peerset asked (ended event) (begun event) := by
  obtain ⟨s', asked, hstep, hspec, htold⟩ := step_spec (t := ⟨False, True, False⟩) hbalanced
    False.elim (fun _ => hclear) False.elim
  exact ⟨s', asked, hstep, fun peer hclosing => htold peer hclosing
    ((hspec.closing trivial peer hclosing).imp_left (hs peer)), hspec⟩

theorem explained_new (maxOut maxIn : Nat) (reservedOnly : Bool) (reservedPeers : List Peer) :
    (new maxOut maxIn reservedOnly reservedPeers).Explained := by
  intro peer hclosing
  obtain ⟨state, hget, hstate⟩ := Peerset.exists_of_is hclosing
  have hidle := Peerset.idle_new maxOut maxIn reservedOnly reservedPeers peer
  rw [show (Peerset.new maxOut maxIn reservedOnly reservedPeers).peers[peer]? = _ from hget] at hidle
  rw [(Peerset.tests_of_idle hidle).1] at hstate
  cases hstate

/-- In every run in which the reserved-only mode is entered only while no reserved peer is
connected, a peer is closing only if the backend was told to close its substream; and in the next
such step a connected peer that stays reserved stays connected, unless the step is the report that
its substream was closed. -/
theorem run_closing_told (maxOut maxIn : Nat) (reservedOnly : Bool) (reservedPeers : List Peer)
    (events : List (Event Peer))
    (hevents : Run.Along step EntersClear (new maxOut maxIn reservedOnly reservedPeers) events) :
    ∃ s, Run.exec step (new maxOut maxIn reservedOnly reservedPeers) events = some s ∧
      (∀ (peer : Peer) (direction : Direction),
        s.peerset.peers[peer]? = some (.closing direction) → Told peer s.log) ∧
      ∀ event s', s.EntersClear event → s.step event = some s' →
        ∀ peer ∈ s.peerset.reservedPeers, peer ∈ s'.peerset.reservedPeers → event ≠ .closed peer →
          ∀ direction, s.peerset.peers[peer]? = some (.connected direction) →
            ∃ direction', s'.peerset.peers[peer]? = some (.connected direction') := by
  obtain ⟨s, hrun, hbalanced, hs⟩ := Run.exec_total
    (I := fun s : Session Peer => s.peerset.Balanced False ∧ s.Explained) (fun s event hs hevent => by
      obtain ⟨s', asked, hstep, hexplained, hspec⟩ := hs.2.step hs.1 hevent
      exact ⟨s', hstep, hspec.balanced hs.1, hexplained⟩)
    ⟨Peerset.balanced_new False maxOut maxIn reservedOnly reservedPeers,
      explained_new maxOut maxIn reservedOnly reservedPeers⟩ hevents
  refine ⟨s, hrun, fun peer direction hget => hs peer (Peerset.is_of_get hget), ?_⟩
  intro event s' hclear hstep peer hin hin' hopen direction hget
  obtain ⟨s'', asked, hstep', -, hspec⟩ := hs.step hbalanced hclear
  obtain rfl := Option.some.inj (hstep.symm.trans hstep')
  have hnot : peer ∉ ended event := by
    cases event with
    | closed other => exact fun hin => hopen (congrArg Event.closed (List.mem_singleton.mp hin).symm)
    | poll | inbound | opened | openFailure | rejected => exact List.not_mem_nil
  obtain ⟨state, hget', hstate⟩ := Peerset.exists_of_is
    ((hspec.connected trivial peer hin hin' (Peerset.is_of_get hget)).resolve_right hnot)
  cases state with
  | connected direction' => exact ⟨direction', hget'⟩
  | disconnected | backoff | opening | canceled | closing => cases hstate

/-- The mode is entered while a reserved peer is opening and a regular one connected. -/
theorem run_closing_told_entering :
    let events := [allocate [1], .opened 1, command (.addReservedPeers [2]),
      command (.setReservedOnly true), .opened 2, .closed 1, .closed 2]
    Run.Along step EntersClear (new 1 1 false []) events ∧
      ∃ s, Run.exec step (new 1 1 false []) events = some s ∧
        (∀ (peer : Nat) (direction : Direction),
          s.peerset.peers[peer]? = some (.closing direction) → Told peer s.log) ∧
        ∀ event s', s.EntersClear event → s.step event = some s' →
          ∀ peer ∈ s.peerset.reservedPeers, peer ∈ s'.peerset.reservedPeers →
            event ≠ .closed peer →
            ∀ direction, s.peerset.peers[peer]? = some (.connected direction) →
              ∃ direction', s'.peerset.peers[peer]? = some (.connected direction') := by
  intro events
  have hevents : Run.Along step EntersClear (new 1 1 false []) events := by
    decide +kernel
  exact ⟨hevents, run_closing_told 1 1 false [] events hevents⟩

/-- The mode is entered while a reserved peer is connected: the peer is closing, and the backend
was not told. -/
theorem run_closing_untold :
    let events := [allocate [], .opened 7, command (.setReservedOnly true)]
    peerAfter (new 1 1 false [7]) [allocate [], .opened 7] 7 =
        some (some (.connected (.outbound .yes)), true, false) ∧
      peerAfter (new 1 1 false [7]) events 7 =
        some (some (.closing (.outbound .yes)), true, true) ∧
      (Run.exec step (new 1 1 false [7]) events).map (fun s => decide (Told 7 s.log)) =
        some false := by
  decide +kernel

end Session

end PolkadotSdk.Network
