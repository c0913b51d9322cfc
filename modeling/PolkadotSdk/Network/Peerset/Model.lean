import Mathlib
import PolkadotSdk.Lib.MapTotal
import PolkadotSdk.Lib.Run
import PolkadotSdk.Lib.Unordered

/-! # The peer set of a notification protocol

Which peers a protocol of the `litep2p` backend is connected to. Other parts of the node send
commands, the backend reports what happens to substreams, and the peer set answers with commands
to open and to close substreams. Regular peers take slots, reserved peers do not.

Hash sets and hash maps are iterated in an order that is a parameter. `none` is a slot count
that falls below zero. The reputation changes that the peer store is told of are left out.
-/

namespace PolkadotSdk.Network

open Std

inductive Reserved where
  | yes
  | no
  deriving DecidableEq, Repr

/-- `From<bool>` -/
def Reserved.ofBool (value : Bool) : Reserved := if value then .yes else .no

inductive Direction where
  | inbound (reserved : Reserved)
  | outbound (reserved : Reserved)
  deriving DecidableEq, Repr

def Direction.setReserved (reserved : Reserved) : Direction → Direction
  | .inbound _ => .inbound reserved
  | .outbound _ => .outbound reserved

inductive TraitsDirection where
  | inbound
  | outbound
  deriving DecidableEq, Repr

def Direction.toTraits : Direction → TraitsDirection
  | .inbound _ => .inbound
  | .outbound _ => .outbound

inductive OpenResult where
  | accept (direction : TraitsDirection)
  | reject
  deriving DecidableEq, Repr

inductive ValidationResult where
  | accept
  | reject
  deriving DecidableEq, Repr

inductive PeerState where
  | disconnected
  | backoff
  | opening (direction : Direction)
  | connected (direction : Direction)
  | canceled (direction : Direction)
  | closing (direction : Direction)
  deriving DecidableEq, Repr

namespace PeerState

def direction? : PeerState → Option Direction
  | .disconnected | .backoff => none
  | .opening direction | .connected direction | .canceled direction | .closing direction =>
    some direction

def reserve : PeerState → PeerState
  | .disconnected => .disconnected
  | .backoff => .backoff
  | .opening direction => .opening (direction.setReserved .yes)
  | .connected direction => .connected (direction.setReserved .yes)
  | .canceled direction => .canceled (direction.setReserved .yes)
  | .closing direction => .closing (direction.setReserved .yes)

/-- What entering the reserved-only mode makes of the state. -/
def shut : PeerState → PeerState
  | .connected direction => .closing direction
  | .opening direction => .canceled direction
  | state => state

end PeerState

variable {Peer : Type} [LinearOrder Peer]

inductive PeersetCommand (Peer : Type) where
  | setReservedPeers (peers : List Peer)
  | addReservedPeers (peers : List Peer)
  | removeReservedPeers (peers : List Peer)
  | setReservedOnly (reservedOnly : Bool)
  | disconnectPeer (peer : Peer)
  | getReservedPeers
  deriving DecidableEq, Repr

structure PeersetNotificationCommand (Peer : Type) where
  openPeers : List Peer
  closePeers : List Peer
  deriving DecidableEq, Repr

namespace PeersetNotificationCommand

omit [LinearOrder Peer]

def openSubstream (peers : List Peer) : PeersetNotificationCommand Peer := ⟨peers, []⟩

def closeSubstream (peers : List Peer) : PeersetNotificationCommand Peer := ⟨[], peers⟩

end PeersetNotificationCommand

structure PeerStore (Peer : Type) where
  isBanned : Peer → Bool
  outgoingCandidates : (count : Nat) → (ignored : List Peer) → List Peer
  not_ignored : ∀ count ignored, ∀ peer ∈ outgoingCandidates count ignored, peer ∉ ignored

structure Peerset (Peer : Type) [LinearOrder Peer] where
  maxOut : Nat
  numOut : Nat
  maxIn : Nat
  numIn : Nat
  reservedOnly : Bool
  reservedPeers : ExtTreeSet Peer
  peers : ExtTreeMap Peer PeerState
  pendingBackoffs : List Peer

namespace Peerset

def new (maxOut maxIn : Nat) (reservedOnly : Bool) (reservedPeers : List Peer) : Peerset Peer :=
  { maxOut := maxOut
    numOut := 0
    maxIn := maxIn
    numIn := 0
    reservedOnly := reservedOnly
    reservedPeers := ExtTreeSet.ofList reservedPeers
    peers := reservedPeers.foldl (fun peers peer => peers.insert peer .disconnected) ∅
    pendingBackoffs := [] }

def put (s : Peerset Peer) (peer : Peer) (state : PeerState) : Peerset Peer :=
  { s with peers := s.peers.insert peer state }

/-- `decrement_or_warn!` for the slot of a regular peer -/
def freeSlot (s : Peerset Peer) : Direction → Peerset Peer
  | .inbound .no => { s with numIn := s.numIn - 1 }
  | .outbound .no => { s with numOut := s.numOut - 1 }
  | _ => s

def incrementSlot (s : Peerset Peer) : Direction → Peerset Peer
  | .inbound .no => { s with numIn := s.numIn + 1 }
  | .outbound .no => { s with numOut := s.numOut + 1 }
  | _ => s

def shouldDisconnect (s : Peerset Peer) : Direction → Bool
  | .inbound _ => s.numIn ≥ s.maxIn
  | .outbound _ => s.numOut ≥ s.maxOut

def backOff (s : Peerset Peer) (peer : Peer) : Peerset Peer :=
  { s.put peer .backoff with pendingBackoffs := s.pendingBackoffs ++ [peer] }

/-! ## Reports -/

def reportSubstreamOpened (s : Peerset Peer) (peer : Peer) : Peerset Peer × OpenResult :=
  match s.peers[peer]? with
  | some (.opening direction) =>
    (s.put peer (.connected direction), .accept direction.toTraits)
  | some (.canceled direction) => (s.put peer (.closing direction), .reject)
  | _ => (s, .reject)

def reportSubstreamClosed (s : Peerset Peer) (peer : Peer) : Peerset Peer :=
  match s.peers[peer]? with
  | none => s
  | some (.connected direction) | some (.closing direction) =>
    (s.freeSlot direction).backOff peer
  | some _ => s.backOff peer

def acceptInbound (s : Peerset Peer) (peer : Peer) : Peerset Peer × ValidationResult :=
  let isReservedPeer := s.reservedPeers.contains peer
  let opening := PeerState.opening (.inbound (.ofBool isReservedPeer))
  if isReservedPeer then (s.put peer opening, .accept)
  else if s.numIn < s.maxIn then ({ s with numIn := s.numIn + 1 }.put peer opening, .accept)
  else (s.put peer .disconnected, .reject)

def validateInbound (s : Peerset Peer) (peer : Peer) : Peerset Peer × ValidationResult :=
  let isReservedPeer := s.reservedPeers.contains peer
  let shouldReject := s.reservedOnly && !isReservedPeer
  match s.peers[peer]? with
  | some .disconnected => if shouldReject then (s, .reject) else s.acceptInbound peer
  | some .backoff =>
    if !isReservedPeer && s.numIn == s.maxIn then (s, .reject)
    else if shouldReject then (s, .reject)
    else s.acceptInbound peer
  | some (.opening (.outbound reserved)) =>
    if shouldReject then (s.put peer (.canceled (.outbound reserved)), .reject)
    else (s, .accept)
  | _ => (s, .reject)

def reportInboundSubstream (s : Peerset Peer) (store : PeerStore Peer) (peer : Peer) :
    Peerset Peer × ValidationResult :=
  if store.isBanned peer then (s, .reject)
  else { s with peers := s.peers.insertIfNew peer .disconnected }.validateInbound peer

def reportSubstreamOpenFailure (s : Peerset Peer) (peer : Peer) : Peerset Peer :=
  match s.peers[peer]? with
  | some (.opening direction) | some (.canceled direction) =>
    (s.freeSlot direction).backOff peer
  | _ => s

def reportSubstreamRejected (s : Peerset Peer) (peer : Peer) : Peerset Peer :=
  match s.peers[peer]? with
  | some (.opening direction) => (s.freeSlot direction).put peer .disconnected
  | _ => s

/-! ## Commands -/

/-- Peers that become reserved give back their slots; new ones are added. -/
def adjustSlot (state : Peerset Peer × Nat × Nat) (peer : Peer) : Peerset Peer × Nat × Nat :=
  match state.1.peers[peer]? with
  | none => (state.1.put peer .disconnected, state.2)
  | some known =>
    (state.1.put peer known.reserve,
      state.2.1 + (if known.direction? = some (.inbound .no) then 1 else 0),
      state.2.2 + (if known.direction? = some (.outbound .no) then 1 else 0))

def calculateSlotAdjustment (s : Peerset Peer) (peers : List Peer) : Peerset Peer × Nat × Nat :=
  peers.foldl adjustSlot (s, 0, 0)

/-- The slots of the peers that become reserved are free. -/
def adjustSlots (s : Peerset Peer) (peers : List Peer) : Option (Peerset Peer) :=
  let (s, inPeers, outPeers) := s.calculateSlotAdjustment peers
  if outPeers ≤ s.numOut ∧ inPeers ≤ s.numIn then
    some { s with numOut := s.numOut - outPeers, numIn := s.numIn - inPeers }
  else none

def connectReserved (store : PeerStore Peer) (state : Peerset Peer × List Peer) (peer : Peer) :
    Peerset Peer × List Peer :=
  if state.1.peers[peer]? ≠ some .disconnected then state
  else if store.isBanned peer then state
  else (state.1.put peer (.opening (.outbound .yes)), state.2 ++ [peer])

def connectReservedPeers (s : Peerset Peer) (store : PeerStore Peer) (order : Shuffle Peer) :
    Peerset Peer × List Peer :=
  (order.apply s.reservedPeers.toList).foldl (connectReserved store) (s, [])

def disconnectPeer (s : Peerset Peer) (peer : Peer) :
    Peerset Peer × Option (PeersetNotificationCommand Peer) :=
  if s.reservedPeers.contains peer then (s, none)
  else
    match s.peers[peer]? with
    | some (.connected direction) =>
      (s.put peer (.closing direction), some (.closeSubstream [peer]))
    | some (.opening direction) => (s.put peer (.canceled direction), none)
    | _ => (s, none)

/-- The peer is kept connected as a regular one and takes a slot. -/
def makeRegular (s : Peerset Peer) (peer : Peer) (direction : Direction)
    (state : Direction → PeerState) : Peerset Peer :=
  (s.incrementSlot (direction.setReserved .no)).put peer (state (direction.setReserved .no))

def replaceReserved (state : Peerset Peer × List Peer) (peer : Peer) : Peerset Peer × List Peer :=
  match state.1.peers[peer]? with
  | some (.connected direction) =>
    if state.1.reservedOnly || state.1.shouldDisconnect direction then
      (state.1.put peer (.closing direction), state.2 ++ [peer])
    else (state.1.makeRegular peer direction .connected, state.2)
  | some (.opening direction) => (state.1.put peer (.canceled direction), state.2)
  | _ => state

def setReservedPeers (s : Peerset Peer) (store : PeerStore Peer) (order : Shuffle Peer)
    (peers : List Peer) : Option (Peerset Peer × PeersetNotificationCommand Peer) := do
  let s ← s.adjustSlots peers
  let maybeRemove := order.apply (s.reservedPeers.toList.filter (· ∉ peers))
  let s : Peerset Peer := { s with reservedPeers := ExtTreeSet.ofList peers }
  let (s, peersToRemove) := maybeRemove.foldl replaceReserved (s, [])
  let (s, connectTo) := s.connectReservedPeers store order
  some (s, { openPeers := connectTo, closePeers := peersToRemove })

def addReserved (state : Peerset Peer × List Peer) (peer : Peer) : Peerset Peer × List Peer :=
  if state.1.reservedPeers.contains peer then state
  else
    let s : Peerset Peer := { state.1 with reservedPeers := state.1.reservedPeers.insert peer }
    match s.peers[peer]? with
    | none | some .disconnected =>
      (s.put peer (.opening (.outbound .yes)), state.2 ++ [peer])
    | some _ => (s, state.2)

def addReservedPeers (s : Peerset Peer) (peers : List Peer) :
    Option (Peerset Peer × PeersetNotificationCommand Peer) := do
  let s ← s.adjustSlots peers
  let (s, connectTo) := peers.foldl addReserved (s, [])
  some (s, .openSubstream connectTo)

def removeReserved (state : Peerset Peer × List Peer) (peer : Peer) : Peerset Peer × List Peer :=
  if !state.1.reservedPeers.contains peer then state
  else
    let s : Peerset Peer := { state.1 with reservedPeers := state.1.reservedPeers.erase peer }
    match s.peers[peer]? with
    | some (.connected direction) =>
      if s.shouldDisconnect direction then
        (s.put peer (.closing direction), state.2 ++ [peer])
      else (s.makeRegular peer direction .connected, state.2)
    | some (.opening direction) =>
      if s.shouldDisconnect direction then (s.put peer (.canceled direction), state.2)
      else (s.makeRegular peer direction .opening, state.2)
    | _ => (s, state.2)

def removeReservedPeers (s : Peerset Peer) (peers : List Peer) :
    Peerset Peer × PeersetNotificationCommand Peer :=
  let (s, peersToRemove) := peers.foldl removeReserved (s, [])
  (s, .closeSubstream peersToRemove)

def regularConnected (s : Peerset Peer) (peer : Peer) : Bool :=
  !s.reservedPeers.contains peer &&
    match s.peers[peer]? with
    | some (.connected _) => true
    | _ => false

def setReservedOnly (s : Peerset Peer) (order : Shuffle Peer) (reservedOnly : Bool) :
    Peerset Peer × Option (PeersetNotificationCommand Peer) :=
  let s : Peerset Peer := { s with reservedOnly := reservedOnly }
  if reservedOnly then
    let peersToRemove := (order.apply s.peers.keys).filter s.regularConnected
    ({ s with peers := s.peers.map fun _ state => state.shut },
      some (.closeSubstream peersToRemove))
  else (s, none)

/-- The commands that return `none` let the caller go on. -/
def onCommand (s : Peerset Peer) (store : PeerStore Peer) (order : Shuffle Peer) :
    PeersetCommand Peer → Option (Peerset Peer × Option (PeersetNotificationCommand Peer))
  | .disconnectPeer peer => some (s.disconnectPeer peer)
  | .setReservedPeers peers =>
    (s.setReservedPeers store order peers).map fun (s, command) => (s, some command)
  | .addReservedPeers peers =>
    (s.addReservedPeers peers).map fun (s, command) => (s, some command)
  | .removeReservedPeers peers =>
    let (s, command) := s.removeReservedPeers peers
    some (s, some command)
  | .setReservedOnly reservedOnly => some (s.setReservedOnly order reservedOnly)
  | .getReservedPeers => some (s, none)

/-! ## Polling -/

def expireBackoff (s : Peerset Peer) (peer : Peer) : Peerset Peer :=
  match s.peers[peer]? with
  | none | some .backoff => s.put peer .disconnected
  | some _ => s

def ignored (s : Peerset Peer) : List Peer :=
  (s.peers.toList.filter fun entry => entry.2 ≠ .disconnected).map Prod.fst ++
    s.reservedPeers.toList

def allocateSlots (s : Peerset Peer) (store : PeerStore Peer) (order : Shuffle Peer) :
    Peerset Peer × Option (PeersetNotificationCommand Peer) :=
  let (s, connectTo) := s.connectReservedPeers store order
  let peers :=
    if s.numOut < s.maxOut && !s.reservedOnly then
      store.outgoingCandidates (s.maxOut - s.numOut) s.ignored
    else []
  let s :=
    { peers.foldl (fun s peer => s.put peer (.opening (.outbound .no))) s with
      numOut := s.numOut + peers.length }
  let connectTo := connectTo ++ peers
  (s, if connectTo.isEmpty then none else some (.openSubstream connectTo))

/-- What a poll finds: expired back-offs, a command, and whether to allocate slots. -/
structure Wake (Peer : Type) where
  store : PeerStore Peer
  order : Shuffle Peer
  expired : Nat
  backoffs : Shuffle Peer
  command : Option (PeersetCommand Peer)
  allocates : Bool

def expireBackoffs (s : Peerset Peer) (wake : Wake Peer) : Peerset Peer :=
  let pending := wake.backoffs.apply s.pendingBackoffs
  (pending.take wake.expired).foldl expireBackoff
    { s with pendingBackoffs := pending.drop wake.expired }

def handleCommand (s : Peerset Peer) (wake : Wake Peer) :
    Option (Peerset Peer × Option (PeersetNotificationCommand Peer)) :=
  match wake.command with
  | none => some (s, none)
  | some command => s.onCommand wake.store wake.order command

def pollNext (s : Peerset Peer) (wake : Wake Peer) :
    Option (Peerset Peer × Option (PeersetNotificationCommand Peer)) :=
  match (s.expireBackoffs wake).handleCommand wake with
  | none => none
  | some (s, some command) => some (s, some command)
  | some (s, none) =>
    some (if wake.allocates then s.allocateSlots wake.store wake.order else (s, none))

end Peerset

/-! ## Runs -/

inductive Event (Peer : Type) where
  | poll (wake : Peerset.Wake Peer)
  | inbound (store : PeerStore Peer) (peer : Peer)
  | opened (peer : Peer)
  | closed (peer : Peer)
  | openFailure (peer : Peer)
  | rejected (peer : Peer)

/-- What the peer set tells the backend about closing. -/
inductive Notice (Peer : Type) where
  | command (command : PeersetNotificationCommand Peer)
  | opened (peer : Peer) (result : OpenResult)

/-- A peer set with what it has told the backend, the latest first. -/
structure Session (Peer : Type) [LinearOrder Peer] where
  peerset : Peerset Peer
  log : List (Notice Peer)

namespace Session

def new (maxOut maxIn : Nat) (reservedOnly : Bool) (reservedPeers : List Peer) : Session Peer :=
  ⟨.new maxOut maxIn reservedOnly reservedPeers, []⟩

def step (s : Session Peer) : Event Peer → Option (Session Peer)
  | .poll wake =>
    (s.peerset.pollNext wake).map fun (peerset, command) =>
      ⟨peerset, (command.toList.map Notice.command) ++ s.log⟩
  | .inbound store peer => some { s with peerset := (s.peerset.reportInboundSubstream store peer).1 }
  | .opened peer =>
    let (peerset, result) := s.peerset.reportSubstreamOpened peer
    some ⟨peerset, .opened peer result :: s.log⟩
  | .closed peer => some { s with peerset := s.peerset.reportSubstreamClosed peer }
  | .openFailure peer => some { s with peerset := s.peerset.reportSubstreamOpenFailure peer }
  | .rejected peer => some { s with peerset := s.peerset.reportSubstreamRejected peer }

end Session

end PolkadotSdk.Network
