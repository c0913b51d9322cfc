import PolkadotSdk.Blockchain.TreeRoute
import PolkadotSdk.Lib.Run

/-! # Enactment of blocks

The pool follows the best block and the finalized block of the client. The blocks on the route
from the last best block to a new one are retracted and enacted. An event that is too far ahead
only sets its own block, so that the finalized block may then be on another branch than the best
one; the check that no finalized block is retracted looks at the branch of the best block only.
-/

namespace PolkadotSdk.TransactionPool

open Blockchain

variable {H : Type}

/-! ## Model -/

inductive ChainEvent (H : Type) where
  | newBestBlock (hash : H)
  | finalized (hash : H)
  deriving DecidableEq, Repr

def ChainEvent.hash : ChainEvent H → H
  | .newBestBlock hash => hash
  | .finalized hash => hash

def ChainEvent.isFinalized : ChainEvent H → Bool
  | .newBestBlock _ => false
  | .finalized _ => true

structure EnactmentState (H : Type) where
  recentBestBlock : H
  recentFinalizedBlock : H
  deriving DecidableEq, Repr

inductive EnactmentAction (H : Type) where
  | skip
  | handleEnactment (route : TreeRoute H)
  | handleFinalization
  deriving DecidableEq

def skipMaintenanceThreshold : Nat := 20

namespace EnactmentState

def forceUpdate (state : EnactmentState H) : ChainEvent H → EnactmentState H
  | .newBestBlock hash => { state with recentBestBlock := hash }
  | .finalized hash => { state with recentFinalizedBlock := hash }

/-- The new block is too far ahead of the best one, or one of the two is not known. -/
def skipsMaintenance (hashToNumber : H → Except String (Option Nat)) (state : EnactmentState H)
    (event : ChainEvent H) : Bool :=
  match hashToNumber event.hash, hashToNumber state.recentBestBlock with
  | .ok (some new), .ok (some current) => decide (skipMaintenanceThreshold < new - current)
  | _, _ => true

variable [DecidableEq H]

/-- The update once the route to the block of the event is known. -/
def follow (state : EnactmentState H) (event : ChainEvent H) (route : TreeRoute H) :
    EnactmentState H × EnactmentAction H :=
  if route.retracted.any fun x => decide (x.1 = state.recentFinalizedBlock) then (state, .skip)
  else if event.isFinalized then
    if route.enacted.isEmpty then
      ({ state with recentFinalizedBlock := event.hash }, .handleFinalization)
    else (⟨event.hash, event.hash⟩, .handleEnactment route)
  else ({ state with recentBestBlock := event.hash }, .handleEnactment route)

def update (treeRoute : H → H → Except String (TreeRoute H))
    (hashToNumber : H → Except String (Option Nat)) (state : EnactmentState H)
    (event : ChainEvent H) : Except String (EnactmentState H × EnactmentAction H) :=
  if state.skipsMaintenance hashToNumber event then .ok (state.forceUpdate event, .skip)
  else if state.recentFinalizedBlock = event.hash then .ok (state, .skip)
  else
    match treeRoute state.recentBestBlock event.hash with
    | .error message => .error message
    | .ok route => .ok (state.follow event route)

end EnactmentState

structure Maintenance (H : Type) where
  state : EnactmentState H
  recorded : List H
  deriving DecidableEq

section Maintain

variable [DecidableEq H] (treeRoute : H → H → Except String (TreeRoute H))
  (hashToNumber : H → Except String (Option Nat))

/-- Where the update fails, the event is forced on the state. -/
def maintainState (state : EnactmentState H) (event : ChainEvent H) :
    EnactmentState H × Option (EnactmentAction H) :=
  match state.update treeRoute hashToNumber event with
  | .ok (state, action) => (state, some action)
  | .error _ => (state.forceUpdate event, none)

def maintain (maintenance : Maintenance H) (event : ChainEvent H) : Maintenance H :=
  let state := (maintainState treeRoute hashToNumber maintenance.state event).1
  ⟨state,
    if event.isFinalized ∧ state.recentFinalizedBlock = event.hash then
      event.hash :: maintenance.recorded
    else maintenance.recorded⟩

end Maintain

/-! ## Finalized blocks stay -/

def knownNumber (tree : BlockTree H) (hash : H) : Except String (Option Nat) :=
  .ok ((tree.header hash).map Header.number)

/-- The event is too far ahead, or the finalized block is on the branch of the best one. -/
def InLine (tree : BlockTree H) (maintenance : Maintenance H) (event : ChainEvent H) : Prop :=
  maintenance.state.skipsMaintenance (knownNumber tree) event = true ∨
    tree.Extends maintenance.state.recentFinalizedBlock maintenance.state.recentBestBlock

section Results

variable [DecidableEq H] {tree : BlockTree H}
  {treeRoute : H → H → Except String (TreeRoute H)}
  {hashToNumber : H → Except String (Option Nat)}

theorem follow_cases (state : EnactmentState H) (event : ChainEvent H) (route : TreeRoute H) :
    state.follow event route = (state, .skip) ∨
    (∀ x ∈ route.retracted, x.1 ≠ state.recentFinalizedBlock) ∧
      ((event.isFinalized = true ∧ route.enacted = [] ∧
        state.follow event route =
          ({ state with recentFinalizedBlock := event.hash }, .handleFinalization)) ∨
      state.follow event route =
        (⟨event.hash, if event.isFinalized then event.hash else state.recentFinalizedBlock⟩,
          .handleEnactment route)) := by
  unfold EnactmentState.follow
  by_cases hretracted : (route.retracted.any fun x =>
      decide (x.1 = state.recentFinalizedBlock)) = true
  · rw [if_pos hretracted]
    exact .inl rfl
  · have hkept : ∀ x ∈ route.retracted, x.1 ≠ state.recentFinalizedBlock := fun x hx heq =>
      hretracted (List.any_eq_true.mpr ⟨x, hx, decide_eq_true heq⟩)
    rw [if_neg hretracted]
    refine .inr ⟨hkept, ?_⟩
    cases hevent : event.isFinalized with
    | false => exact .inr rfl
    | true =>
      cases henacted : route.enacted with
      | nil => exact .inl ⟨rfl, rfl, rfl⟩
      | cons first rest => exact .inr rfl

/-- The routes are the true ones. -/
def TrueRoutes (tree : BlockTree H) (treeRoute : H → H → Except String (TreeRoute H)) : Prop :=
  ∀ a b, (tree.header a).isSome → (tree.header b).isSome →
    ∃ route, treeRoute a b = .ok route ∧ IsRoute tree a b route

variable {event : ChainEvent H}

theorem maintainState_cases {state : EnactmentState H} (hroutes : TrueRoutes tree treeRoute)
    (hbest : (tree.header state.recentBestBlock).isSome)
    (hevent : (tree.header event.hash).isSome) :
    maintainState treeRoute (knownNumber tree) state event = (state, some .skip) ∨
    (state.skipsMaintenance (knownNumber tree) event = true ∧
      maintainState treeRoute (knownNumber tree) state event =
        (state.forceUpdate event, some .skip)) ∨
    state.skipsMaintenance (knownNumber tree) event = false ∧ ∃ route,
      IsRoute tree state.recentBestBlock event.hash route ∧
      (∀ x ∈ route.retracted, x.1 ≠ state.recentFinalizedBlock) ∧
      ((event.isFinalized = true ∧ route.enacted = [] ∧
        maintainState treeRoute (knownNumber tree) state event =
          ({ state with recentFinalizedBlock := event.hash }, some .handleFinalization)) ∨
      maintainState treeRoute (knownNumber tree) state event =
        (⟨event.hash, if event.isFinalized then event.hash else state.recentFinalizedBlock⟩,
          some (.handleEnactment route))) := by
  obtain ⟨route, hroute, hisRoute⟩ := hroutes _ _ hbest hevent
  unfold maintainState EnactmentState.update
  cases hskip : state.skipsMaintenance (knownNumber tree) event with
  | true => simp
  | false =>
    by_cases hfinalized : state.recentFinalizedBlock = event.hash
    · simp [hfinalized]
    · simp only [Bool.false_eq_true, if_false, hfinalized, hroute]
      rcases follow_cases state event route with hfollow | ⟨hkept, hcases⟩
      · rw [hfollow]
        exact .inl rfl
      · refine .inr (.inr ⟨trivial, route, hisRoute, hkept, ?_⟩)
        rcases hcases with ⟨hisFinalized, henacted, hfollow⟩ | hfollow
        · rw [hfollow]
          exact .inl ⟨hisFinalized, henacted, rfl⟩
        · rw [hfollow]
          exact .inr rfl

theorem maintainState_blocks (state : EnactmentState H) (hroutes : TrueRoutes tree treeRoute)
    (hbest : (tree.header state.recentBestBlock).isSome)
    (hevent : (tree.header event.hash).isSome) :
    (tree.header
        (maintainState treeRoute (knownNumber tree) state event).1.recentBestBlock).isSome ∧
      ((event.isFinalized = true ∧
        (maintainState treeRoute (knownNumber tree) state event).1.recentFinalizedBlock =
          event.hash) ∨
      (maintainState treeRoute (knownNumber tree) state event).1.recentFinalizedBlock =
        state.recentFinalizedBlock) := by
  rcases maintainState_cases hroutes hbest hevent with hsame | ⟨-, hforced⟩ |
    ⟨-, route, -, -, ⟨hfinalized, -, hnext⟩ | hnext⟩
  · rw [hsame]
    exact ⟨hbest, .inr rfl⟩
  · rw [hforced]
    cases event with
    | newBestBlock hash => exact ⟨hevent, .inr rfl⟩
    | finalized hash => exact ⟨hbest, .inl ⟨rfl, rfl⟩⟩
  · rw [hnext]
    exact ⟨hbest, .inl ⟨hfinalized, rfl⟩⟩
  · rw [hnext]
    cases event with
    | newBestBlock hash => exact ⟨hevent, .inr rfl⟩
    | finalized hash => exact ⟨hevent, .inl ⟨rfl, rfl⟩⟩

structure Tracks (tree : BlockTree H) (maintenance : Maintenance H) : Prop where
  best : (tree.header maintenance.state.recentBestBlock).isSome
  finalized : (tree.header maintenance.state.recentFinalizedBlock).isSome
  below : ∀ f ∈ maintenance.recorded, tree.Extends f maintenance.state.recentFinalizedBlock

variable {maintenance : Maintenance H}

omit [DecidableEq H] in
theorem tracks_record (hevent : (tree.header event.hash).isSome)
    (hascends : ∀ f ∈ maintenance.recorded, tree.Extends f event.hash) {best : H}
    (hbest : (tree.header best).isSome) :
    Tracks tree ⟨⟨best, event.hash⟩, event.hash :: maintenance.recorded⟩ := by
  obtain ⟨x, hx⟩ := Option.isSome_iff_exists.mp hevent
  refine ⟨hbest, hevent, fun f hf => ?_⟩
  rcases List.mem_cons.mp hf with rfl | hf
  · exact .refl hx
  · exact hascends f hf

theorem Tracks.maintain (h : Tracks tree maintenance) (hroutes : TrueRoutes tree treeRoute)
    (hevent : (tree.header event.hash).isSome)
    (hascends : event.isFinalized = true → ∀ f ∈ maintenance.recorded,
      tree.Extends f event.hash) :
    Tracks tree (maintain treeRoute (knownNumber tree) maintenance event) := by
  obtain ⟨hbest, hfinalized⟩ := maintainState_blocks maintenance.state hroutes h.best
    hevent
  unfold TransactionPool.maintain
  dsimp only
  generalize (maintainState treeRoute (knownNumber tree) maintenance.state event).1 = state'
    at hbest hfinalized
  obtain ⟨best', finalized'⟩ := state'
  rcases hfinalized with ⟨hisFinalized, rfl⟩ | rfl
  · rw [if_pos ⟨hisFinalized, rfl⟩]
    exact tracks_record hevent (hascends hisFinalized) hbest
  · split_ifs with hrecorded
    · rw [hrecorded.2]
      exact tracks_record hevent (hascends hrecorded.1) hbest
    · exact ⟨hbest, h.finalized, h.below⟩

omit [DecidableEq H] in
theorem extends_of_not_retracted {a b f : H} {route : TreeRoute H} (h : IsRoute tree a b route)
    (hkept : ∀ x ∈ route.retracted, x.1 ≠ f) (hf : tree.Extends f a) : tree.Extends f b := by
  by_contra hnot
  obtain ⟨number, hmem⟩ := h.mem_retracted_iff.mpr ⟨hf, hnot⟩
  exact hkept _ hmem rfl

theorem Tracks.retracts_none (h : Tracks tree maintenance) (hroutes : TrueRoutes tree treeRoute)
    (hevent : (tree.header event.hash).isSome) (hline : InLine tree maintenance event)
    {after : EnactmentState H} {route : TreeRoute H}
    (hupdate : maintenance.state.update treeRoute (knownNumber tree) event =
      .ok (after, .handleEnactment route)) :
    ∀ x ∈ route.retracted, ∀ f ∈ maintenance.recorded, ¬ tree.Extends x.1 f := by
  intro x hx f hf hbelow
  have haction : maintainState treeRoute (knownNumber tree) maintenance.state event =
      (after, some (.handleEnactment route)) := by
    rw [maintainState, hupdate]
  have hshared := hbelow.trans (h.below f hf)
  rcases maintainState_cases hroutes h.best hevent with hsame | ⟨-, hforced⟩ |
    ⟨hnear, route', hroute, hkept, ⟨-, -, hnext⟩ | hnext⟩
  · rw [hsame] at haction
    cases haction
  · rw [hforced] at haction
    cases haction
  · rw [hnext] at haction
    cases haction
  · rw [hnext] at haction
    cases haction
    obtain ⟨-, hnew⟩ := hroute.mem_retracted_iff.mp ⟨x.2, hx⟩
    rcases hline with hskip | hline
    · rw [hnear] at hskip
      cases hskip
    · -- the finalized block is on the branch and not retracted, so the new block extends it
      exact hnew (hshared.trans (extends_of_not_retracted hroute hkept hline))

def ChainEvent.finalizedHash : ChainEvent H → Option H
  | .newBestBlock _ => none
  | .finalized hash => some hash

def handleEvent (tree : BlockTree H) (treeRoute : H → H → Except String (TreeRoute H))
    (maintenance : Maintenance H) (event : ChainEvent H) : Option (Maintenance H) :=
  some (maintain treeRoute (knownNumber tree) maintenance event)

omit [DecidableEq H] in
theorem ChainEvent.finalizedHash_of_isFinalized (h : event.isFinalized = true) :
    event.finalizedHash = some event.hash := by
  cases event with
  | newBestBlock hash => cases h
  | finalized hash => rfl

theorem mem_recorded {f : H}
    (h : f ∈ (maintain treeRoute hashToNumber maintenance event).recorded) :
    f ∈ maintenance.recorded ∨ event.finalizedHash = some f := by
  unfold maintain at h
  dsimp only at h
  split_ifs at h with hrecorded
  · rcases List.mem_cons.mp h with rfl | h
    · exact .inr (event.finalizedHash_of_isFinalized hrecorded.1)
    · exact .inl h
  · exact .inl h

theorem Tracks.run {events : List (ChainEvent H)} {start last : Maintenance H}
    (h : Tracks tree start) (hroutes : TrueRoutes tree treeRoute)
    (hknown : ∀ event ∈ events, (tree.header event.hash).isSome)
    (hchain : (events.filterMap ChainEvent.finalizedHash).Pairwise tree.Extends)
    (hstart : ∀ f ∈ start.recorded, ∀ hash ∈ events.filterMap ChainEvent.finalizedHash,
      tree.Extends f hash)
    (hrun : Run.exec (handleEvent tree treeRoute) start events = some last) :
    Tracks tree last := by
  induction events generalizing start with
  | nil =>
    cases hrun
    exact h
  | cons event events ih =>
    have hrest : ∀ hash ∈ events.filterMap ChainEvent.finalizedHash,
        hash ∈ (event :: events).filterMap ChainEvent.finalizedHash := fun hash hmem =>
      ((List.sublist_cons_self event events).filterMap _).subset hmem
    have hnext : Tracks tree
        (TransactionPool.maintain treeRoute (knownNumber tree) start event) := by
      refine h.maintain hroutes (hknown event List.mem_cons_self) fun hfinalized f hf => ?_
      refine hstart f hf event.hash (List.mem_filterMap.mpr ⟨event, List.mem_cons_self, ?_⟩)
      exact event.finalizedHash_of_isFinalized hfinalized
    refine ih hnext (fun e he => hknown e (List.mem_cons_of_mem _ he)) ?_ ?_ hrun
    · exact hchain.sublist ((List.sublist_cons_self event events).filterMap _)
    · intro f hf hash hhash
      rcases mem_recorded hf with hf | hfinalized
      · exact hstart f hf hash (hrest hash hhash)
      · rw [List.filterMap_cons_some hfinalized] at hchain
        exact (List.pairwise_cons.mp hchain).1 hash hhash

/-- No event makes the pool retract a finalized block that was recorded before, or an ancestor
of one, where each event is too far ahead to be followed, or finds the finalized block on the
branch of the best one. -/
theorem run_keeps_finalized (tree : BlockTree H)
    (treeRoute : H → H → Except String (TreeRoute H)) (hroutes : TrueRoutes tree treeRoute)
    (genesis : H) (header : Header H) (hgenesis : tree.header genesis = some header)
    (events : List (ChainEvent H)) (event : ChainEvent H)
    (hknown : ∀ e ∈ events ++ [event], (tree.header e.hash).isSome)
    (hchain : ((events ++ [event]).filterMap ChainEvent.finalizedHash).Pairwise tree.Extends)
    (hline : Run.Along (handleEvent tree treeRoute) (InLine tree) ⟨⟨genesis, genesis⟩, []⟩
      (events ++ [event]))
    (before : Maintenance H)
    (hrun : Run.exec (handleEvent tree treeRoute) ⟨⟨genesis, genesis⟩, []⟩ events = some before)
    (after : EnactmentState H) (route : TreeRoute H)
    (hupdate : before.state.update treeRoute (knownNumber tree) event =
      .ok (after, .handleEnactment route)) :
    ∀ block ∈ route.retracted, ∀ f ∈ before.recorded, ¬ tree.Extends block.1 f := by
  have hstart : Tracks tree ⟨⟨genesis, genesis⟩, []⟩ :=
    ⟨by simp [hgenesis], by simp [hgenesis], nofun⟩
  have hsublist : events.Sublist (events ++ [event]) := List.sublist_append_left ..
  have htracks : Tracks tree before :=
    hstart.run hroutes (fun e he => hknown e (hsublist.subset he))
      (hchain.sublist (hsublist.filterMap _)) nofun hrun
  refine htracks.retracts_none hroutes (hknown event (by simp)) ?_ hupdate
  exact (hline.append_right hrun).head

end Results

def clientRoute [DecidableEq H] (tree : BlockTree H) (fromHash toHash : H) :
    Except String (TreeRoute H) :=
  match (treeRoute tree fromHash toHash).run ⟨0, []⟩ with
  | .ok route _ => .ok route
  | .error _ _ => .error "Header was not found in the database"

theorem trueRoutes_clientRoute [DecidableEq H] (tree : BlockTree H) :
    TrueRoutes tree (clientRoute tree) := by
  intro a b ha hb
  obtain ⟨x, hx⟩ := Option.isSome_iff_exists.mp ha
  obtain ⟨y, hy⟩ := Option.isSome_iff_exists.mp hb
  obtain ⟨route, t, hrun, hroute, -⟩ :=
    treeRoute_returns (sound_empty 0) hx hy
  exact ⟨route, by rw [clientRoute, hrun], hroute⟩

def branchEvents : List (ChainEvent (Option (List Bool))) :=
  [.newBestBlock (some [true]), .finalized (some [true]), .newBestBlock (some [true, true])]

/-- A finalized block stays where the best block moves to another branch above it. -/
theorem run_keeps_finalized_forked :
    ∃ before after route,
      Run.exec (handleEvent (HeaderTree.binary 3) (clientRoute (HeaderTree.binary 3)))
        ⟨⟨some [], some []⟩, []⟩ branchEvents = some before ∧
      before.recorded = [some [true]] ∧
      before.state.update (clientRoute (HeaderTree.binary 3)) (knownNumber (HeaderTree.binary 3))
        (.newBestBlock (some [false, true])) = .ok (after, .handleEnactment route) ∧
      route.retracted = [(some [true, true], 2)] ∧
      ∀ block ∈ route.retracted, ∀ f ∈ before.recorded,
        ¬ (HeaderTree.binary 3).Extends block.1 f := by
  have hrun : Run.exec (handleEvent (HeaderTree.binary 3) (clientRoute (HeaderTree.binary 3)))
      ⟨⟨some [], some []⟩, []⟩ branchEvents =
      some ⟨⟨some [true, true], some [true]⟩, [some [true]]⟩ := by decide +kernel
  have hupdate : EnactmentState.update (clientRoute (HeaderTree.binary 3))
      (knownNumber (HeaderTree.binary 3)) ⟨some [true, true], some [true]⟩
      (.newBestBlock (some [false, true])) =
      .ok (⟨some [false, true], some [true]⟩, .handleEnactment
        (.ofBranches [(some [true, true], 2)] (some [true], 1) [(some [false, true], 2)])) := by
    decide +kernel
  have hextends : ∀ more rest : List Bool, (more ++ rest).length ≤ 3 →
      (HeaderTree.binary 3).Extends (some rest) (some (more ++ rest)) :=
    fun more rest h => HeaderTree.binary_extends more rest h
  have hline : Run.Along
      (handleEvent (HeaderTree.binary 3) (clientRoute (HeaderTree.binary 3)))
      (InLine (HeaderTree.binary 3)) ⟨⟨some [], some []⟩, []⟩
      (branchEvents ++ [.newBestBlock (some [false, true])]) := by
    refine .cons_of_step (t := ⟨⟨some [true], some []⟩, []⟩)
      (.inr (hextends [] [] (by decide))) (by decide +kernel) ?_
    refine .cons_of_step (t := ⟨⟨some [true], some [true]⟩, [some [true]]⟩)
      (.inr (hextends [true] [] (by decide))) (by decide +kernel) ?_
    refine .cons_of_step (t := ⟨⟨some [true, true], some [true]⟩, [some [true]]⟩)
      (.inr (hextends [] [true] (by decide))) (by decide +kernel) ?_
    exact .cons_of_step (t := ⟨⟨some [false, true], some [true]⟩, [some [true]]⟩)
      (.inr (hextends [true] [true] (by decide))) (by decide +kernel) trivial
  refine ⟨_, _, _, hrun, rfl, hupdate, TreeRoute.retracted_ofBranches .., ?_⟩
  exact run_keeps_finalized (HeaderTree.binary 3).toBlockTree (clientRoute (HeaderTree.binary 3))
    (trueRoutes_clientRoute _) (some []) ⟨some [], 0, none⟩ rfl branchEvents
    (.newBestBlock (some [false, true])) (by decide) (List.pairwise_singleton _ _) hline _ hrun _
    _ hupdate

/-- A block far ahead is finalized, then the best block moves to another branch: a block below
the finalized one is retracted. -/
theorem retracts_finalized :
    ∃ before after route,
      Run.exec (handleEvent (HeaderTree.binary 22) (clientRoute (HeaderTree.binary 22)))
        ⟨⟨some [], some []⟩, []⟩
        [.newBestBlock (some [true]), .finalized (some (List.replicate 22 true))] = some before ∧
      before.state.update (clientRoute (HeaderTree.binary 22))
        (knownNumber (HeaderTree.binary 22)) (.newBestBlock (some [false])) =
          .ok (after, .handleEnactment route) ∧
      ∃ block ∈ route.retracted, ∃ f ∈ before.recorded,
        (HeaderTree.binary 22).Extends block.1 f := by
  have hrun : Run.exec
      (handleEvent (HeaderTree.binary 22) (clientRoute (HeaderTree.binary 22)))
      ⟨⟨some [], some []⟩, []⟩
      [.newBestBlock (some [true]), .finalized (some (List.replicate 22 true))] =
      some ⟨⟨some [true], some (List.replicate 22 true)⟩, [some (List.replicate 22 true)]⟩ := by
    decide +kernel
  have hupdate : EnactmentState.update (clientRoute (HeaderTree.binary 22))
      (knownNumber (HeaderTree.binary 22)) ⟨some [true], some (List.replicate 22 true)⟩
      (.newBestBlock (some [false])) =
      .ok (⟨some [false], some (List.replicate 22 true)⟩, .handleEnactment
        (.ofBranches [(some [true], 1)] (some [], 0) [(some [false], 1)])) := by
    decide +kernel
  have hextends : (HeaderTree.binary 22).Extends (some [true]) (some (List.replicate 22 true)) :=
    HeaderTree.binary_extends (List.replicate 21 true) [true] (by decide)
  exact ⟨_, _, _, hrun, hupdate, (some [true], 1), by simp, _, List.mem_singleton_self _, hextends⟩

end PolkadotSdk.TransactionPool
