import Mathlib
import PolkadotSdk.Lib.MapEntries
import PolkadotSdk.Lib.OrderedMap
import PolkadotSdk.Lib.Run

/-! # The collection of blocks being downloaded

Block ranges are stored under the number they start with, while they are downloaded, once
they are complete, and while they are queued for import. Several peers may be asked for one
range; the length that is stored is the one the last of them was asked for.
-/

namespace PolkadotSdk.NetworkSync

open Std

variable {H Peer : Type}

structure BlockData (H Peer : Type) where
  hash : H
  origin : Option Peer
  deriving DecidableEq, Repr

inductive BlockRangeState (H Peer : Type) where
  | downloading (len downloading : Nat)
  | complete (blocks : List (BlockData H Peer))
  | queued (len : Nat)
  deriving DecidableEq, Repr

def BlockRangeState.len : BlockRangeState H Peer → Nat
  | .downloading len _ => len
  | .complete blocks => blocks.length
  | .queued len => len

def BlockRangeState.isQueued : BlockRangeState H Peer → Bool
  | .queued _ => true
  | _ => false

structure BlockCollection (H Peer : Type) where
  blocks : ExtTreeMap Nat (BlockRangeState H Peer)
  peerRequests : List (Peer × Nat)
  queuedBlocks : List (H × (Nat × Nat))

structure NeededBlocks (Peer : Type) where
  who : Peer
  count : Nat
  peerBest : Nat
  common : Nat
  maxParallel : Nat
  maxAhead : Nat

/-- The numbers from `start` up to, and without, `stop`. -/
structure BlockRange where
  start : Nat
  stop : Nat
  deriving DecidableEq, Repr

namespace BlockCollection

def new : BlockCollection H Peer := ⟨∅, [], []⟩

/-! ## Asking for blocks -/

/-- The range of which another peer may be asked for, and of how many it was before. -/
def sharedRange (request : NeededBlocks Peer) (entry : Nat × BlockRangeState H Peer) :
    Option (BlockRange × Nat) :=
  match entry.2 with
  | .downloading len downloading =>
    if downloading < request.maxParallel ∧ request.common + 1 ≤ entry.1 then
      some (⟨entry.1, entry.1 + len⟩, downloading)
    else none
  | _ => none

/-- Go through the stored ranges, looking for one to download. -/
def findRange (request : NeededBlocks Peer) :
    Option (Nat × BlockRangeState H Peer) → List (Nat × BlockRangeState H Peer) →
      BlockRange × Nat
  | none, [] =>
    -- no ranges, or none that the peer has: download after `common`
    (⟨request.common + 1, request.common + 1 + request.count⟩, 0)
  | none, next :: rest =>
    if request.common + 1 < next.1 then
      -- the gap at the start
      (⟨request.common + 1, min (request.common + 1 + request.count) next.1⟩, 0)
    else findRange request (some next) rest
  | some entry, [] =>
    match sharedRange request entry with
    | some shared => shared
    | none =>
      let stop := entry.1 + entry.2.len
      if request.common + 1 ≤ stop then (⟨stop, stop + request.count⟩, 0)
      else (⟨request.common + 1, request.common + 1 + request.count⟩, 0)
  | some entry, next :: rest =>
    match sharedRange request entry with
    | some shared => shared
    | none =>
      let stop := entry.1 + entry.2.len
      if stop < next.1 ∧ request.common + 1 ≤ stop then
        (⟨stop, min next.1 (stop + request.count)⟩, 0)
      else findRange request (some next) rest

variable [DecidableEq Peer]

/-- Returns a range that the peer is asked for, which is marked as being downloaded. -/
def neededBlocks (collection : BlockCollection H Peer) (request : NeededBlocks Peer) :
    BlockCollection H Peer × Option BlockRange :=
  if request.peerBest ≤ request.common then (collection, none)
  else
    let (found, downloading) := findRange request none collection.blocks.toList
    if request.peerBest < found.start then (collection, none)
    else
      -- crop to the best block of the peer
      let range : BlockRange := ⟨found.start, min (request.peerBest + 1) found.stop⟩
      if (collection.blocks.toList.head?).any fun first =>
          decide (first.1 + request.maxAhead < range.start) then (collection, none)
      else if range.stop ≤ range.start then (collection, none)
      else
        ({ collection with
            peerRequests := Entries.upsert collection.peerRequests request.who 0
              fun _ => range.start
            blocks := collection.blocks.insert range.start
              (.downloading (range.stop - range.start) (downloading + 1)) },
          some range)

/-! ## Answers -/

def insert (collection : BlockCollection H Peer) (start : Nat) (blocks : List H) (who : Peer) :
    BlockCollection H Peer :=
  if blocks.isEmpty then collection
  else
    let inserted := { collection with
      blocks := collection.blocks.insert start
        (.complete (blocks.map fun hash => ⟨hash, some who⟩)) }
    match collection.blocks[start]? with
    | some (.complete existing) =>
      if blocks.length ≤ existing.length then collection else inserted
    | _ => inserted

def clearPeerDownload (collection : BlockCollection H Peer) (who : Peer) :
    BlockCollection H Peer :=
  match Entries.get collection.peerRequests who with
  | none => collection
  | some start =>
    let cleared := { collection with
      peerRequests := Entries.remove collection.peerRequests who }
    match collection.blocks[start]? with
    | some (.downloading len downloading) =>
      if 1 < downloading then
        { cleared with
          blocks := collection.blocks.insert start (.downloading len (downloading - 1)) }
      else { cleared with blocks := collection.blocks.erase start }
    | _ => cleared

/-! ## Import -/

/-- The complete ranges that follow each other from a number on. -/
def readyRanges : Nat → List (Nat × BlockRangeState H Peer) →
    List (Nat × List (BlockData H Peer))
  | _, [] => []
  | prev, (start, range) :: rest =>
    if prev < start then []
    else
      match range with
      | .complete blocks => (start, blocks) :: readyRanges (start + blocks.length) rest
      | .queued _ => readyRanges prev rest
      | .downloading _ _ => []

variable [DecidableEq H]

def queueRange (collection : BlockCollection H Peer) (range : Nat × List (BlockData H Peer)) :
    BlockCollection H Peer :=
  { collection with
    blocks := collection.blocks.insert range.1 (.queued range.2.length)
    queuedBlocks :=
      match range.2.head? with
      | some first =>
        Entries.upsert collection.queuedBlocks first.hash (0, 0) fun _ =>
          (range.1, range.1 + range.2.length)
      | none => collection.queuedBlocks }

/-- The blocks that are ready for import, which are queued. -/
def readyBlocks (collection : BlockCollection H Peer) («from» : Nat) :
    BlockCollection H Peer × List (BlockData H Peer) :=
  let ready := readyRanges «from» collection.blocks.toList
  (ready.foldl queueRange collection, ready.flatMap Prod.snd)

def clearQueued (collection : BlockCollection H Peer) (hash : H) : BlockCollection H Peer :=
  match Entries.get collection.queuedBlocks hash with
  | none => collection
  | some (start, stop) =>
    { collection with
      queuedBlocks := Entries.remove collection.queuedBlocks hash
      blocks := (List.range' start (stop - start)).foldl (·.erase ·) collection.blocks }

end BlockCollection

/-! ## Runs -/

structure BlockSync (H Peer : Type) where
  collection : BlockCollection H Peer
  returned : List (Peer × BlockRange)

inductive BlockSyncOp (H Peer : Type) where
  | neededBlocks (request : NeededBlocks Peer)
  | response (who : Peer) (blocks : List H)
  | readyBlocks (prev : Nat)
  | clearQueued (hash : H)

namespace BlockSync

def new : BlockSync H Peer := ⟨.new, []⟩

variable [DecidableEq H] [DecidableEq Peer]

/-- `none` is an operation that chain sync does not issue: to ask a peer that has a request, or to
insert more blocks than were asked for. -/
def step (sync : BlockSync H Peer) : BlockSyncOp H Peer → Option (BlockSync H Peer)
  | .neededBlocks request =>
    if request.who ∈ Entries.keys sync.collection.peerRequests then none
    else
      let (collection, range) := sync.collection.neededBlocks request
      some ⟨collection, match range with
        | some range => Entries.upsert sync.returned request.who range fun _ => range
        | none => sync.returned⟩
  | .response who blocks =>
    (Entries.get sync.returned who).bind fun range =>
      if blocks.length ≤ range.stop - range.start then
        some { sync with
          collection := (sync.collection.clearPeerDownload who).insert range.start blocks who }
      else none
  | .readyBlocks prev => some { sync with collection := (sync.collection.readyBlocks prev).1 }
  | .clearQueued hash => some { sync with collection := sync.collection.clearQueued hash }

/-- The range that is stored where an answer starts is not queued, and not shorter than it. -/
def Expects (sync : BlockSync H Peer) : BlockSyncOp H Peer → Prop
  | .response who blocks =>
    match Entries.get sync.returned who with
    | none => True
    | some range =>
      blocks ≠ [] → ∃ stored ∈ sync.collection.blocks[range.start]?,
        stored.isQueued = false ∧ blocks.length ≤ stored.len
  | _ => True

instance (sync : BlockSync H Peer) (op : BlockSyncOp H Peer) : Decidable (sync.Expects op) := by
  unfold Expects
  split
  · split <;> infer_instance
  · infer_instance

end BlockSync

/-! ## Finding a range -/

def Ordered (entries : List (Nat × BlockRangeState H Peer)) : Prop :=
  entries.Pairwise fun entry next => entry.1 + entry.2.len ≤ next.1

/-- A range that another peer downloads already, or one that meets no stored range. -/
def Found (entries : List (Nat × BlockRangeState H Peer)) (range : BlockRange)
    (downloading : Nat) : Prop :=
  (∃ len, (range.start, .downloading len downloading) ∈ entries ∧
    range.stop = range.start + len) ∨
  ∀ entry ∈ entries, entry.1 + entry.2.len ≤ range.start ∨ range.stop ≤ entry.1

theorem sharedRange_found {request : NeededBlocks Peer} {entry : Nat × BlockRangeState H Peer}
    {shared : BlockRange × Nat} (h : BlockCollection.sharedRange request entry = some shared)
    {entries : List (Nat × BlockRangeState H Peer)} (hentry : entry ∈ entries) :
    Found entries shared.1 shared.2 := by
  obtain ⟨start, range⟩ := entry
  cases range with
  | downloading len downloading =>
    simp only [BlockCollection.sharedRange, Option.ite_none_right_eq_some] at h
    obtain ⟨-, h⟩ := h
    cases h
    exact .inl ⟨len, hentry, rfl⟩
  | complete blocks => cases h
  | queued len => cases h

theorem gap_found {seen rest : List (Nat × BlockRangeState H Peer)}
    {entry : Nat × BlockRangeState H Peer} (hordered : Ordered (seen ++ entry :: rest))
    {start stop : Nat} (hstart : entry.1 + entry.2.len ≤ start)
    (hstop : ∀ next ∈ rest, stop ≤ next.1) (downloading : Nat) :
    Found (seen ++ entry :: rest) ⟨start, stop⟩ downloading := by
  obtain ⟨-, -, hseen⟩ := List.pairwise_append.mp hordered
  refine .inr fun other hother => ?_
  rcases List.mem_append.mp hother with hmem | hmem
  · have hle := hseen other hmem entry List.mem_cons_self
    exact .inl (by dsimp only; omega)
  · rcases List.mem_cons.mp hmem with rfl | hmem
    · exact .inl hstart
    · exact .inr (hstop other hmem)

theorem Ordered.le_of_le_head {next : Nat × BlockRangeState H Peer}
    {rest : List (Nat × BlockRangeState H Peer)} (hordered : Ordered (next :: rest)) {stop : Nat}
    (h : stop ≤ next.1) : ∀ other ∈ next :: rest, stop ≤ other.1 := by
  refine List.forall_mem_cons.mpr ⟨h, fun other hother => ?_⟩
  have hle := (List.pairwise_cons.mp hordered).1 other hother
  omega

theorem findRange_after (request : NeededBlocks Peer)
    (seen : List (Nat × BlockRangeState H Peer)) (entry : Nat × BlockRangeState H Peer)
    (rest : List (Nat × BlockRangeState H Peer)) (hordered : Ordered (seen ++ entry :: rest)) :
    Found (seen ++ entry :: rest) (BlockCollection.findRange request (some entry) rest).1
      (BlockCollection.findRange request (some entry) rest).2 := by
  induction rest generalizing seen entry with
  | nil =>
    rw [BlockCollection.findRange]
    cases hshared : BlockCollection.sharedRange request entry with
    | some shared => exact sharedRange_found hshared (by simp)
    | none =>
      dsimp only
      split_ifs with hcommon
      · exact gap_found hordered (Nat.le_refl _) (by simp) 0
      · exact gap_found hordered (by omega) (by simp) 0
  | cons next rest ih =>
    rw [BlockCollection.findRange]
    cases hshared : BlockCollection.sharedRange request entry with
    | some shared => exact sharedRange_found hshared (by simp)
    | none =>
      dsimp only
      split_ifs with hgap
      · have hrest := (List.pairwise_cons.mp (List.pairwise_append.mp hordered).2.1).2
        exact gap_found hordered (Nat.le_refl _)
          (Ordered.le_of_le_head hrest (Nat.min_le_left _ _)) 0
      · have hnext := ih (seen ++ [entry]) next (by simpa using hordered)
        simpa using hnext

theorem findRange_found (request : NeededBlocks Peer)
    {entries : List (Nat × BlockRangeState H Peer)} (hordered : Ordered entries) :
    Found entries (BlockCollection.findRange request none entries).1
      (BlockCollection.findRange request none entries).2 := by
  cases entries with
  | nil => exact .inr (by simp)
  | cons next rest =>
    rw [BlockCollection.findRange]
    split_ifs with hgap
    · refine .inr fun other hother => .inr ?_
      exact Ordered.le_of_le_head hordered (Nat.min_le_right _ _) other hother
    · exact findRange_after request [] next rest hordered

/-! ## Stored ranges stay apart -/

/-- Stored ranges do not meet, and each that is queued under a hash is stored as queued. -/
structure Tidy (blocks : ExtTreeMap Nat (BlockRangeState H Peer))
    (queuedBlocks : List (H × (Nat × Nat))) [DecidableEq H] : Prop where
  positive : ∀ (start : Nat) (range : BlockRangeState H Peer),
    blocks[start]? = some range → 0 < range.len
  apart : ∀ (start next : Nat) (range other : BlockRangeState H Peer),
    blocks[start]? = some range → blocks[next]? = some other → start < next →
      start + range.len ≤ next
  queued : ∀ (hash : H) (start stop : Nat), Entries.get queuedBlocks hash = some (start, stop) →
    start < stop ∧ blocks[start]? = some (.queued (stop - start))
  distinct : ∀ (hash hash' : H) (start stop stop' : Nat),
    Entries.get queuedBlocks hash = some (start, stop) →
    Entries.get queuedBlocks hash' = some (start, stop') → hash = hash'

section Tidy

variable [DecidableEq H] {blocks : ExtTreeMap Nat (BlockRangeState H Peer)}
  {queuedBlocks : List (H × (Nat × Nat))}

section

variable (h : Tidy blocks queuedBlocks)
include h

theorem Tidy.insert {start : Nat}
    {range : BlockRangeState H Peer} (hpositive : 0 < range.len)
    (hqueued : ∀ len, blocks[start]? ≠ some (.queued len))
    (hapart : ∀ (other : Nat) (stored : BlockRangeState H Peer), blocks[other]? = some stored →
      other ≠ start → other + stored.len ≤ start ∨ start + range.len ≤ other) :
    Tidy (blocks.insert start range) queuedBlocks := by
  refine ⟨fun other stored hstored => ?_, fun first next a b ha hb hlt => ?_,
    fun hash first stop hget => ?_, h.distinct⟩
  · rcases OrderedMap.of_insert hstored with ⟨-, rfl⟩ | hstored
    · exact hpositive
    · exact h.positive other stored hstored
  · rw [OrderedMap.getElem?_insert] at ha hb
    split_ifs at ha hb with hfirst hnext hnext
    · omega
    · cases ha
      subst hfirst
      have hne := hapart next b hb (by omega)
      have hpos := h.positive next b hb
      omega
    · cases hb
      subst hnext
      have hne := hapart first a ha (by omega)
      omega
    · exact h.apart first next a b ha hb hlt
  · obtain ⟨hlt, hstored⟩ := h.queued hash first stop hget
    refine ⟨hlt, ?_⟩
    rw [OrderedMap.getElem?_insert, if_neg, hstored]
    rintro rfl
    exact hqueued _ hstored

theorem Tidy.replace {start : Nat}
    {old range : BlockRangeState H Peer} (hold : blocks[start]? = some old)
    (hqueued : old.isQueued = false) (hpositive : 0 < range.len) (hle : range.len ≤ old.len) :
    Tidy (blocks.insert start range) queuedBlocks := by
  refine h.insert hpositive ?_ fun other stored hstored hne => ?_
  · intro len hlen
    rw [hold] at hlen
    cases hlen
    cases hqueued
  · rcases Nat.lt_or_gt_of_ne hne with hlt | hlt
    · exact .inl (h.apart other start stored old hstored hold hlt)
    · have hapart := h.apart start other old stored hold hstored hlt
      exact .inr (by omega)

theorem Tidy.erase {start : Nat} {kept : List (H × (Nat × Nat))}
    (hkept : ∀ (hash : H) (range : Nat × Nat), Entries.get kept hash = some range →
      Entries.get queuedBlocks hash = some range ∧ range.1 ≠ start) :
    Tidy (blocks.erase start) kept := by
  have hold : ∀ (other : Nat) (stored : BlockRangeState H Peer),
      (blocks.erase start)[other]? = some stored → blocks[other]? = some stored :=
    fun other stored hstored => (OrderedMap.of_erase hstored).2
  refine ⟨fun other stored hstored => h.positive other stored (hold other stored hstored),
    fun first next a b ha hb => h.apart first next a b (hold first a ha) (hold next b hb),
    fun hash first stop hget => ?_, fun hash hash' first stop stop' hget hget' =>
      h.distinct hash hash' first stop stop' (hkept _ _ hget).1 (hkept _ _ hget').1⟩
  obtain ⟨hget, hne⟩ := hkept hash _ hget
  obtain ⟨hlt, hstored⟩ := h.queued hash first stop hget
  refine ⟨hlt, ?_⟩
  rw [OrderedMap.getElem?_erase, if_neg (Ne.symm hne), hstored]

theorem Tidy.queue {start : Nat}
    {stored : List (BlockData H Peer)} (hstored : blocks[start]? = some (.complete stored))
    (hash : H) :
    Tidy (blocks.insert start (.queued stored.length))
      (Entries.upsert queuedBlocks hash (0, 0) fun _ => (start, start + stored.length)) := by
  have hpositive : 0 < stored.length := h.positive start _ hstored
  have hinserted : Tidy (blocks.insert start (.queued stored.length)) queuedBlocks :=
    h.replace hstored rfl hpositive (Nat.le_refl _)
  refine ⟨hinserted.positive, hinserted.apart, fun other begins stop hget => ?_,
    fun first second begins stop stop' hfirst hsecond => ?_⟩
  · rw [Entries.get_upsert] at hget
    split_ifs at hget with heq
    · cases hget
      refine ⟨by omega, ?_⟩
      rw [OrderedMap.getElem?_insert, if_pos rfl, Nat.add_sub_cancel_left]
    · exact hinserted.queued other begins stop hget
  · have hfresh : ∀ (other : H) (stop : Nat),
        Entries.get queuedBlocks other ≠ some (start, stop) := by
      intro other stop hget
      rw [(h.queued other start stop hget).2] at hstored
      cases hstored
    rw [Entries.get_upsert] at hfirst hsecond
    split_ifs at hfirst hsecond with heq heq' heq'
    · rw [heq, heq']
    · cases hfirst
      exact absurd hsecond (hfresh second stop')
    · cases hsecond
      exact absurd hfirst (hfresh first stop)
    · exact h.distinct first second begins stop stop' hfirst hsecond

theorem Tidy.ordered : Ordered blocks.toList := by
  have hsorted := ExtTreeMap.ordered_keys_toList (t := blocks)
  refine (List.pairwise_iff_forall_sublist.mpr fun {entry next} hsub => ?_)
  have hlt := Nat.compare_eq_lt.mp (List.pairwise_iff_forall_sublist.mp hsorted hsub)
  have hmem := hsub.subset
  exact h.apart entry.1 next.1 entry.2 next.2 (OrderedMap.mem_toList_iff.mp (hmem (by simp)))
    (OrderedMap.mem_toList_iff.mp (hmem (by simp))) hlt

end

end Tidy

/-! ## Every operation keeps the ranges apart -/

namespace BlockCollection

theorem readyRanges_sublist (prev : Nat) (entries : List (Nat × BlockRangeState H Peer)) :
    ((readyRanges prev entries).map fun range => (range.1, BlockRangeState.complete range.2)).Sublist
      entries := by
  induction entries generalizing prev with
  | nil => exact List.Sublist.refl _
  | cons entry entries ih =>
    obtain ⟨start, range⟩ := entry
    unfold readyRanges
    split_ifs with hprev
    · exact List.nil_sublist _
    · cases range with
      | complete blocks => exact (ih _).cons_cons _
      | queued len => exact (ih prev).cons _
      | downloading len downloading => exact List.nil_sublist _

variable {collection : BlockCollection H Peer}

theorem clearPeerDownload_stored [DecidableEq Peer] {who : Peer} {other : Nat}
    {range : BlockRangeState H Peer}
    (h : (collection.clearPeerDownload who).blocks[other]? = some range) :
    ∃ old, collection.blocks[other]? = some old ∧ old.len = range.len ∧
      old.isQueued = range.isQueued := by
  unfold clearPeerDownload at h
  split at h
  · exact ⟨range, h, rfl, rfl⟩
  · rename_i start _
    dsimp only at h
    split at h
    · rename_i len downloading hstored
      split_ifs at h
      · rcases OrderedMap.of_insert h with ⟨rfl, rfl⟩ | h
        · exact ⟨.downloading len downloading, hstored, rfl, rfl⟩
        · exact ⟨range, h, rfl, rfl⟩
      · exact ⟨range, (OrderedMap.of_erase h).2, rfl, rfl⟩
    · exact ⟨range, h, rfl, rfl⟩

variable [DecidableEq H]

theorem insert_tidy (h : Tidy collection.blocks collection.queuedBlocks) (start : Nat)
    (blocks : List H) (who : Peer)
    (hfits : blocks ≠ [] → ∀ (other : Nat) (range : BlockRangeState H Peer),
      collection.blocks[other]? = some range →
        if other = start then range.isQueued = false
        else other + range.len ≤ start ∨ start + blocks.length ≤ other) :
    Tidy (collection.insert start blocks who).blocks
      (collection.insert start blocks who).queuedBlocks := by
  by_cases hblocks : blocks = []
  · simpa [BlockCollection.insert, hblocks] using h
  have hinserted : Tidy (collection.blocks.insert start
      (.complete (blocks.map fun hash => (⟨hash, some who⟩ : BlockData H Peer))))
      collection.queuedBlocks := by
    refine h.insert (by simpa [BlockRangeState.len, List.length_pos_iff] using hblocks) ?_ ?_
    · intro len hlen
      have hqueued := hfits hblocks start _ hlen
      rw [if_pos rfl] at hqueued
      cases hqueued
    · intro other range hrange hne
      have hmeets := hfits hblocks other range hrange
      rw [if_neg hne] at hmeets
      simpa [BlockRangeState.len] using hmeets
  unfold BlockCollection.insert
  rw [if_neg (by simpa using hblocks)]
  dsimp only
  split
  · split_ifs
    · exact h
    · exact hinserted
  · exact hinserted

theorem queueRanges_tidy (ranges : List (Nat × List (BlockData H Peer)))
    (h : Tidy collection.blocks collection.queuedBlocks) (hnodup : (Entries.keys ranges).Nodup)
    (hstored : ∀ range ∈ ranges, collection.blocks[range.1]? = some (.complete range.2)) :
    Tidy (ranges.foldl queueRange collection).blocks
      (ranges.foldl queueRange collection).queuedBlocks := by
  induction ranges generalizing collection with
  | nil => exact h
  | cons range ranges ih =>
    obtain ⟨hfresh, hnodup⟩ := List.nodup_cons.mp hnodup
    obtain ⟨hrange, hstored⟩ := List.forall_mem_cons.mp hstored
    refine ih ?_ hnodup fun other hother => ?_
    · have hpositive : 0 < range.2.length := h.positive range.1 _ hrange
      obtain ⟨first, hfirst⟩ : ∃ first, range.2.head? = some first :=
        ⟨_, List.head?_eq_some_head (List.length_pos_iff.mp hpositive)⟩
      simpa [queueRange, hfirst] using h.queue hrange first.hash
    · have hne : range.1 ≠ other.1 := fun heq =>
        hfresh (heq ▸ List.mem_map.mpr ⟨other, hother, rfl⟩)
      rw [queueRange, OrderedMap.getElem?_insert, if_neg hne]
      exact hstored other hother

section

variable (h : Tidy collection.blocks collection.queuedBlocks)
include h

theorem readyBlocks_tidy (prev : Nat) :
    Tidy (collection.readyBlocks prev).1.blocks (collection.readyBlocks prev).1.queuedBlocks := by
  have hsub := readyRanges_sublist prev collection.blocks.toList
  refine queueRanges_tidy _ h ?_ fun range hrange => ?_
  · have hkeys := (hsub.map Prod.fst).nodup (MapEntries.keys_toList_nodup collection.blocks)
    simpa [Entries.keys, Function.comp_def] using hkeys
  · exact OrderedMap.mem_toList_iff.mp (hsub.subset (List.mem_map.mpr ⟨range, hrange, rfl⟩))

theorem clearQueued_blocks {hash : H}
    {start stop : Nat} (hget : Entries.get collection.queuedBlocks hash = some (start, stop)) :
    (collection.clearQueued hash).blocks = collection.blocks.erase start := by
  obtain ⟨hlt, hstored⟩ := h.queued hash start stop hget
  refine ExtTreeMap.ext_getElem? fun number => ?_
  rw [clearQueued, hget]
  dsimp only
  rw [OrderedMap.getElem?_eraseAll, OrderedMap.getElem?_erase]
  by_cases hstart : start = number
  · rw [if_pos hstart, if_pos]
    rw [List.mem_range'_1]
    omega
  · rw [if_neg hstart]
    split_ifs with hmem
    · rw [List.mem_range'_1] at hmem
      cases hother : collection.blocks[number]? with
      | none => rfl
      | some other =>
        have hapart := h.apart start number _ other hstored hother (by omega)
        simp only [BlockRangeState.len] at hapart
        omega
    · rfl

theorem clearQueued_tidy (hash : H) :
    Tidy (collection.clearQueued hash).blocks (collection.clearQueued hash).queuedBlocks := by
  cases hget : Entries.get collection.queuedBlocks hash with
  | none => simpa [clearQueued, hget] using h
  | some range =>
    obtain ⟨start, stop⟩ := range
    have hqueued : (collection.clearQueued hash).queuedBlocks =
        Entries.remove collection.queuedBlocks hash := by
      simp [clearQueued, hget]
    rw [clearQueued_blocks h hget, hqueued]
    refine h.erase fun other range hother => ?_
    rw [Entries.get_remove] at hother
    split_ifs at hother with hne
    refine ⟨hother, ?_⟩
    rintro rfl
    exact hne (h.distinct other hash range.1 range.2 stop hother hget)

end

variable [DecidableEq Peer]

theorem neededBlocks_tidy (h : Tidy collection.blocks collection.queuedBlocks)
    (request : NeededBlocks Peer) :
    Tidy (collection.neededBlocks request).1.blocks
      (collection.neededBlocks request).1.queuedBlocks := by
  have hfound := findRange_found request h.ordered
  unfold neededBlocks
  generalize findRange request none collection.blocks.toList = found at hfound
  obtain ⟨range, downloading⟩ := found
  dsimp only
  split_ifs with hbest hstart hahead hempty
  · exact h
  · exact h
  · exact h
  · exact h
  · rcases hfound with ⟨len, hmem, hstop⟩ | hapart
    · refine h.replace (OrderedMap.mem_toList_iff.mp hmem) rfl ?_ ?_
      · simp only [BlockRangeState.len]
        omega
      · simp only [BlockRangeState.len] at hstop ⊢
        omega
    · refine h.insert (by simp only [BlockRangeState.len]; omega) ?_ ?_
      · intro len hlen
        have hmeets := hapart _ (OrderedMap.mem_toList_iff.mpr hlen)
        have hpos := h.positive _ _ hlen
        dsimp only at hmeets hempty
        omega
      · intro other stored hstored _
        have hmeets := hapart _ (OrderedMap.mem_toList_iff.mpr hstored)
        simp only [BlockRangeState.len] at hmeets ⊢
        omega

theorem clearPeerDownload_tidy (h : Tidy collection.blocks collection.queuedBlocks) (who : Peer) :
    Tidy (collection.clearPeerDownload who).blocks
      (collection.clearPeerDownload who).queuedBlocks := by
  unfold clearPeerDownload
  split
  · exact h
  · rename_i start _
    dsimp only
    split
    · rename_i len downloading hstored
      have hpositive : 0 < len := h.positive start _ hstored
      split_ifs
      · exact h.replace hstored rfl hpositive (Nat.le_refl _)
      · refine h.erase fun hash range hget => ⟨hget, ?_⟩
        rintro rfl
        rw [(h.queued hash range.1 range.2 hget).2] at hstored
        cases hstored
    · exact h

end BlockCollection

namespace BlockSync

variable [DecidableEq H] [DecidableEq Peer]

theorem step_tidy {sync next : BlockSync H Peer} {op : BlockSyncOp H Peer}
    (h : Tidy sync.collection.blocks sync.collection.queuedBlocks) (hop : sync.Expects op)
    (hstep : sync.step op = some next) :
    Tidy next.collection.blocks next.collection.queuedBlocks := by
  cases op with
  | neededBlocks request =>
    rw [step] at hstep
    split_ifs at hstep
    cases hstep
    exact BlockCollection.neededBlocks_tidy h request
  | response who blocks =>
    simp only [step, Option.bind_eq_some_iff, Option.ite_none_right_eq_some] at hstep
    obtain ⟨range, hrange, -, hnext⟩ := hstep
    cases hnext
    refine BlockCollection.insert_tidy (BlockCollection.clearPeerDownload_tidy h who) _ _ _ ?_
    intro hblocks other stored hstored
    obtain ⟨old, hold, hlen, hqueued⟩ := BlockCollection.clearPeerDownload_stored hstored
    rw [← hlen, ← hqueued]
    rw [Expects, hrange] at hop
    obtain ⟨expected, hexpected, hnot, hle⟩ := hop hblocks
    split_ifs with heq
    · subst heq
      rwa [Option.mem_unique hold hexpected]
    · -- the others are apart from what is stored at the start, and so from the answer
      rcases Nat.lt_or_gt_of_ne heq with hlt | hlt
      · exact .inl (h.apart other range.start old expected hold hexpected hlt)
      · have hapart := h.apart range.start other expected old hexpected hold hlt
        exact .inr (by omega)
  | readyBlocks prev =>
    cases hstep
    exact BlockCollection.readyBlocks_tidy h prev
  | clearQueued hash =>
    cases hstep
    exact BlockCollection.clearQueued_tidy h hash

omit [DecidableEq Peer] in
theorem new_tidy : Tidy (new : BlockSync H Peer).collection.blocks
    (new : BlockSync H Peer).collection.queuedBlocks := by
  refine ⟨fun _ _ h => ?_, fun _ _ _ _ h => ?_, fun _ _ _ h => ?_, fun _ _ _ _ _ h => ?_⟩
  · simp [new, BlockCollection.new] at h
  · simp [new, BlockCollection.new] at h
  · cases h
  · cases h

/-- In every run whose answers are not longer than the range that is stored where they start, and
that is not queued yet, stored ranges have no number in common, and to clear what was queued under
a hash removes that range, which is queued, and no other. -/
theorem run_keeps_ranges_apart (ops : List (BlockSyncOp H Peer)) (last : BlockSync H Peer)
    (hrun : Run.exec step new ops = some last) (hops : Run.Along step Expects new ops) :
    (∀ (start other : Nat) (range range' : BlockRangeState H Peer),
      last.collection.blocks[start]? = some range →
      last.collection.blocks[other]? = some range' → start ≠ other →
        ∀ number, ¬ ((start ≤ number ∧ number < start + range.len) ∧
          other ≤ number ∧ number < other + range'.len)) ∧
    ∀ hash,
      match Entries.get last.collection.queuedBlocks hash with
      | none => last.collection.clearQueued hash = last.collection
      | some (start, stop) =>
        start < stop ∧ last.collection.blocks[start]? = some (.queued (stop - start)) ∧
        (last.collection.clearQueued hash).blocks = last.collection.blocks.erase start := by
  have htidy : Tidy last.collection.blocks last.collection.queuedBlocks :=
    Run.exec_invariant (I := fun sync => Tidy sync.collection.blocks sync.collection.queuedBlocks)
      (fun _ _ _ h hop hstep => step_tidy h hop hstep) new_tidy hops hrun
  refine ⟨fun start other range range' hrange hrange' hne number hboth => ?_, fun hash => ?_⟩
  · rcases Nat.lt_or_gt_of_ne hne with hlt | hlt
    · have hapart := htidy.apart start other range range' hrange hrange' hlt
      omega
    · have hapart := htidy.apart other start range' range hrange' hrange hlt
      omega
  · cases hget : Entries.get last.collection.queuedBlocks hash with
    | none => simp [BlockCollection.clearQueued, hget]
    | some range =>
      obtain ⟨hlt, hstored⟩ := htidy.queued hash range.1 range.2 hget
      exact ⟨hlt, hstored, BlockCollection.clearQueued_blocks htidy hget⟩

/-- Two peers answer for one range, the second with fewer blocks; then it is queued. -/
theorem run_keeps_ranges_apart_shared :
    ∃ last : BlockSync Nat Nat,
      Run.exec step new
        [.neededBlocks ⟨0, 4, 10, 0, 2, 100⟩, .neededBlocks ⟨1, 4, 10, 0, 2, 100⟩,
          .response 0 [11, 12, 13, 14], .response 1 [11, 12],
          .neededBlocks ⟨1, 4, 10, 0, 2, 100⟩, .readyBlocks 1] = some last ∧
      ∀ (start other : Nat) (range range' : BlockRangeState Nat Nat),
        last.collection.blocks[start]? = some range →
        last.collection.blocks[other]? = some range' → start ≠ other →
          ∀ number, ¬ ((start ≤ number ∧ number < start + range.len) ∧
            other ≤ number ∧ number < other + range'.len) := by
  obtain ⟨last, hlast⟩ := Option.isSome_iff_exists.mp (show (Run.exec step
    (new : BlockSync Nat Nat)
    [.neededBlocks ⟨0, 4, 10, 0, 2, 100⟩, .neededBlocks ⟨1, 4, 10, 0, 2, 100⟩,
      .response 0 [11, 12, 13, 14], .response 1 [11, 12],
      .neededBlocks ⟨1, 4, 10, 0, 2, 100⟩, .readyBlocks 1]).isSome = true by decide +kernel)
  exact ⟨last, hlast, (run_keeps_ranges_apart _ last hlast (by decide +kernel)).1⟩

/-- The shared range is cut for the second peer, and a third is asked for what follows. The answer
of the first one meets the range of the third. -/
def cutSharedRange : List (BlockSyncOp Nat Nat) :=
  [.neededBlocks ⟨0, 4, 10, 0, 2, 100⟩, .neededBlocks ⟨1, 4, 2, 0, 2, 100⟩,
    .neededBlocks ⟨2, 4, 10, 0, 2, 100⟩, .response 0 [11, 12, 13, 14]]

theorem cut_range_meets_next :
    (∃ last range range', Run.exec step new cutSharedRange = some last ∧
      last.collection.blocks[1]? = some range ∧ last.collection.blocks[3]? = some range' ∧
      3 < 1 + range.len ∧ 3 < 3 + range'.len) ∧
    ∃ before last, Run.exec step new (cutSharedRange ++ [.readyBlocks 1]) = some before ∧
      before.collection.blocks[3]? = some (.downloading 4 1) ∧
      before.step (.clearQueued 11) = some last ∧ last.collection.blocks[3]? = none := by
  have hmeets : (Run.exec step new cutSharedRange).map (fun sync =>
      (sync.collection.blocks[1]?.map BlockRangeState.len,
        sync.collection.blocks[3]?.map BlockRangeState.len)) = some (some 4, some 4) := by
    decide +kernel
  have hdropped : (Run.exec step new (cutSharedRange ++ [.readyBlocks 1])).map (fun sync =>
      (sync.collection.blocks[3]?,
        (sync.step (.clearQueued 11)).map fun last => last.collection.blocks[3]?)) =
      some (some (.downloading 4 1), some none) := by
    decide +kernel
  obtain ⟨last, hlast, hranges⟩ := Option.map_eq_some_iff.mp hmeets
  obtain ⟨before, hbefore, hqueued⟩ := Option.map_eq_some_iff.mp hdropped
  simp only [Prod.mk.injEq, Option.map_eq_some_iff] at hranges hqueued
  obtain ⟨⟨range, hrange, hlen⟩, range', hrange', hlen'⟩ := hranges
  obtain ⟨hstored, after, hafter, hnone⟩ := hqueued
  exact ⟨⟨last, range, range', hlast, hrange, hrange', by omega, by omega⟩,
    before, after, hbefore, hstored, hafter, hnone⟩

end BlockSync

end PolkadotSdk.NetworkSync
