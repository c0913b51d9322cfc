import Mathlib
import PolkadotSdk.Lib.Program
import PolkadotSdk.NetworkSync.AncestorSearch
import PolkadotSdk.NetworkSync.BlockCollection

/-! # Requests for blocks and their answers

Ranges of blocks are asked for from their end downwards. An answer is checked for its length, for
the block that was asked for, and for headers that have the hashes they come with. It is not
checked that its blocks follow each other: that is up to the peer, and holds for one that
answers as the block request handler does.
-/

namespace PolkadotSdk.NetworkSync.ChainSync

variable {H Peer : Type}

/-! ## Requests -/

structure BlockAttributes where
  header : Bool
  body : Bool
  justification : Bool
  indexedBody : Bool
  deriving DecidableEq, Repr

inductive FromBlock (H : Type) where
  | hash (hash : H)
  | number (number : ℕ)
  deriving DecidableEq, Repr

inductive Direction where
  | ascending
  | descending
  deriving DecidableEq, Repr

structure BlockRequest (H : Type) where
  fields : BlockAttributes
  fromBlock : FromBlock H
  direction : Direction
  max : Option ℕ
  deriving DecidableEq, Repr

inductive ChainSyncMode where
  | full
  | lightState (skipProofs storageChainMode : Bool)
  deriving DecidableEq, Repr

/-- The attributes that are needed. Bodies are left out in a gap, unless blocks are archived. -/
def ChainSyncMode.requiredBlockAttributes (mode : ChainSyncMode) (isGap isArchive : Bool) :
    BlockAttributes :=
  let attrs : BlockAttributes :=
    match mode with
    | .full | .lightState _ false => ⟨true, true, true, false⟩
    | .lightState _ true => ⟨true, false, true, true⟩
  if isGap && !isArchive then { attrs with body := false } else attrs

inductive PeerSyncState (H : Type) where
  | available
  | ancestorSearch (search : AncestorSearch)
  | downloadingNew (start : ℕ)
  | downloadingStale (hash : H)
  | downloadingJustification (hash : H)
  | downloadingState
  | downloadingGap (start : ℕ)
  deriving DecidableEq, Repr

structure PeerSync (H : Type) where
  commonNumber : ℕ
  bestHash : H
  bestNumber : ℕ
  state : PeerSyncState H
  deriving DecidableEq, Repr

def maxDownloadAhead : ℕ := 2048

/-- `saturated_into::<u32>()` -/
def saturate32 (n : ℕ) : ℕ := min n (2 ^ 32 - 1)

def rangeRequest (attrs : BlockAttributes) (range : BlockRange) (fromBlock : FromBlock H) :
    BlockRequest H where
  fields := attrs
  fromBlock := fromBlock
  direction := .descending
  max := some (saturate32 (range.stop - range.start))

section

variable [DecidableEq Peer] {Block : Type}

def peerBlockRequest (id : Peer) (peer : PeerSync H) (blocks : BlockCollection Block Peer)
    (attrs : BlockAttributes) (maxParallelDownloads maxBlocksPerRequest bestNum : ℕ) :
    BlockCollection Block Peer × Option (BlockRange × BlockRequest H) :=
  -- a shorter chain is downloaded as a fork instead
  if peer.bestNumber ≤ bestNum then (blocks, none)
  else
    let (blocks, range) := blocks.neededBlocks
      { who := id
        count := maxBlocksPerRequest
        peerBest := peer.bestNumber
        common := peer.commonNumber
        maxParallel := maxParallelDownloads
        maxAhead := maxDownloadAhead }
    (blocks, range.map fun range =>
      let last := range.stop - 1
      (range, rangeRequest attrs range
        (if peer.bestNumber = last then .hash peer.bestHash else .number last)))

def peerGapBlockRequest (id : Peer) (peer : PeerSync H) (blocks : BlockCollection Block Peer)
    (attrs : BlockAttributes) (target commonNumber maxBlocksPerRequest : ℕ) :
    BlockCollection Block Peer × Option (BlockRange × BlockRequest H) :=
  let (blocks, range) := blocks.neededBlocks
    { who := id
      count := maxBlocksPerRequest
      peerBest := min peer.bestNumber target
      common := commonNumber
      maxParallel := 1
      maxAhead := maxDownloadAhead }
  (blocks, range.map fun range =>
    (range, rangeRequest attrs range (.number (range.stop - 1))))

end

/-! ## Answers -/

/-- A header, of which the fields that are not read make up the rest. -/
structure Header (H : Type) where
  number : ℕ
  parentHash : H
  rest : List UInt8
  deriving DecidableEq, Repr

structure Block (H : Type) where
  hash : H
  header : Option (Header H)
  body : Option (List UInt8)
  justifications : Option (List UInt8)
  deriving DecidableEq, Repr

inductive Reputation where
  | blockchainReadError
  | genesisMismatch
  | badBlock
  | noBlock
  | notRequested
  | badJustification
  | unknownAncestor
  | badResponse
  deriving DecidableEq, Repr

section

variable [DecidableEq H] (hashOf : Header H → H)

/-- `Some(blocks.len() as u32) > request.max` -/
def tooMany (blocks : List (Block H)) (request : BlockRequest H) : Bool :=
  match request.max with
  | none => true
  | some max => decide (max < blocks.length % 2 ^ 32)

/-- The block at the end that was asked for. -/
def expectedBlock (blocks : List (Block H)) (request : BlockRequest H) : Bool :=
  let block := match request.direction with
    | .descending => blocks.getLast?
    | .ascending => blocks.head?
  match block.bind Block.header with
  | none => false
  | some header =>
    match request.fromBlock with
    | .hash hash => decide (hashOf header = hash)
    | .number number => decide (header.number = number)

def badHash (block : Block H) : Bool :=
  match block.header with
  | none => false
  | some header => decide (hashOf header ≠ block.hash)

def checkHashes (blocks : List (Block H)) : Except Reputation (Option ℕ) :=
  if blocks.any (badHash hashOf) then .error .badBlock
  else .ok ((blocks.head?.bind Block.header).map Header.number)

/-- Returns the number of the first block. The blocks are in ascending order. -/
def validateBlocks (blocks : List (Block H)) (request : BlockRequest H) :
    Except Reputation (Option ℕ) :=
  if tooMany blocks request then .error .notRequested
  else if !expectedBlock hashOf blocks request then .error .notRequested
  else if request.fields.header && blocks.any (·.header.isNone) then .error .badResponse
  else if request.fields.body && blocks.any (·.body.isNone) then .error .badResponse
  else checkHashes hashOf blocks

def ascendingBlocks (request : BlockRequest H) (response : List (Block H)) : List (Block H) :=
  match request.direction with
  | .descending => response.reverse
  | .ascending => response

def insertedBlocks (request : BlockRequest H) (response : List (Block H)) :
    Except Reputation (Option (ℕ × List (Block H))) :=
  (validateBlocks hashOf (ascendingBlocks request response) request).map fun start =>
    start.map fun start => (start, ascendingBlocks request response)

end

/-! ## The block request handler -/

structure BlockBackend (H E : Type) where
  blockHash : ℕ → Except E (Option H)
  header : H → Except E (Option (Header H))
  blockBody : H → Except E (Option (List UInt8))
  blockIndexedBody : H → Except E (Option (List UInt8))
  justifications : H → Except E (Option (List UInt8))

def maxBlocksInResponse : ℕ := 128

def maxResponseSize : ℕ := 16 * 1024 * 1024

variable {E : Type}

namespace BlockBackend

/-- An error of the client counts as a missing header. -/
def clientHeaderFromBlockId (client : BlockBackend H E) (blockId : FromBlock H) :
    Option (Header H) :=
  let hash : Except E (Option H) := match blockId with
    | .hash hash => .ok (some hash)
    | .number number => client.blockHash number
  match hash with
  | .ok (some hash) => (client.header hash).toOption.join
  | _ => none

end BlockBackend

/-- The data of a block, as it is read from an answer. -/
def BlockAttributes.blockData (attributes : BlockAttributes) (hash : H) (header : Header H)
    (body : List UInt8) (justifications : Option (List UInt8)) : Block H where
  hash := hash
  header := if attributes.header then some header else none
  body := if attributes.body then some body else none
  justifications := justifications

def nextBlockId (direction : Direction) (header : Header H) : Option (FromBlock H) :=
  match direction with
  | .ascending => some (.number (header.number + 1))
  | .descending => if header.number = 0 then none else some (.hash header.parentHash)

namespace BlockBackend

section

variable (client : BlockBackend H E) (hashOf : Header H → H)
  (encodedLen : Block H → List UInt8 → ℕ) (attributes : BlockAttributes) (direction : Direction)

/-- At most `remaining` more blocks. The length of a block in the answer depends on its indexed
body, too. -/
def getBlockResponse : ℕ → ℕ → Option (FromBlock H) → Except E (List (Block H))
  | 0, _, _ => .ok []
  | _ + 1, _, none => .ok []
  | remaining + 1, totalSize, some blockId =>
    match client.clientHeaderFromBlockId blockId with
    | none => .ok []
    | some header => do
      let hash := hashOf header
      let justifications ←
        (if attributes.justification then client.justifications hash else .ok none)
      let body ← (if attributes.body then client.blockBody hash else .ok (some []))
      match body with
      | none => .ok []
      | some body =>
        let indexedBody ←
          (if attributes.indexedBody then client.blockIndexedBody hash else .ok none)
        let block := attributes.blockData hash header body justifications
        let newTotalSize := totalSize + encodedLen block (indexedBody.getD [])
        if maxResponseSize - 20 * 1024 < newTotalSize then .ok []
        else do
          let rest ← getBlockResponse remaining newTotalSize (nextBlockId direction header)
          .ok (block :: rest)

/-- `handle_request` for a request that is answered. -/
def handleRequest (request : BlockRequest H) : Except E (List (Block H)) :=
  let maxBlocks := request.max.getD 0
  client.getBlockResponse hashOf encodedLen request.fields request.direction
    (if maxBlocks = 0 then maxBlocksInResponse else min maxBlocks maxBlocksInResponse) 0
    (some request.fromBlock)

end

/-- Headers are stored under their hashes, and a block has the number after that of its parent. -/
structure Consistent (client : BlockBackend H E) (hashOf : Header H → H) : Prop where
  hash_eq : ∀ {hash header}, client.header hash = .ok (some header) → hashOf header = hash
  number_eq : ∀ {hash header parent}, client.header hash = .ok (some header) →
    header.number ≠ 0 → client.header header.parentHash = .ok (some parent) →
    header.number = parent.number + 1

end BlockBackend

/-! ## Where the blocks of an answer are -/

/-- Every block but the first has the one before it as its parent, and the next number. -/
def Linked (blocks : List (Block H)) : Prop :=
  blocks.IsChain fun block next => ∃ header ∈ block.header, ∃ nextHeader ∈ next.header,
    nextHeader.parentHash = block.hash ∧ nextHeader.number = header.number + 1

/-- Blocks at the numbers from `start` on that lie in the range, each the child of the one
before. -/
def Placed (range : BlockRange) (start : ℕ) (blocks : List (Block H)) : Prop :=
  ∀ i block, blocks[i]? = some block → range.start ≤ start + i ∧ start + i < range.stop ∧
    (∃ header ∈ block.header, header.number = start + i) ∧
    ∀ before, 0 < i → blocks[i - 1]? = some before →
      ∃ header ∈ block.header, header.parentHash = before.hash

inductive Requested [DecidableEq Peer] (mode : ChainSyncMode) (isArchive : Bool) (id : Peer)
    (peer : PeerSync H) : BlockRange → BlockRequest H → Prop
  | new {blocks blocks' : BlockCollection (Block H) Peer} {maxParallel maxBlocks bestNum : ℕ}
      {range : BlockRange} {request : BlockRequest H}
      (h : peerBlockRequest id peer blocks (mode.requiredBlockAttributes false isArchive)
        maxParallel maxBlocks bestNum = (blocks', some (range, request))) :
      Requested mode isArchive id peer range request
  | gap {blocks blocks' : BlockCollection (Block H) Peer} {target common maxBlocks : ℕ}
      {range : BlockRange} {request : BlockRequest H}
      (h : peerGapBlockRequest id peer blocks (mode.requiredBlockAttributes true isArchive)
        target common maxBlocks = (blocks', some (range, request))) :
      Requested mode isArchive id peer range request

/-- A request asks for headers from the last block of the range on, which may be given by the hash
of the peer's best block. -/
structure RangeRequest (peer : PeerSync H) (range : BlockRange) (request : BlockRequest H) :
    Prop where
  nonempty : range.start < range.stop
  header : request.fields.header = true
  direction : request.direction = .descending
  max : request.max = some (saturate32 (range.stop - range.start))
  fromBlock : request.fromBlock = .number (range.stop - 1) ∨
    request.fromBlock = .hash peer.bestHash ∧ peer.bestNumber = range.stop - 1

theorem requiredBlockAttributes_header (mode : ChainSyncMode) (isGap isArchive : Bool) :
    (mode.requiredBlockAttributes isGap isArchive).header = true := by
  unfold ChainSyncMode.requiredBlockAttributes
  cases mode with
  | full => cases isGap <;> cases isArchive <;> rfl
  | lightState _ storage => cases storage <;> cases isGap <;> cases isArchive <;> rfl

variable {range : BlockRange}

theorem neededBlocks_nonempty [DecidableEq Peer] {B : Type}
    {blocks blocks' : BlockCollection B Peer} {needed : NeededBlocks Peer}
    (h : blocks.neededBlocks needed = (blocks', some range)) : range.start < range.stop := by
  unfold BlockCollection.neededBlocks at h
  dsimp only at h
  split_ifs at h with _ _ _ hempty
  all_goals cases h
  exact Nat.not_le.mp hempty

variable {request : BlockRequest H}

theorem Requested.rangeRequest [DecidableEq Peer] {mode : ChainSyncMode} {isArchive : Bool}
    {id : Peer} {peer : PeerSync H} (h : Requested mode isArchive id peer range request) :
    RangeRequest peer range request := by
  cases h with
  | new h =>
    unfold peerBlockRequest at h
    split at h
    · cases h
    · dsimp only at h
      obtain ⟨needed, hneeded, heq⟩ := Option.map_eq_some_iff.mp (congrArg Prod.snd h)
      cases heq
      refine ⟨neededBlocks_nonempty (Prod.ext rfl hneeded), requiredBlockAttributes_header _ _ _,
        rfl, rfl, ?_⟩
      by_cases hlast : peer.bestNumber = range.stop - 1
      · exact Or.inr ⟨if_pos hlast, hlast⟩
      · exact Or.inl (if_neg hlast)
  | gap h =>
    unfold peerGapBlockRequest at h
    dsimp only at h
    obtain ⟨needed, hneeded, heq⟩ := Option.map_eq_some_iff.mp (congrArg Prod.snd h)
    cases heq
    exact ⟨neededBlocks_nonempty (Prod.ext rfl hneeded), requiredBlockAttributes_header _ _ _,
      rfl, rfl, Or.inl rfl⟩

variable {blocks : List (Block H)}

theorem Linked.number_eq (h : Linked blocks) {first : Header H}
    (hfirst : blocks.head?.bind Block.header = some first) {i : ℕ} {block : Block H}
    (hblock : blocks[i]? = some block) :
    ∃ header ∈ block.header, header.number = first.number + i := by
  induction blocks generalizing first i with
  | nil => cases hblock
  | cons head blocks ih =>
    cases i with
    | zero =>
      cases hblock
      exact ⟨first, hfirst, rfl⟩
    | succ i =>
      cases blocks with
      | nil => cases hblock
      | cons next blocks =>
        obtain ⟨⟨header, hheader, nextHeader, hnext, -, hnumber⟩, hrest⟩ :=
          List.isChain_cons_cons.mp h
        rw [List.head?_cons, Option.bind_some] at hfirst
        rw [Option.mem_def.mp hheader] at hfirst
        cases hfirst
        obtain ⟨last, hlast, heq⟩ := ih hrest hnext hblock
        exact ⟨last, hlast, by omega⟩

theorem Linked.parent_eq (h : Linked blocks) {i : ℕ} {block next : Block H}
    (hblock : blocks[i]? = some block) (hnext : blocks[i + 1]? = some next) :
    ∃ header ∈ next.header, header.parentHash = block.hash := by
  obtain ⟨hi, rfl⟩ := List.getElem?_eq_some_iff.mp hblock
  obtain ⟨hi', rfl⟩ := List.getElem?_eq_some_iff.mp hnext
  obtain ⟨-, -, header, hheader, hparent, -⟩ := List.isChain_iff_getElem.mp h i hi'
  exact ⟨header, hheader, hparent⟩

theorem validateBlocks_ok [DecidableEq H] {hashOf : Header H → H} {start : Option ℕ}
    (h : validateBlocks hashOf blocks request = .ok start) :
    tooMany blocks request = false ∧ expectedBlock hashOf blocks request = true ∧
      (∀ block ∈ blocks, badHash hashOf block = false) ∧
      start = (blocks.head?.bind Block.header).map Header.number := by
  unfold validateBlocks checkHashes at h
  split_ifs at h with hmany hexpected hheader hbody hbad
  cases h
  refine ⟨Bool.eq_false_iff.mpr hmany, by simpa using hexpected, fun block hblock => ?_, rfl⟩
  exact Bool.eq_false_iff.mpr fun hbad' => hbad (List.any_eq_true.mpr ⟨block, hblock, hbad'⟩)

theorem RangeRequest.last_expected [DecidableEq H] {hashOf : Header H → H} {peer : PeerSync H}
    (h : RangeRequest peer range request) (hexpected : expectedBlock hashOf blocks request = true) :
    ∃ last header, blocks.getLast? = some last ∧ last.header = some header ∧
      (request.fromBlock = .hash (hashOf header) ∨ request.fromBlock = .number header.number) := by
  unfold expectedBlock at hexpected
  rw [h.direction] at hexpected
  dsimp only at hexpected
  split at hexpected
  · cases hexpected
  · next header hheader =>
    obtain ⟨last, hlast, hheader⟩ := Option.bind_eq_some_iff.mp hheader
    refine ⟨last, header, hlast, hheader, ?_⟩
    split at hexpected
    · next hfrom => exact .inl (by rw [hfrom, of_decide_eq_true hexpected])
    · next hfrom => exact .inr (by rw [hfrom, of_decide_eq_true hexpected])

theorem RangeRequest.last_number [DecidableEq H] {hashOf : Header H → H} {peer : PeerSync H}
    (h : RangeRequest peer range request)
    (hbest : ∀ block ∈ blocks, ∀ header ∈ block.header, block.hash = peer.bestHash →
      header.number = peer.bestNumber) (hexpected : expectedBlock hashOf blocks request = true)
    (hhashes : ∀ block ∈ blocks, badHash hashOf block = false) :
    ∃ last header, blocks.getLast? = some last ∧ last.header = some header ∧
      header.number = range.stop - 1 := by
  obtain ⟨last, header, hlast, hheader, hasked⟩ := h.last_expected hexpected
  refine ⟨last, header, hlast, hheader, ?_⟩
  rcases h.fromBlock with hfrom | ⟨hfrom, hnumber⟩
  · rw [hfrom] at hasked
    rcases hasked with ⟨⟨⟩⟩ | hnumber
    exact (FromBlock.number.inj hnumber).symm
  · rw [hfrom] at hasked
    rcases hasked with hhash | ⟨⟨⟩⟩
    have hmem := List.mem_of_getLast? hlast
    have hown := hhashes last hmem
    simp only [badHash, hheader, ne_eq, decide_not, Bool.not_eq_false', decide_eq_true_eq] at hown
    rw [← hnumber]
    exact hbest last hmem header hheader (hown.symm.trans (FromBlock.hash.inj hhash).symm)

theorem RangeRequest.ascendingBlocks_eq {peer : PeerSync H} (h : RangeRequest peer range request)
    (response : List (Block H)) : ascendingBlocks request response = response.reverse := by
  rw [ascendingBlocks, h.direction]

theorem insertedBlocks_ok [DecidableEq H] {hashOf : Header H → H} {response : List (Block H)}
    {start : ℕ} (h : insertedBlocks hashOf request response = .ok (some (start, blocks))) :
    blocks = ascendingBlocks request response ∧ tooMany blocks request = false ∧
      expectedBlock hashOf blocks request = true ∧
      (∀ block ∈ blocks, badHash hashOf block = false) ∧
      ∃ first, blocks.head?.bind Block.header = some first ∧ first.number = start := by
  unfold insertedBlocks at h
  cases hvalid : validateBlocks hashOf (ascendingBlocks request response) request with
  | error e => simp [hvalid, Except.map] at h
  | ok first =>
    simp only [hvalid, Except.map, Except.ok.injEq] at h
    obtain ⟨_, rfl, heq⟩ := Option.map_eq_some_iff.mp h
    cases heq
    obtain ⟨hmany, hexpected, hhashes, hfirst⟩ := validateBlocks_ok hvalid
    exact ⟨rfl, hmany, hexpected, hhashes, Option.map_eq_some_iff.mp hfirst.symm⟩

theorem RangeRequest.length_le {peer : PeerSync H} (h : RangeRequest peer range request)
    (hcount : blocks.length < 2 ^ 32) (hmany : tooMany blocks request = false) :
    blocks.length ≤ range.stop - range.start := by
  simp only [tooMany, h.max, decide_eq_false_iff_not, not_lt, Nat.mod_eq_of_lt hcount,
    saturate32] at hmany
  omega

/-- A linked answer is placed in the range, if the peer's best block has the number that was
announced. -/
theorem RangeRequest.placed [DecidableEq H] {hashOf : Header H → H} {peer : PeerSync H}
    (hshape : RangeRequest peer range request) {response : List (Block H)}
    (hlinked : Linked response.reverse) (hcount : response.length < 2 ^ 32)
    (hbest : ∀ block ∈ response, ∀ header ∈ block.header, block.hash = peer.bestHash →
      header.number = peer.bestNumber)
    {start : ℕ} (h : insertedBlocks hashOf request response = .ok (some (start, blocks))) :
    Placed range start blocks := by
  obtain ⟨rfl, hmany, hexpected, hhashes, head, hhead, rfl⟩ := insertedBlocks_ok h
  rw [hshape.ascendingBlocks_eq] at hmany hexpected hhashes hhead ⊢
  obtain ⟨last, header, hlast, hheader, hnumber⟩ := hshape.last_number
    (fun block hblock => hbest block (List.mem_reverse.mp hblock)) hexpected hhashes
  -- the answer is no longer than the range, and ends where the range does
  have hlength := hshape.length_le (by rwa [List.length_reverse]) hmany
  rw [List.getLast?_eq_getElem?] at hlast
  obtain ⟨hpos, -⟩ := List.getElem?_eq_some_iff.mp hlast
  obtain ⟨_, hlastHeader, hend⟩ := hlinked.number_eq hhead hlast
  rw [hheader, Option.mem_some_iff] at hlastHeader
  subst hlastHeader
  have hnonempty := hshape.nonempty
  intro i block hblock
  obtain ⟨hi, -⟩ := List.getElem?_eq_some_iff.mp hblock
  refine ⟨by omega, by omega, hlinked.number_eq hhead hblock, fun before hzero hbefore => ?_⟩
  exact hlinked.parent_eq hbefore (by rwa [Nat.sub_add_cancel hzero])

theorem RangeRequest.insertedBlocks_replicate [DecidableEq H] {hashOf : Header H → H}
    {peer : PeerSync H} (hshape : RangeRequest peer range request) {header : Header H}
    (hasked : request.fromBlock = .hash (hashOf header) ∨
      request.fromBlock = .number header.number)
    {count : ℕ} (hpos : count ≠ 0) (hcount : count < 2 ^ 32)
    (hrange : count ≤ range.stop - range.start) :
    insertedBlocks hashOf request
        (List.replicate count ⟨hashOf header, some header, some [], none⟩) =
      .ok (some (header.number,
        List.replicate count ⟨hashOf header, some header, some [], none⟩)) := by
  have hmany : tooMany (List.replicate count
      (⟨hashOf header, some header, some [], none⟩ : Block H)) request = false := by
    simp only [tooMany, hshape.max, List.length_replicate, saturate32, decide_eq_false_iff_not,
      not_lt, Nat.mod_eq_of_lt hcount]
    omega
  have hexpected : expectedBlock hashOf (List.replicate count
      ⟨hashOf header, some header, some [], none⟩) request = true := by
    unfold expectedBlock
    rw [hshape.direction]
    rcases hasked with h | h <;> simp [h, hpos, List.getLast?_replicate]
  simp [insertedBlocks, hshape.ascendingBlocks_eq, validateBlocks, checkHashes, hmany, hexpected,
    badHash, hpos, List.head?_replicate, Except.map]

/-- Every answer is placed exactly if only one block is asked for, and a block that passes for it
has its number. -/
theorem RangeRequest.placed_iff [DecidableEq H] {hashOf : Header H → H} {peer : PeerSync H}
    (hshape : RangeRequest peer range request) :
    (∀ response start blocks, response.length < 2 ^ 32 →
      insertedBlocks hashOf request response = .ok (some (start, blocks)) →
      Placed range start blocks) ↔
    ∀ header, request.fromBlock = .hash (hashOf header) ∨
        request.fromBlock = .number header.number →
      range.stop = range.start + 1 ∧ header.number = range.start := by
  have hnonempty := hshape.nonempty
  constructor
  · intro hall header hasked
    by_cases hone : range.stop = range.start + 1
    · obtain ⟨hstart, hstop, -⟩ := hall _ _ _ (by simp)
        (hshape.insertedBlocks_replicate hasked one_ne_zero (by decide) (by omega)) 0 _ rfl
      exact ⟨hone, by omega⟩
    · -- the block twice, which does not have the next number
      obtain ⟨-, -, ⟨_, ⟨⟩, hnumber⟩, -⟩ := hall _ _ _ (by simp)
        (hshape.insertedBlocks_replicate hasked two_ne_zero (by decide) (by omega)) 1 _ rfl
      omega
  · intro hone response start blocks hcount h
    obtain ⟨rfl, hmany, hexpected, -, first, hfirst, rfl⟩ := insertedBlocks_ok h
    rw [hshape.ascendingBlocks_eq] at hmany hexpected hfirst ⊢
    obtain ⟨last, header, hlast, hheader, hasked⟩ := hshape.last_expected hexpected
    obtain ⟨hstop, hnumber⟩ := hone header hasked
    have hlength := hshape.length_le (by rwa [List.length_reverse]) hmany
    obtain ⟨front, hblocks⟩ := List.getLast?_eq_some_iff.mp hlast
    have hfront : front = [] := by
      rw [hblocks, List.length_append, List.length_singleton] at hlength
      exact List.length_eq_zero_iff.mp (by omega)
    subst hfront
    rw [hblocks, List.nil_append] at hfirst ⊢
    obtain rfl : header = first := Option.some.inj (hheader.symm.trans hfirst)
    rintro (_ | i) block hblock
    · cases hblock
      exact ⟨by omega, by omega, ⟨header, hheader, rfl⟩, fun _ h => absurd h (lt_irrefl 0)⟩
    · cases hblock

/-! ### Answers of the handler -/

namespace BlockBackend

variable {client : BlockBackend H E} {hashOf : Header H → H} {encodedLen : Block H → List UInt8 → ℕ}
  {attributes : BlockAttributes} {direction : Direction} {remaining totalSize : ℕ}

theorem clientHeaderFromBlockId_eq_some {blockId : FromBlock H} {header : Header H}
    (h : client.clientHeaderFromBlockId blockId = some header) :
    ∃ hash, client.header hash = .ok (some header) ∧
      ∀ asked, blockId = .hash asked → hash = asked := by
  unfold clientHeaderFromBlockId at h
  dsimp only at h
  split at h
  · next hash hhash =>
    refine ⟨hash, ?_, ?_⟩
    · cases hheader : client.header hash with
      | error e => simp [hheader, Except.toOption] at h
      | ok header => simpa [hheader, Except.toOption] using h
    · rintro asked rfl
      cases hhash
      rfl
  · cases h

theorem getBlockResponse_cases {blockId : FromBlock H} {response : List (Block H)}
    (h : client.getBlockResponse hashOf encodedLen attributes direction (remaining + 1) totalSize
      (some blockId) = .ok response) :
    response = [] ∨ ∃ header block rest newTotalSize,
      client.clientHeaderFromBlockId blockId = some header ∧ block.hash = hashOf header ∧
      (attributes.header = true → block.header = some header) ∧ response = block :: rest ∧
      client.getBlockResponse hashOf encodedLen attributes direction remaining newTotalSize
        (nextBlockId direction header) = .ok rest := by
  unfold getBlockResponse at h
  split at h
  · cases h
    exact .inl rfl
  · next header hheader =>
    obtain ⟨justifications, -, h⟩ := except_bind_eq_ok h
    obtain ⟨body, -, h⟩ := except_bind_eq_ok h
    split at h
    · cases h
      exact .inl rfl
    · obtain ⟨indexedBody, -, h⟩ := except_bind_eq_ok h
      dsimp only at h
      split_ifs at h
      · cases h
        exact .inl rfl
      · obtain ⟨rest, hrest, h⟩ := except_bind_eq_ok h
        cases h
        exact .inr ⟨header, _, rest, _, hheader, rfl, fun h => if_pos h, rfl, hrest⟩

/-- The blocks of an answer are those that the client stores under their hashes, each the parent
of the one before. -/
theorem Consistent.served (hconsistent : client.Consistent hashOf)
    (hheader : attributes.header = true) {blockId : Option (FromBlock H)}
    {response : List (Block H)}
    (h : client.getBlockResponse hashOf encodedLen attributes .descending remaining totalSize
      blockId = .ok response) :
    response.length ≤ remaining ∧
      (∀ block ∈ response, ∃ header, block.header = some header ∧
        client.header block.hash = .ok (some header)) ∧
      (∀ block ∈ response.head?, blockId ≠ none ∧
        ∀ asked, blockId = some (.hash asked) → block.hash = asked) ∧
      Linked response.reverse := by
  induction remaining generalizing totalSize blockId response with
  | zero =>
    cases h
    exact ⟨le_rfl, by simp, by simp, .nil⟩
  | succ remaining ih =>
    cases blockId with
    | none =>
      cases h
      exact ⟨Nat.zero_le _, by simp, by simp, .nil⟩
    | some blockId =>
      obtain rfl | ⟨header, block, rest, _, hfound, hhash, hblock, rfl, hrest⟩ :=
        getBlockResponse_cases h
      · exact ⟨Nat.zero_le _, by simp, by simp, .nil⟩
      replace hblock := hblock hheader
      obtain ⟨hash, hstored, hasked⟩ := clientHeaderFromBlockId_eq_some hfound
      obtain rfl := (hhash.trans (hconsistent.hash_eq hstored)).symm
      obtain ⟨hlength, hall, hhead, hlinked⟩ := ih hrest
      refine ⟨Nat.succ_le_succ hlength, ?_, ?_, ?_⟩
      · exact List.forall_mem_cons.mpr ⟨⟨header, hblock, hstored⟩, hall⟩
      · rintro _ ⟨⟩
        exact ⟨Option.some_ne_none _, fun asked hid => hasked asked (Option.some.inj hid)⟩
      · refine List.isChain_reverse.mpr (List.isChain_cons.mpr
          ⟨fun parent hparent => ?_, List.isChain_reverse.mp hlinked⟩)
        obtain ⟨hsome, hid⟩ := hhead parent hparent
        obtain ⟨parentHeader, hparentHeader, hparentStored⟩ :=
          hall parent (List.mem_of_mem_head? hparent)
        have hzero : header.number ≠ 0 := fun hzero => hsome (if_pos hzero)
        replace hid := hid header.parentHash (if_neg hzero)
        rw [hid] at hparentStored
        exact ⟨parentHeader, hparentHeader, header, hblock, hid.symm,
          hconsistent.number_eq hstored hzero hparentStored⟩

end BlockBackend

/-- The blocks that are inserted for a request lie in the range that was asked for, one after the
other, if the peer answers as the handler does, from a consistent client whose best block has the
number that was announced. They do so for any answer exactly if the range has one block only, and
a block that passes for it has its number. -/
theorem inserted_blocks_in_range [DecidableEq H] [DecidableEq Peer] (hashOf : Header H → H)
    {mode : ChainSyncMode} {isArchive : Bool} {id : Peer} {peer : PeerSync H} {range : BlockRange}
    {request : BlockRequest H} (hrequest : Requested mode isArchive id peer range request) :
    (∀ (client : BlockBackend H E) encodedLen response start blocks,
      client.Consistent hashOf →
      (∀ header, client.header peer.bestHash = .ok (some header) →
        header.number = peer.bestNumber) →
      client.handleRequest hashOf encodedLen request = .ok response →
      insertedBlocks hashOf request response = .ok (some (start, blocks)) →
      Placed range start blocks) ∧
    ((∀ response start blocks, response.length < 2 ^ 32 →
      insertedBlocks hashOf request response = .ok (some (start, blocks)) →
      Placed range start blocks) ↔
    ∀ header, request.fromBlock = .hash (hashOf header) ∨
        request.fromBlock = .number header.number →
      range.stop = range.start + 1 ∧ header.number = range.start) := by
  have hshape := hrequest.rangeRequest
  refine ⟨fun client encodedLen response start blocks hconsistent hbest hserved h => ?_, ?_⟩
  · unfold BlockBackend.handleRequest at hserved
    rw [hshape.direction] at hserved
    obtain ⟨hlength, hall, -, hlinked⟩ := hconsistent.served hshape.header hserved
    refine hshape.placed hlinked (hlength.trans_lt ?_)
      (fun block hblock header hheader hhash => ?_) h
    · unfold maxBlocksInResponse
      split_ifs <;> omega
    · obtain ⟨_, heq, hstored⟩ := hall block hblock
      rw [Option.mem_def, heq, Option.some_inj] at hheader
      subst hheader
      exact hbest _ (hhash ▸ hstored)
  · exact hshape.placed_iff

def shortPeer : PeerSync ℕ where
  commonNumber := 0
  bestHash := 3
  bestNumber := 3
  state := .available

def numberedBlock (number : ℕ) : Block ℕ where
  hash := number
  header := some ⟨number, number - 1, []⟩
  body := some []
  justifications := none

def shortRequest : BlockRequest ℕ :=
  rangeRequest (ChainSyncMode.full.requiredBlockAttributes false false) ⟨1, 4⟩ (.hash 3)

theorem shortRequest_requested : Requested .full false () shortPeer ⟨1, 4⟩ shortRequest :=
  .new (show peerBlockRequest () shortPeer (.new : BlockCollection (Block ℕ) Unit) _ 5 64 0 =
    (_, some (⟨1, 4⟩, shortRequest)) from rfl)

def shortClient : BlockBackend ℕ Unit where
  blockHash number := .ok (some number)
  header hash := .ok (if hash ≤ 3 then (numberedBlock hash).header else none)
  blockBody _ := .ok (some [])
  blockIndexedBody _ := .ok none
  justifications _ := .ok none

theorem shortClient_consistent : shortClient.Consistent Header.number := by
  have hstored : ∀ {hash header}, shortClient.header hash = .ok (some header) →
      ⟨hash, hash - 1, []⟩ = header := by
    intro hash header h
    have hsome := Except.ok.inj h
    split_ifs at hsome
    exact Option.some.inj hsome
  constructor
  · intro hash header h
    rw [← hstored h]
  · intro hash header parent h hzero hparent
    rw [← hstored hparent, ← hstored h]
    rw [← hstored h] at hzero
    exact (Nat.succ_pred hzero).symm

theorem inserted_blocks_in_range_short :
    shortClient.handleRequest Header.number (fun _ _ => 0) shortRequest =
        .ok [numberedBlock 3, numberedBlock 2, numberedBlock 1] ∧
      Placed ⟨1, 4⟩ 1 [numberedBlock 1, numberedBlock 2, numberedBlock 3] :=
  ⟨rfl, (inserted_blocks_in_range Header.number shortRequest_requested).1 shortClient
    (fun _ _ => 0) _ _ _ shortClient_consistent
    (fun _ h => congrArg Header.number (Option.some.inj (Except.ok.inj h)).symm) rfl rfl⟩

/-- Only the last block of an answer is compared with the request: the first one may be at any
number, and the blocks are inserted there. -/
theorem blocks_planted_at_number :
    Requested .full false () shortPeer ⟨1, 4⟩ shortRequest ∧
      insertedBlocks Header.number shortRequest [numberedBlock 3, numberedBlock 1000] =
        .ok (some (1000, [numberedBlock 1000, numberedBlock 3])) :=
  ⟨shortRequest_requested, rfl⟩

end PolkadotSdk.NetworkSync.ChainSync
