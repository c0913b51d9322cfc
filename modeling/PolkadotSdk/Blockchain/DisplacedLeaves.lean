import Mathlib
import PolkadotSdk.Blockchain.TreeRoute
import PolkadotSdk.Lib.Entries

/-! # Displaced leaves

A block that is finalized displaces the leaves on other branches. Each of them is followed down to
the chain of the finalized block, which is fetched as far down as it is needed. The finalized
block need not be known yet, only its parent.
-/

namespace PolkadotSdk.Blockchain

variable {H : Type}

/-! ## Model -/

structure DisplacedLeavesAfterFinalization (H : Type) where
  displacedLeaves : List (Nat × H)
  displacedBlocks : List H
  deriving DecidableEq, Repr

structure LeafWalk (H : Type) where
  current : Header H
  candidates : List H
  localCache : List (H × Header H)

inductive LeafEnding (H : Type) where
  | gap
  | ancestor
  | displaced (candidates : List H)
  deriving DecidableEq, Repr

/-- What is known after some of the leaves. The chain goes down from the finalized block. -/
structure DisplacedProgress (H : Type) where
  finalizedChain : List (Header H)
  localCache : List (H × Header H)
  displacedLeaves : List (Nat × H)
  displacedBlocks : List H

namespace DisplacedProgress

def finish (progress : DisplacedProgress H) (leaf : Nat × H) :
    LeafEnding H → DisplacedProgress H
  | .gap => progress
  | .ancestor => { progress with displacedLeaves := progress.displacedLeaves ++ [leaf] }
  | .displaced candidates =>
    { progress with
      displacedLeaves := progress.displacedLeaves ++ [leaf]
      displacedBlocks := progress.displacedBlocks ++ candidates }

end DisplacedProgress

def dedup [DecidableEq H] : List H → List H
  | [] => []
  | [block] => [block]
  | first :: second :: rest =>
    if first = second then dedup (second :: rest) else first :: dedup (second :: rest)

section Model

variable [LinearOrder H] (tree : BlockTree H)

def minimalBlockMetadata (hash : H) : Client H (Header H) := do
  let metadata ← headerMetadata tree hash
  pure ⟨metadata.hash, metadata.number, metadata.parent⟩

def cachedParent (localCache : List (H × Header H)) (parentHash : H) :
    Client H (Header H × List (H × Header H)) :=
  match Entries.get localCache parentHash with
  | some metadata => pure (metadata, localCache)
  | none => do
    let metadata ← minimalBlockMetadata tree parentHash
    pure (metadata, (parentHash, metadata) :: localCache)

def walkDown (number : Nat) (walk : LeafWalk H) : Client H (LeafWalk H) :=
  Program.loop (fun walk =>
    if number < walk.current.number then do
      let (parent, localCache) ← cachedParent tree walk.localCache walk.current.parentHash
      pure (some ⟨parent, walk.candidates ++ [walk.current.hash], localCache⟩)
    else pure none) (walk.current.number + 1) walk

def finalizedChainAt (finalizedChain : List (Header H)) (distance : Nat) :
    Client H (Option (Header H) × List (Header H)) :=
  match finalizedChain[distance]? with
  | some metadata => pure (some metadata, finalizedChain)
  | none =>
    match finalizedChain.getLast? with
    | none => throw .panic
    | some toFetch =>
      Program.onError
        (do let metadata ← minimalBlockMetadata tree toFetch.parentHash
            pure (some metadata, finalizedChain ++ [metadata]))
        fun _ => pure (none, finalizedChain)

def searchChain : Nat → Nat → List (Header H) → Header H → List H →
    Client H (LeafEnding H × List (Header H))
  | 0, _, _, _, _ => throw .diverge
  | fuel + 1, distance, finalizedChain, current, candidates => do
    match ← finalizedChainAt tree finalizedChain distance with
    | (none, finalizedChain) => pure (.gap, finalizedChain)
    | (some chainBlock, finalizedChain) =>
      if current.hash = chainBlock.hash then pure (.ancestor, finalizedChain)
      else if current.number ≤ chainBlock.number then
        searchChain fuel (distance + 1) finalizedChain current candidates
      else if chainBlock.hash = current.parentHash then
        pure (.displaced candidates, finalizedChain)
      else do
        let parent ← minimalBlockMetadata tree current.parentHash
        searchChain fuel (distance + 1) finalizedChain parent
          (candidates ++ [current.parentHash])

def checkLeaf (genesisHash : H) (finalized : Header H) (progress : DisplacedProgress H)
    (leafHash : H) : Client H (DisplacedProgress H) := do
  let leaf ← minimalBlockMetadata tree leafHash
  if leafHash = genesisHash then pure (progress.finish (leaf.number, leafHash) .ancestor)
  else do
    let walk ← walkDown tree finalized.number ⟨leaf, [], progress.localCache⟩
    if walk.current.hash = finalized.hash then
      pure { progress with localCache := walk.localCache }
    else do
      let (ending, finalizedChain) ← searchChain tree (finalized.number + 1) 1
        progress.finalizedChain walk.current (walk.candidates ++ [walk.current.hash])
      pure (DisplacedProgress.finish
        { progress with localCache := walk.localCache, finalizedChain }
        (leaf.number, leafHash) ending)

/-- There are no forks at genesis. -/
def displacedLeavesAfterFinalizing (genesisHash : H) (leaves : List H) (finalized : Header H) :
    Client H (DisplacedLeavesAfterFinalization H) :=
  if finalized.number = 0 then pure ⟨[], []⟩
  else do
    let progress ← leaves.foldlM (checkLeaf tree genesisHash finalized) ⟨[finalized], [], [], []⟩
    pure
      { displacedLeaves := progress.displacedLeaves
        displacedBlocks :=
          dedup (progress.displacedBlocks.insertionSort (· ≤ ·)) }

end Model

/-! ## The chain of a block -/

structure Attachable (tree : HeaderTree H) (block : Header H) : Prop where
  parent : ∃ p, tree.header block.parentHash = some p ∧ p.number + 1 = block.number
  known : ∀ {x}, tree.header block.hash = some x → x = block

def OnChain (tree : BlockTree H) (block : Header H) (other : H) : Prop :=
  other = block.hash ∨ tree.Extends other block.parentHash

section Chain

variable {tree : HeaderTree H} {finalized x y : Header H} {a b leaf : H}

theorem attachable_of_known (hx : tree.header a = some x) (hpositive : x.number ≠ 0) :
    Attachable tree x := by
  refine ⟨tree.parent hx hpositive, fun hother => ?_⟩
  rw [tree.hash_eq hx, hx] at hother
  exact (Option.some.inj hother).symm

theorem OnChain.number_le (hfinal : Attachable tree finalized)
    (h : OnChain tree finalized a) (hx : tree.header a = some x) :
    x.number ≤ finalized.number ∧ (x.number = finalized.number → a = finalized.hash) := by
  rcases h with rfl | hbelow
  · rw [hfinal.known hx]
    exact ⟨Nat.le_refl _, fun _ => rfl⟩
  · obtain ⟨p, hp, hnumber⟩ := hfinal.parent
    have hle := (hbelow.number_le hx hp).1
    exact ⟨by omega, fun heq => by omega⟩

theorem OnChain.of_extends (hfinal : Attachable tree finalized)
    (h : OnChain tree finalized b) (hab : tree.Extends a b) :
    OnChain tree finalized a := by
  rcases h with rfl | hbelow
  · by_cases heq : a = finalized.hash
    · exact .inl heq
    · obtain ⟨y, hy⟩ := hab.known
      have hparent := hab.parent hy heq
      rw [hfinal.known hy] at hparent
      exact .inr hparent
  · exact .inr (hab.trans hbelow)

theorem OnChain.eq_of_number (hfinal : Attachable tree finalized)
    (ha : OnChain tree finalized a) (hb : OnChain tree finalized b)
    (hx : tree.header a = some x) (hy : tree.header b = some y) (heq : x.number = y.number) :
    a = b := by
  rcases ha with rfl | ha
  · have hxf := hfinal.known hx
    have := (OnChain.number_le hfinal hb hy).2 (by rw [← heq, hxf])
    exact this.symm
  · rcases hb with rfl | hb
    · have hyf := hfinal.known hy
      exact (OnChain.number_le hfinal (.inr ha) hx).2 (by rw [heq, hyf])
    · exact ((ha.of_number_le hb hx hy (by omega)).number_le hx hy).2 heq

structure IsFinalizedChain (tree : HeaderTree H) (finalized : Header H)
    (chain : List (Header H)) : Prop where
  nonempty : 0 < chain.length
  number : ∀ {i : Nat} {metadata : Header H}, chain[i]? = some metadata →
    metadata.number + i = finalized.number
  onChain : ∀ {i : Nat} {metadata : Header H}, chain[i]? = some metadata →
    OnChain tree finalized metadata.hash
  known : ∀ {i : Nat} {metadata : Header H}, chain[i]? = some metadata →
    metadata = finalized ∨ tree.header metadata.hash = some metadata

theorem isFinalizedChain_singleton (tree : HeaderTree H) (finalized : Header H) :
    IsFinalizedChain tree finalized [finalized] := by
  have hentry : ∀ {i : Nat} {metadata : Header H}, [finalized][i]? = some metadata →
      i = 0 ∧ metadata = finalized := by
    intro i metadata h
    cases i with
    | zero => exact ⟨rfl, (Option.some.inj h).symm⟩
    | succ i => cases h
  refine ⟨Nat.zero_lt_one, fun h => ?_, fun h => ?_, fun h => .inl (hentry h).2⟩
  · obtain ⟨rfl, rfl⟩ := hentry h
    rfl
  · obtain ⟨-, rfl⟩ := hentry h
    exact .inl rfl

theorem IsFinalizedChain.snoc {chain : List (Header H)} (h : IsFinalizedChain tree finalized chain)
    (hx : tree.header x.hash = some x) (hchain : OnChain tree finalized x.hash)
    (hnumber : x.number + chain.length = finalized.number) :
    IsFinalizedChain tree finalized (chain ++ [x]) := by
  have hentry : ∀ {i : Nat} {metadata : Header H}, (chain ++ [x])[i]? = some metadata →
      chain[i]? = some metadata ∨ i = chain.length ∧ metadata = x := by
    intro i metadata hget
    rcases Nat.lt_or_ge i chain.length with hlt | hge
    · rw [List.getElem?_append_left hlt] at hget
      exact .inl hget
    · rw [List.getElem?_append_right hge] at hget
      cases hi : i - chain.length with
      | zero =>
        rw [hi] at hget
        exact .inr ⟨by omega, (Option.some.inj hget).symm⟩
      | succ k =>
        rw [hi] at hget
        cases hget
  refine ⟨by simp, fun hget => ?_, fun hget => ?_, fun hget => ?_⟩
  · rcases hentry hget with hold | ⟨rfl, rfl⟩
    · exact h.number hold
    · exact hnumber
  · rcases hentry hget with hold | ⟨-, rfl⟩
    · exact h.onChain hold
    · exact hchain
  · rcases hentry hget with hold | ⟨-, rfl⟩
    · exact h.known hold
    · exact .inr hx

def LeafEnding.blocks : LeafEnding H → List H
  | .gap => []
  | .ancestor => []
  | .displaced candidates => candidates

/-- The search has found the chain, and the blocks of the branch that are not on it. -/
def Settles (tree : HeaderTree H) (finalized : Header H) (leaf : H) (ending : LeafEnding H) :
    Prop :=
  ending ≠ .gap ∧ ∀ block, block ∈ ending.blocks ↔
    tree.Extends block leaf ∧ ¬ OnChain tree finalized block

theorem settles_ancestor (hfinal : Attachable tree finalized)
    (hleaf : OnChain tree finalized leaf) : Settles tree finalized leaf .ancestor := by
  refine ⟨nofun, fun block => ⟨nofun, ?_⟩⟩
  rintro ⟨hbelow, hoff⟩
  exact absurd (hleaf.of_extends hfinal hbelow) hoff

theorem settles_displaced (hfinal : Attachable tree finalized) {current : Header H}
    (hcurrent : tree.header current.hash = some current) {blocks : List (H × Nat)}
    (hblocks : Descent tree leaf current.hash blocks)
    (hoff : ¬ OnChain tree finalized current.hash)
    (hparent : OnChain tree finalized current.parentHash) :
    Settles tree finalized leaf (.displaced (blocks.map Prod.fst ++ [current.hash])) := by
  refine ⟨nofun, fun block => ?_⟩
  have hmem : (∃ number, (block, number) ∈ blocks) ↔ tree.Extends block leaf ∧
      tree.Extends current.hash block ∧ block ≠ current.hash := hblocks.mem_iff hcurrent
  have hbelow := hblocks.extends hcurrent
  constructor
  · intro hblock
    have habove : tree.Extends block leaf ∧ tree.Extends current.hash block := by
      rcases List.mem_append.mp hblock with hblock | hblock
      · obtain ⟨⟨_, number⟩, hentry, rfl⟩ := List.mem_map.mp hblock
        obtain ⟨hup, hdown, -⟩ := hmem.mp ⟨number, hentry⟩
        exact ⟨hup, hdown⟩
      · rw [List.mem_singleton.mp hblock]
        exact ⟨hbelow, .refl hcurrent⟩
    exact ⟨habove.1, fun hon => hoff (hon.of_extends hfinal habove.2)⟩
  · rintro ⟨hup, hoffBlock⟩
    by_cases heq : block = current.hash
    · exact List.mem_append_right _ (List.mem_singleton.mpr heq)
    · rcases hbelow.total hup with hdown | hunder
      · obtain ⟨number, hentry⟩ := hmem.mpr ⟨hup, hdown, heq⟩
        exact List.mem_append_left _ (List.mem_map.mpr ⟨_, hentry, rfl⟩)
      · exact absurd (hparent.of_extends hfinal (hunder.parent hcurrent heq)) hoffBlock

structure Approaching (tree : HeaderTree H) (finalized : Header H) (leaf : H) (distance : Nat)
    (current : Header H) : Prop where
  known : tree.header current.hash = some current
  level : current.number + distance ≤ finalized.number + 1
  off : current.number + distance = finalized.number + 1 →
    ¬ OnChain tree finalized current.hash
  leaf : OnChain tree finalized current.hash → current.hash = leaf

theorem Approaching.distance_le {current : Header H} {distance : Nat}
    (h : Approaching tree finalized leaf distance current) (hfinal : Attachable tree finalized) :
    distance ≤ finalized.number := by
  rcases Nat.lt_or_ge finalized.number distance with hlt | hge
  · have hlevel := h.level
    obtain ⟨p, hp, -⟩ := hfinal.parent
    have hgenesis := HeaderTree.extends_genesis h.known (by omega) hp
    exact absurd (.inr hgenesis) (h.off (by omega))
  · exact hge

end Chain

/-! ## The search for the chain -/

section Search

variable [LinearOrder H] {tree : HeaderTree H} {cache : HeaderMetadataCache H}
  {finalized x : Header H} {leaf block : H}

theorem minimalBlockMetadata_returns (hsound : Sound tree cache)
    (hx : tree.header block = some x) :
    Program.Returns (minimalBlockMetadata tree block) cache fun metadata t =>
      metadata = x ∧ Sound tree t := by
  refine .bind (headerMetadata_returns hsound hx) fun metadata t hpost => ?_
  obtain ⟨hhash, hfaithful, hsound⟩ := hpost
  refine .pure ⟨?_, hsound⟩
  have hself := tree.hash_eq hx
  cases x
  simp only [Header.mk.injEq]
  exact ⟨hhash.trans hself.symm, hfaithful.number, hfaithful.parent⟩

def Caches (tree : HeaderTree H) (localCache : List (H × Header H)) : Prop :=
  ∀ entry ∈ localCache, tree.header entry.1 = some entry.2

theorem cachedParent_returns {localCache : List (H × Header H)}
    (hsound : Sound tree cache) (hcache : Caches tree localCache)
    (hx : tree.header block = some x) :
    Program.Returns (cachedParent tree localCache block) cache fun result t =>
      result.1 = x ∧ Caches tree result.2 ∧ Sound tree t := by
  unfold cachedParent
  cases hget : Entries.get localCache block with
  | some metadata =>
    have hmem := hcache _ (Entries.mem_of_get hget)
    rw [hx] at hmem
    exact .pure ⟨(Option.some.inj hmem).symm, hcache, hsound⟩
  | none =>
    refine .bind (minimalBlockMetadata_returns hsound hx)
      fun metadata t hpost => ?_
    obtain ⟨rfl, hsound⟩ := hpost
    refine .pure ⟨rfl, fun entry hentry => ?_, hsound⟩
    rcases List.mem_cons.mp hentry with rfl | hentry
    · exact hx
    · exact hcache entry hentry

structure WalksFrom (tree : HeaderTree H) (leaf : H) (walk : LeafWalk H) : Prop where
  current : tree.header walk.current.hash = some walk.current
  descent : ∃ blocks, Descent tree leaf walk.current.hash blocks ∧
    walk.candidates = blocks.map Prod.fst
  cache : Caches tree walk.localCache

theorem walkDown_returns (hsound : Sound tree cache) {walk : LeafWalk H}
    (hwalk : WalksFrom tree leaf walk) (number : Nat) :
    Program.Returns (walkDown tree number walk) cache fun result t =>
      WalksFrom tree leaf result ∧ result.current.number = min number walk.current.number ∧
        Sound tree t := by
  refine .loop
    (I := fun result t => WalksFrom tree leaf result ∧
      min number walk.current.number ≤ result.current.number ∧
      result.current.number ≤ walk.current.number ∧ Sound tree t)
    (fun result => result.current.number) (fun result t hinv => ?_) (Nat.lt_succ_self _)
    ⟨hwalk, Nat.min_le_right _ _, Nat.le_refl _, hsound⟩
  obtain ⟨hresult, hmin, hmax, hsound⟩ := hinv
  split_ifs with hlt
  · obtain ⟨p, hp, hnumber⟩ := tree.parent hresult.current (by omega)
    refine .bind (cachedParent_returns hsound hresult.cache hp)
      fun next t hpost => ?_
    obtain ⟨parent, localCache⟩ := next
    obtain ⟨rfl, hcache, hsound⟩ := hpost
    obtain ⟨blocks, hblocks, hcandidates⟩ := hresult.descent
    dsimp only at hp hnumber
    have hself : parent.hash = result.current.parentHash := tree.hash_eq hp
    have hdescent : Descent tree leaf parent.hash
        (blocks ++ [(result.current.hash, result.current.number)]) := by
      rw [hself]
      exact hblocks.snoc hresult.current
    refine .pure
      ⟨⟨⟨BlockTree.header_self hp, ⟨_, hdescent, by simp [hcandidates]⟩, hcache⟩, ?_, ?_, hsound⟩, ?_⟩
    · show min number walk.current.number ≤ parent.number
      omega
    · show parent.number ≤ walk.current.number
      omega
    · show parent.number < result.current.number
      omega
  · exact .pure ⟨hresult, by omega, hsound⟩

theorem finalizedChainAt_returns (hsound : Sound tree cache)
    (hfinal : Attachable tree finalized) {chain : List (Header H)}
    (hchain : IsFinalizedChain tree finalized chain) {distance : Nat} (hpositive : 0 < distance)
    (hlength : distance ≤ chain.length) (hdepth : distance ≤ finalized.number) :
    Program.Returns (finalizedChainAt tree chain distance) cache fun result t =>
      (∃ metadata, result.1 = some metadata ∧ metadata.number + distance = finalized.number ∧
        OnChain tree finalized metadata.hash ∧
          tree.header metadata.hash = some metadata) ∧
        IsFinalizedChain tree finalized result.2 ∧ distance < result.2.length ∧
          Sound tree t := by
  unfold finalizedChainAt
  cases hget : chain[distance]? with
  | some metadata =>
    have hnumber := hchain.number hget
    refine .pure ⟨⟨metadata, rfl, hnumber, hchain.onChain hget, ?_⟩, hchain,
      (List.getElem?_eq_some_iff.mp hget).1, hsound⟩
    refine (hchain.known hget).resolve_left ?_
    rintro rfl
    omega
  | none =>
    have hend : distance = chain.length := by
      have := List.getElem?_eq_none_iff.mp hget
      omega
    have hlast : chain.getLast? = chain[chain.length - 1]? := List.getLast?_eq_getElem?
    obtain ⟨toFetch, hfetch⟩ : ∃ toFetch, chain[chain.length - 1]? = some toFetch := by
      have hlt : chain.length - 1 < chain.length := by have := hchain.nonempty; omega
      exact ⟨_, List.getElem?_eq_getElem hlt⟩
    have hfetchNumber := hchain.number hfetch
    have hnonempty := hchain.nonempty
    -- the parent of the last block that was fetched
    obtain ⟨p, hp, hnumber, hbelow⟩ : ∃ p, tree.header toFetch.parentHash = some p ∧
        p.number + 1 = toFetch.number ∧
          OnChain tree finalized toFetch.parentHash := by
      rcases hchain.known hfetch with rfl | hknown
      · obtain ⟨p, hp, hnumber⟩ := hfinal.parent
        exact ⟨p, hp, hnumber, .inr (.refl hp)⟩
      · obtain ⟨p, hp, hnumber⟩ := tree.parent hknown (by omega)
        exact ⟨p, hp, hnumber, (hchain.onChain hfetch).of_extends hfinal
          (BlockTree.extends_parent hknown hp)⟩
    rw [hlast, hfetch]
    refine .onError ?_
    refine .bind (minimalBlockMetadata_returns hsound hp)
      fun metadata t hpost => ?_
    obtain ⟨rfl, hsound⟩ := hpost
    have hself := tree.hash_eq hp
    rw [← hself] at hbelow
    have hknown := BlockTree.header_self hp
    have hlevel : metadata.number + chain.length = finalized.number := by omega
    refine .pure ⟨⟨metadata, rfl, by omega, hbelow, hknown⟩,
      hchain.snoc hknown hbelow hlevel, ?_, hsound⟩
    simp [hend]

theorem searchChain_returns (hsound : Sound tree cache)
    (hfinal : Attachable tree finalized) {fuel distance : Nat} {chain : List (Header H)}
    (hchain : IsFinalizedChain tree finalized chain) (hpositive : 0 < distance)
    (hlength : distance ≤ chain.length) (hfuel : finalized.number + 2 ≤ fuel + distance)
    {current : Header H} (hcurrent : Approaching tree finalized leaf distance current)
    {blocks : List (H × Nat)} (hblocks : Descent tree leaf current.hash blocks) :
    Program.Returns (searchChain tree fuel distance chain current
        (blocks.map Prod.fst ++ [current.hash])) cache fun result t =>
      Settles tree finalized leaf result.1 ∧ IsFinalizedChain tree finalized result.2 ∧
        Sound tree t := by
  induction fuel generalizing distance chain current blocks cache with
  | zero =>
    have := hcurrent.distance_le hfinal
    omega
  | succ fuel ih =>
    have hdepth := hcurrent.distance_le hfinal
    refine .bind
      (finalizedChainAt_returns hsound hfinal hchain hpositive hlength hdepth)
      fun result t hpost => ?_
    obtain ⟨chainBlock, chain⟩ := result
    obtain ⟨⟨metadata, hmetadata, hnumber, hon, hknown⟩, hchain, hlonger, hsound⟩ := hpost
    dsimp only at hmetadata hchain hlonger
    subst hmetadata
    dsimp only
    split_ifs with hsame hbelow hparent
    · refine .pure ⟨settles_ancestor hfinal ?_, hchain, hsound⟩
      rw [← hsame] at hon
      rw [← hcurrent.leaf hon]
      exact hon
    · -- the block is at most as high as the chain block, and another one
      refine ih hsound hchain (Nat.succ_pos _) hlonger (by omega)
        ⟨hcurrent.known, by omega, fun hlevel hcurrentOn => ?_, hcurrent.leaf⟩ hblocks
      exact hsame (hcurrentOn.eq_of_number hfinal hon hcurrent.known hknown (by omega))
    · have hlevel : current.number + distance = finalized.number + 1 := by
        have := hcurrent.level
        omega
      refine .pure ⟨?_, hchain, hsound⟩
      refine settles_displaced hfinal hcurrent.known hblocks (hcurrent.off hlevel) ?_
      rw [← hparent]
      exact hon
    · have hlevel : current.number + distance = finalized.number + 1 := by
        have := hcurrent.level
        omega
      obtain ⟨p, hp, hpNumber⟩ := tree.parent hcurrent.known (by omega)
      refine .bind (minimalBlockMetadata_returns hsound hp)
        fun parent t hpost => ?_
      obtain ⟨rfl, hsound⟩ := hpost
      have hself := tree.hash_eq hp
      have hoff : ¬ OnChain tree finalized parent.hash := by
        intro hparentOn
        rw [hself] at hparentOn
        exact hparent (hparentOn.eq_of_number hfinal hon hp hknown (by omega)).symm
      have hdescent := hblocks.snoc hcurrent.known
      rw [← hself] at hdescent
      have hcandidates : blocks.map Prod.fst ++ [current.hash] ++ [current.parentHash] =
          (blocks ++ [(current.hash, current.number)]).map Prod.fst ++ [parent.hash] := by
        simp [hself]
      rw [hcandidates]
      exact ih hsound hchain (Nat.succ_pos _) hlonger (by omega)
        ⟨BlockTree.header_self hp, by omega, fun _ => hoff, fun hon => absurd hon hoff⟩ hdescent

/-! ## All leaves -/

omit [LinearOrder H] in
theorem extends_finalized_iff (hfinal : Attachable tree finalized)
    (hx : tree.header leaf = some x) {current : Header H}
    (hcurrent : tree.header current.hash = some current)
    (hbelow : tree.Extends current.hash leaf)
    (hnumber : current.number = min finalized.number x.number) :
    tree.Extends finalized.hash leaf ↔ current.hash = finalized.hash := by
  constructor
  · intro hextends
    obtain ⟨y, hy⟩ := hextends.base_known
    have hyf := hfinal.known hy
    subst hyf
    have hle := (hextends.number_le hy hx).1
    have hup := hbelow.of_number_le hextends hcurrent hy (by omega)
    exact (hup.number_le hcurrent hy).2 (by omega)
  · intro heq
    rwa [heq] at hbelow

structure Lists (tree : HeaderTree H) (done : List H) (listed : List (Nat × H)) : Prop where
  order : (listed.map Prod.snd).Sublist done
  number : ∀ entry ∈ listed, ∃ x, tree.header entry.2 = some x ∧ x.number = entry.1

variable {done : List H} {listed : List (Nat × H)}

omit [LinearOrder H] in
theorem Lists.skip (h : Lists tree done listed) :
    Lists tree (done ++ [leaf]) listed :=
  ⟨h.order.trans (List.sublist_append_left done [leaf]), h.number⟩

omit [LinearOrder H] in
theorem Lists.add (h : Lists tree done listed)
    (hx : tree.header leaf = some x) :
    Lists tree (done ++ [leaf]) (listed ++ [(x.number, leaf)]) := by
  constructor
  · rw [List.map_append]
    exact h.order.append (List.Sublist.refl [leaf])
  · intro entry hentry
    rcases List.mem_append.mp hentry with hentry | hentry
    · exact h.number entry hentry
    · cases List.mem_singleton.mp hentry
      exact ⟨x, hx, rfl⟩

structure Covers (tree : HeaderTree H) (finalized : Header H) (done : List H)
    (progress : DisplacedProgress H) : Prop where
  chain : IsFinalizedChain tree finalized progress.finalizedChain
  cache : Caches tree progress.localCache
  leaves : ∀ leaf, (∃ number, (number, leaf) ∈ progress.displacedLeaves) ↔
    leaf ∈ done ∧ ¬ tree.Extends finalized.hash leaf
  lists : Lists tree done progress.displacedLeaves
  blocks : ∀ block, block ∈ progress.displacedBlocks ↔
    ∃ leaf ∈ done, ¬ tree.Extends finalized.hash leaf ∧ tree.Extends block leaf ∧
      ¬ OnChain tree finalized block

omit [LinearOrder H] in
theorem Covers.finish {progress : DisplacedProgress H} (h : Covers tree finalized done progress)
    (hx : tree.header leaf = some x) {ending : LeafEnding H}
    (hdisplaced : ¬ tree.Extends finalized.hash leaf)
    (hending : Settles tree finalized leaf ending) :
    Covers tree finalized (done ++ [leaf]) (progress.finish (x.number, leaf) ending) := by
  obtain ⟨hgap, hblocks⟩ := hending
  have hleaves : ∀ other, (∃ n, (n, other) ∈ progress.displacedLeaves ++ [(x.number, leaf)]) ↔
      other ∈ done ++ [leaf] ∧ ¬ tree.Extends finalized.hash other := by
    intro other
    simp only [List.mem_append, List.mem_singleton, Prod.mk.injEq, exists_or, h.leaves]
    constructor
    · rintro (⟨hmem, hnot⟩ | ⟨_, -, rfl⟩)
      · exact ⟨.inl hmem, hnot⟩
      · exact ⟨.inr rfl, hdisplaced⟩
    · rintro ⟨hmem | rfl, hnot⟩
      · exact .inl ⟨hmem, hnot⟩
      · exact .inr ⟨x.number, rfl, rfl⟩
  have hall : ∀ block, block ∈ progress.displacedBlocks ++ ending.blocks ↔
      ∃ other ∈ done ++ [leaf], ¬ tree.Extends finalized.hash other ∧
        tree.Extends block other ∧ ¬ OnChain tree finalized block := by
    intro block
    rw [List.mem_append, h.blocks, hblocks]
    constructor
    · rintro (⟨other, hother, hrest⟩ | hrest)
      · exact ⟨other, List.mem_append_left _ hother, hrest⟩
      · exact ⟨leaf, by simp, hdisplaced, hrest⟩
    · rintro ⟨other, hother, hnot, hrest⟩
      rcases List.mem_append.mp hother with hother | hother
      · exact .inl ⟨other, hother, hnot, hrest⟩
      · rw [List.mem_singleton.mp hother] at hrest
        exact .inr hrest
  cases ending with
  | gap => exact absurd rfl hgap
  | ancestor =>
    refine ⟨h.chain, h.cache, hleaves, h.lists.add hx, fun block => ?_⟩
    rw [← hall block]
    simp [DisplacedProgress.finish, LeafEnding.blocks]
  | displaced candidates => exact ⟨h.chain, h.cache, hleaves, h.lists.add hx, hall⟩

variable {genesisHash : H}

theorem checkLeaf_returns (hsound : Sound tree cache) (hfinal : Attachable tree finalized)
    {genesis : Header H} (hgenesis : tree.header genesisHash = some genesis)
    (hzero : genesis.number = 0) (hx : tree.header leaf = some x) {progress : DisplacedProgress H}
    (hprogress : Covers tree finalized done progress) :
    Program.Returns (checkLeaf tree genesisHash finalized progress leaf) cache
      fun next t => Covers tree finalized (done ++ [leaf]) next ∧ Sound tree t := by
  obtain ⟨p, hp, hparent⟩ := hfinal.parent
  refine .bind (minimalBlockMetadata_returns hsound hx) fun metadata t hpost => ?_
  obtain ⟨rfl, hsound⟩ := hpost
  split_ifs with heq
  · subst heq
    rw [hx] at hgenesis
    cases hgenesis
    refine .pure ⟨hprogress.finish hx ?_ (settles_ancestor hfinal ?_), hsound⟩
    · intro hextends
      obtain ⟨y, hy⟩ := hextends.base_known
      have hyf := hfinal.known hy
      have hle := (hextends.number_le hy hx).1
      subst hyf
      omega
    · exact .inr (HeaderTree.extends_genesis hx hzero hp)
  · have hself := tree.hash_eq hx
    have hstart : WalksFrom tree leaf ⟨metadata, [], progress.localCache⟩ :=
      ⟨BlockTree.header_self hx, ⟨[], by rw [hself]; exact .nil leaf, rfl⟩, hprogress.cache⟩
    refine .bind (walkDown_returns hsound hstart finalized.number)
      fun walk t hpost => ?_
    obtain ⟨hwalk, hnumber, hsound⟩ := hpost
    obtain ⟨blocks, hblocks, hcandidates⟩ := hwalk.descent
    have hbelow := hblocks.extends hwalk.current
    have hextends := extends_finalized_iff hfinal hx hwalk.current hbelow hnumber
    split_ifs with hfound
    · -- the leaf is above the finalized block
      refine .pure ⟨⟨hprogress.chain, hwalk.cache, fun other => ?_,
        hprogress.lists.skip, fun block => ?_⟩, hsound⟩
      · rw [hprogress.leaves, List.mem_append, List.mem_singleton]
        constructor
        · rintro ⟨hmem, hnot⟩
          exact ⟨.inl hmem, hnot⟩
        · rintro ⟨hmem | rfl, hnot⟩
          · exact ⟨hmem, hnot⟩
          · exact absurd (hextends.mpr hfound) hnot
      · rw [hprogress.blocks]
        constructor
        · rintro ⟨other, hother, hrest⟩
          exact ⟨other, List.mem_append_left _ hother, hrest⟩
        · rintro ⟨other, hother, hnot, hrest⟩
          rcases List.mem_append.mp hother with hother | hother
          · exact ⟨other, hother, hnot, hrest⟩
          · rw [List.mem_singleton.mp hother] at hnot
            exact absurd (hextends.mpr hfound) hnot
    · have happroaching : Approaching tree finalized leaf 1 walk.current := by
        have hoff : walk.current.number = finalized.number →
            ¬ OnChain tree finalized walk.current.hash := fun hlevel hon =>
          hfound ((hon.number_le hfinal hwalk.current).2 hlevel)
        refine ⟨hwalk.current, by omega, fun hlevel => hoff (by omega), fun hon => ?_⟩
        -- a block of the chain below the finalized one is the leaf itself
        have hne : walk.current.number ≠ finalized.number := fun hlevel => hoff hlevel hon
        exact (hbelow.number_le hwalk.current hx).2 (by dsimp only at hnumber; omega)
      rw [hcandidates]
      refine .bind (searchChain_returns hsound hfinal hprogress.chain
        Nat.zero_lt_one hprogress.chain.nonempty (by omega) happroaching hblocks)
        fun result t hpost => ?_
      obtain ⟨ending, chain⟩ := result
      obtain ⟨hsettles, hchain, hsound⟩ := hpost
      have hcovers : Covers tree finalized done
          { progress with localCache := walk.localCache, finalizedChain := chain } :=
        ⟨hchain, hwalk.cache, hprogress.leaves, hprogress.lists, hprogress.blocks⟩
      exact .pure
        ⟨hcovers.finish hx (fun h => hfound (hextends.mp h)) hsettles, hsound⟩

theorem mem_dedup {block : H} (blocks : List H) : block ∈ dedup blocks ↔ block ∈ blocks := by
  fun_induction dedup blocks with
  | case1 => rfl
  | case2 => rfl
  | case3 first rest ih => simp [ih]
  | case4 first second rest hne ih => simp [ih]

theorem nodup_dedup {blocks : List H} (hsorted : blocks.Pairwise (· ≤ ·)) :
    (dedup blocks).Nodup := by
  fun_induction dedup blocks with
  | case1 => exact List.nodup_nil
  | case2 block => exact List.nodup_singleton block
  | case3 first rest ih => exact ih hsorted.of_cons
  | case4 first second rest hne ih =>
    obtain ⟨hfirst, hrest⟩ := List.pairwise_cons.mp hsorted
    refine List.nodup_cons.mpr ⟨fun hmem => ?_, ih hrest⟩
    -- what follows is not below the second block, which is above the first one
    have hlt := lt_of_le_of_ne (hfirst second List.mem_cons_self) hne
    rcases List.mem_cons.mp ((mem_dedup _).mp hmem) with heq | hmem
    · exact hne heq
    · exact absurd ((List.pairwise_cons.mp hrest).1 first hmem) (not_le_of_gt hlt)

/-- The leaves that do not extend the block, and the blocks of their branches off its chain. -/
structure IsDisplaced (tree : HeaderTree H) (leaves : List H) (finalized : Header H)
    (result : DisplacedLeavesAfterFinalization H) : Prop where
  displacedLeaves : ∀ leaf, (∃ number, (number, leaf) ∈ result.displacedLeaves) ↔
    leaf ∈ leaves ∧ ¬ tree.Extends finalized.hash leaf
  displacedBlocks : ∀ block, block ∈ result.displacedBlocks ↔
    ∃ leaf ∈ leaves, ¬ tree.Extends finalized.hash leaf ∧ tree.Extends block leaf ∧
      ¬ OnChain tree finalized block
  nodup : result.displacedBlocks.Nodup

theorem displacedLeavesAfterFinalizing_returns (hsound : Sound tree cache)
    (hfinal : Attachable tree finalized) {genesis : Header H}
    (hgenesis : tree.header genesisHash = some genesis) (hzero : genesis.number = 0)
    {leaves : List H} (hleaves : ∀ leaf ∈ leaves, ∃ x, tree.header leaf = some x) :
    Program.Returns
      (displacedLeavesAfterFinalizing tree genesisHash leaves finalized) cache
      fun result t => IsDisplaced tree leaves finalized result ∧
        Lists tree leaves result.displacedLeaves ∧ Sound tree t := by
  obtain ⟨p, hp, hparent⟩ := hfinal.parent
  unfold displacedLeavesAfterFinalizing
  rw [if_neg (by omega)]
  have hstart : Covers tree finalized [] ⟨[finalized], [], [], []⟩ :=
    ⟨isFinalizedChain_singleton tree finalized, nofun, by simp, ⟨List.Sublist.refl [], nofun⟩,
      by simp⟩
  refine .bind (.foldlM
    (I := fun done progress t => Covers tree finalized done progress ∧ Sound tree t)
    (fun done progress t leaf hleaf hinv => ?_) [] ⟨hstart, hsound⟩) fun progress t hpost => ?_
  · obtain ⟨hcovers, hsound⟩ := hinv
    obtain ⟨x, hx⟩ := hleaves leaf hleaf
    exact checkLeaf_returns hsound hfinal hgenesis hzero hx hcovers
  · obtain ⟨hcovers, hsound⟩ := hpost
    rw [List.nil_append] at hcovers
    refine .pure
      ⟨⟨hcovers.leaves, fun block => ?_, nodup_dedup ?_⟩, hcovers.lists, hsound⟩
    · rw [mem_dedup, (List.perm_insertionSort _ _).mem_iff, hcovers.blocks]
    · exact List.pairwise_insertionSort _ _

def Childless (tree : HeaderTree H) (leaf : H) : Prop :=
  (∃ x, tree.header leaf = some x) ∧ ∀ child y, tree.header child = some y → y.parentHash ≠ leaf

/-- The displaced leaves are the childless blocks that are not the finalized block or its
descendants, and the displaced blocks are those on their branches that are not the finalized block
or its ancestors; each is returned once. -/
theorem displaced_exact (hsound : Sound tree cache)
    (hfinal : Attachable tree finalized) {genesisHash : H} {genesis : Header H}
    (hgenesis : tree.header genesisHash = some genesis) (hzero : genesis.number = 0)
    {leaves : List H} (hdistinct : leaves.Nodup)
    (hleaves : ∀ leaf, leaf ∈ leaves ↔ Childless tree leaf) :
    Program.Returns
      (displacedLeavesAfterFinalizing tree genesisHash leaves finalized) cache
      fun result _ =>
        (∀ number leaf, (number, leaf) ∈ result.displacedLeaves ↔
          Childless tree leaf ∧ ¬ tree.Extends finalized.hash leaf ∧
            ∃ x, tree.header leaf = some x ∧ x.number = number) ∧
        (result.displacedLeaves.map Prod.snd).Nodup ∧
        (∀ block, block ∈ result.displacedBlocks ↔
          (∃ leaf, Childless tree leaf ∧ ¬ tree.Extends finalized.hash leaf ∧
            tree.Extends block leaf) ∧ ¬ OnChain tree finalized block) ∧
        result.displacedBlocks.Nodup := by
  refine (displacedLeavesAfterFinalizing_returns hsound hfinal hgenesis hzero
    fun leaf hleaf => ((hleaves leaf).mp hleaf).1).mono fun result _ hpost => ?_
  obtain ⟨hdisplaced, hlists, -⟩ := hpost
  refine ⟨fun number leaf => ⟨fun hmem => ?_, ?_⟩, hdistinct.sublist hlists.order,
    fun block => ?_, hdisplaced.nodup⟩
  · obtain ⟨hleaf, hnot⟩ := (hdisplaced.displacedLeaves leaf).mp ⟨number, hmem⟩
    exact ⟨(hleaves leaf).mp hleaf, hnot, hlists.number (number, leaf) hmem⟩
  · rintro ⟨hleaf, hnot, x, hx, rfl⟩
    obtain ⟨number, hmem⟩ := (hdisplaced.displacedLeaves leaf).mpr ⟨(hleaves leaf).mpr hleaf, hnot⟩
    obtain ⟨y, hy, rfl⟩ := hlists.number (number, leaf) hmem
    cases hx.symm.trans hy
    exact hmem
  · rw [hdisplaced.displacedBlocks]
    constructor
    · rintro ⟨leaf, hleaf, hnot, hextends, hoff⟩
      exact ⟨⟨leaf, (hleaves leaf).mp hleaf, hnot, hextends⟩, hoff⟩
    · rintro ⟨⟨leaf, hleaf, hnot, hextends⟩, hoff⟩
      exact ⟨leaf, (hleaves leaf).mpr hleaf, hnot, hextends, hoff⟩

end Search

def twoBranches : HeaderTree Nat :=
  .ofHeaders [⟨1, 0, 0⟩, ⟨2, 1, 1⟩, ⟨3, 1, 1⟩] (by decide) (by decide) (by decide)

theorem twoBranches_known {block : Nat} {x : Header Nat}
    (h : twoBranches.header block = some x) :
    x = ⟨1, 0, 0⟩ ∨ x = ⟨2, 1, 1⟩ ∨ x = ⟨3, 1, 1⟩ := by
  simpa using List.mem_of_find?_eq_some h

theorem twoBranches_childless (leaf : Nat) : leaf ∈ [2, 3] ↔ Childless twoBranches leaf := by
  constructor
  · intro hleaf
    obtain rfl | rfl : leaf = 2 ∨ leaf = 3 := by simpa using hleaf
    · refine ⟨⟨⟨2, 1, 1⟩, rfl⟩, fun child y hy => ?_⟩
      rcases twoBranches_known hy with rfl | rfl | rfl <;> decide
    · refine ⟨⟨⟨3, 1, 1⟩, rfl⟩, fun child y hy => ?_⟩
      rcases twoBranches_known hy with rfl | rfl | rfl <;> decide
  · rintro ⟨⟨x, hx⟩, hchildless⟩
    have hself := twoBranches.hash_eq hx
    rcases twoBranches_known hx with rfl | rfl | rfl
    · exact absurd hself (hchildless 2 ⟨2, 1, 1⟩ rfl)
    · simp [← hself]
    · simp [← hself]

theorem displaced_exact_twoBranches :
    Program.Returns (displacedLeavesAfterFinalizing twoBranches.toBlockTree 1 [2, 3] ⟨2, 1, 1⟩)
      ⟨8, []⟩ fun result _ => 2 ∉ result.displacedBlocks ∧ result.displacedBlocks.Nodup := by
  have hfinal : Attachable twoBranches ⟨2, 1, 1⟩ :=
    attachable_of_known (a := 2) rfl (by decide)
  have hexact := @displaced_exact Nat _ twoBranches ⟨8, []⟩ ⟨2, 1, 1⟩ (sound_empty 8) hfinal 1
    ⟨1, 0, 0⟩ rfl rfl [2, 3] (by decide) twoBranches_childless
  refine hexact.mono fun result _ hpost => ?_
  obtain ⟨-, -, hblocks, hnodup⟩ := hpost
  exact ⟨fun hmem => ((hblocks 2).mp hmem).2 (.inl rfl), hnodup⟩

end PolkadotSdk.Blockchain
