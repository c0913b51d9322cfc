import Mathlib
import PolkadotSdk.Blockchain.HeaderTree
import PolkadotSdk.Lib.Program

/-! # Header metadata

The metadata of a header is kept in a cache of the entries that were used last. An entry holds
a link to some ancestor of the block, at first its parent, by which the search for the lowest
common ancestor of two blocks jumps through the tree. The search leaves new links in the cache;
it finds the same block whatever links it meets.
-/

namespace PolkadotSdk.Blockchain

variable {H : Type}

structure CachedHeaderMetadata (H : Type) where
  hash : H
  number : Nat
  parent : H
  ancestor : H
  deriving DecidableEq, Repr

def CachedHeaderMetadata.ofHeader (header : Header H) : CachedHeaderMetadata H :=
  ⟨header.hash, header.number, header.parentHash, header.parentHash⟩

structure HeaderMetadataCache (H : Type) where
  capacity : Nat
  entries : List (H × CachedHeaderMetadata H)

inductive ClientError (H : Type) where
  | unknownBlock (hash : H)
  deriving DecidableEq, Repr

abbrev Client (H α : Type) : Type := Program (ClientError H) (HeaderMetadataCache H) α

section Operations

variable [DecidableEq H]

namespace HeaderMetadataCache

def insertHeaderMetadata (cache : HeaderMetadataCache H) (hash : H)
    (metadata : CachedHeaderMetadata H) : HeaderMetadataCache H :=
  { cache with
    entries := ((hash, metadata) :: cache.entries.filter fun entry =>
      decide (entry.1 ≠ hash)).take cache.capacity }

def headerMetadata (cache : HeaderMetadataCache H) (hash : H) :
    Option (CachedHeaderMetadata H) × HeaderMetadataCache H :=
  match cache.entries.find? fun entry => decide (entry.1 = hash) with
  | none => (none, cache)
  | some (_, metadata) => (some metadata, cache.insertHeaderMetadata hash metadata)

end HeaderMetadataCache

variable (tree : BlockTree H)

def headerMetadata (hash : H) : Client H (CachedHeaderMetadata H) := do
  let (cached, cache) := (← get).headerMetadata hash
  set cache
  match cached with
  | some metadata => pure metadata
  | none =>
    match tree.header hash with
    | none => throw (.error (.unknownBlock hash))
    | some header =>
      let metadata := .ofHeader header
      modify fun cache => cache.insertHeaderMetadata metadata.hash metadata
      pure metadata

def followAncestors (number : Nat) (metadata : CachedHeaderMetadata H) :
    Client H (CachedHeaderMetadata H) :=
  Program.loop (fun metadata =>
    if number < metadata.number then do
      let ancestor ← headerMetadata tree metadata.ancestor
      if number ≤ ancestor.number then pure (some ancestor) else pure none
    else pure none) (metadata.number + 1) metadata

def followParents (one two : CachedHeaderMetadata H) :
    Client H (CachedHeaderMetadata H × CachedHeaderMetadata H) :=
  Program.loop (fun (one, two) =>
    if one.hash = two.hash then pure none
    else if two.number < one.number then do
      let parent ← headerMetadata tree one.parent
      pure (some (parent, two))
    else do
      let parent ← headerMetadata tree two.parent
      pure (some (one, parent))) (one.number + two.number + 1) (one, two)

def linkAncestor (original common : CachedHeaderMetadata H) : Client H Unit :=
  if common.number < original.number then
    modify fun cache =>
      cache.insertHeaderMetadata original.hash { original with ancestor := common.hash }
  else pure ()

def searchAncestor (one two : CachedHeaderMetadata H) : Client H (H × Nat) := do
  let headerOne ← followAncestors tree two.number one
  let headerTwo ← followAncestors tree headerOne.number two
  let (common, _) ← followParents tree headerOne headerTwo
  linkAncestor one common
  linkAncestor two common
  pure (common.hash, common.number)

def lowestCommonAncestor (idOne idTwo : H) : Client H (H × Nat) := do
  let one ← headerMetadata tree idOne
  if one.parent = idTwo then
    if one.number = 0 then throw .panic else pure (idTwo, one.number - 1)
  else do
    let two ← headerMetadata tree idTwo
    if two.parent = idOne then pure (idOne, one.number) else searchAncestor tree one two

def isCommonAncestor (base hash : H) : Client H Bool := do
  let (ancestor, _) ← lowestCommonAncestor tree hash base
  pure (decide (ancestor = base))

/-- `current` is a block that is not known yet, with its parent. -/
def isDescendentOf (current : Option (H × H)) (base hash : H) : Client H Bool :=
  if base = hash then pure false
  else
    match current with
    | none => isCommonAncestor tree base hash
    | some (currentHash, currentParentHash) =>
      if base = currentHash then pure false
      else if hash = currentHash then
        if base = currentParentHash then pure true
        else isCommonAncestor tree base currentParentHash
      else isCommonAncestor tree base hash

end Operations

/-! ## The cache -/

structure Faithful (tree : BlockTree H) (metadata : CachedHeaderMetadata H) (x : Header H) :
    Prop where
  known : tree.header metadata.hash = some x
  number : metadata.number = x.number
  parent : metadata.parent = x.parentHash
  ancestor : ∀ p, tree.header x.parentHash = some p →
    tree.Extends metadata.ancestor x.parentHash

def Sound (tree : BlockTree H) (cache : HeaderMetadataCache H) : Prop :=
  ∀ entry ∈ cache.entries, entry.2.hash = entry.1 ∧ ∃ x, Faithful tree entry.2 x

variable {tree : BlockTree H} {cache : HeaderMetadataCache H}

theorem sound_empty (capacity : Nat) : Sound tree ⟨capacity, []⟩ := nofun

theorem faithful_ofHeader {block : H} {x : Header H} (h : tree.header block = some x) :
    Faithful tree (.ofHeader x) x :=
  ⟨BlockTree.header_self h, rfl, rfl, fun _ hp => .refl hp⟩

section Specs

variable [DecidableEq H] {one two metadata : CachedHeaderMetadata H} {x y z : Header H}

theorem Sound.insert (h : Sound tree cache) (hmetadata : Faithful tree metadata x) :
    Sound tree (cache.insertHeaderMetadata metadata.hash metadata) := by
  intro entry hentry
  rcases List.mem_cons.mp (List.mem_of_mem_take hentry) with rfl | hrest
  · exact ⟨rfl, x, hmetadata⟩
  · exact h entry (List.mem_filter.mp hrest).1

theorem headerMetadata_returns {block : H} (hsound : Sound tree cache)
    (hx : tree.header block = some x) :
    Program.Returns (headerMetadata tree block) cache fun metadata t =>
      metadata.hash = block ∧ Faithful tree metadata x ∧ Sound tree t := by
  unfold Program.Returns headerMetadata
  cases hfind : cache.entries.find? fun entry => decide (entry.1 = block) with
  | none =>
    have hcached : cache.headerMetadata block = (none, cache) := by
      rw [HeaderMetadataCache.headerMetadata, hfind]
    refine ⟨.ofHeader x, cache.insertHeaderMetadata x.hash (.ofHeader x), ?_,
      tree.hash_eq hx, faithful_ofHeader hx, hsound.insert (faithful_ofHeader hx)⟩
    simp [EStateM.run, bind, EStateM.bind, get, getThe, MonadStateOf.get, EStateM.get, hcached,
      set, EStateM.set, hx, modify, modifyGet, MonadStateOf.modifyGet, EStateM.modifyGet, pure,
      EStateM.pure, CachedHeaderMetadata.ofHeader]
  | some entry =>
    obtain ⟨hash, metadata⟩ := entry
    obtain ⟨hhash, w, hfaithful⟩ := hsound _ (List.mem_of_find?_eq_some hfind)
    have heq : hash = block := by simpa using List.find?_some hfind
    have hcached : cache.headerMetadata block =
        (some metadata, cache.insertHeaderMetadata block metadata) := by
      rw [HeaderMetadataCache.headerMetadata, hfind]
    dsimp only at hhash hfaithful
    subst heq
    have hw := hfaithful.known
    rw [hhash, hx] at hw
    cases hw
    refine ⟨metadata, cache.insertHeaderMetadata hash metadata, ?_, hhash, hfaithful, ?_⟩
    · simp [EStateM.run, bind, EStateM.bind, get, getThe, MonadStateOf.get, EStateM.get, hcached,
        set, EStateM.set, pure, EStateM.pure]
    · simpa [hhash] using hsound.insert hfaithful

/-! ## The search -/

def IsKnown (tree : BlockTree H) (metadata : CachedHeaderMetadata H) : Prop :=
  ∃ x, Faithful tree metadata x

omit [DecidableEq H] in
theorem Faithful.extends_ancestor (h : Faithful tree metadata x) {p : Header H}
    (hp : tree.header x.parentHash = some p) : tree.Extends metadata.ancestor metadata.hash :=
  .step h.known (h.ancestor p hp)

omit [DecidableEq H] in
theorem extends_of_jump {number : Nat} (hone : Faithful tree one x)
    (hmetadata : Faithful tree metadata y) (hjump : tree.Extends metadata.hash one.hash)
    (hnumber : metadata = one ∨ number ≤ metadata.number) {c : H}
    (hc : tree.Extends c one.hash) (hz : tree.header c = some z) (hle : z.number ≤ number) :
    tree.Extends c metadata.hash := by
  rcases hnumber with rfl | hnumber
  · exact hc
  · exact hc.of_number_le hjump hz hmetadata.known (by rw [← hmetadata.number]; omega)

theorem followAncestors_returns (hsound : Sound tree cache) (hone : IsKnown tree one)
    (htwo : IsKnown tree two) :
    Program.Returns (followAncestors tree two.number one) cache fun metadata t =>
      IsKnown tree metadata ∧ tree.Extends metadata.hash one.hash ∧
        (metadata = one ∨ two.number ≤ metadata.number) ∧ Sound tree t := by
  obtain ⟨x, hx⟩ := hone
  obtain ⟨w, hw⟩ := htwo
  refine .loop (I := fun metadata t => IsKnown tree metadata ∧
      tree.Extends metadata.hash one.hash ∧ (metadata = one ∨ two.number ≤ metadata.number) ∧
      Sound tree t)
    CachedHeaderMetadata.number (fun metadata t hinv => ?_) (Nat.lt_succ_self _)
    ⟨⟨x, hx⟩, .refl hx.known, .inl rfl, hsound⟩
  obtain ⟨⟨y, hy⟩, hjump, hnumber, hsound⟩ := hinv
  split_ifs with hlt
  · rw [hy.number, hw.number] at hlt
    -- a block above another one is not the root
    obtain ⟨p, hp, hparent⟩ := BlockTree.parent_of_ne hy.known hw.known (by omega) fun heq => by
      have hknown := hw.known
      rw [← heq, hy.known] at hknown
      cases hknown
      omega
    have hbelow := hy.ancestor p hp
    obtain ⟨z, hz⟩ := hbelow.base_known
    refine .bind (headerMetadata_returns hsound hz) fun ancestor t hpost => ?_
    obtain ⟨hhash, hfaithful, hsound⟩ := hpost
    have hlower := (hbelow.number_le hz hp).1
    split_ifs with hle
    · refine .pure ⟨⟨⟨z, hfaithful⟩, ?_, .inr hle, hsound⟩, ?_⟩
      · rw [hhash]
        exact (hy.extends_ancestor hp).trans hjump
      · rw [hfaithful.number, hy.number]
        omega
    · exact .pure ⟨⟨y, hy⟩, hjump, hnumber, hsound⟩
  · exact .pure ⟨⟨y, hy⟩, hjump, hnumber, hsound⟩

/-- The block is a common ancestor of the two, and every common ancestor is one of its own. -/
structure IsMeet (tree : BlockTree H) (a b meet : H) : Prop where
  left : tree.Extends meet a
  right : tree.Extends meet b
  greatest : ∀ c, tree.Extends c a → tree.Extends c b → tree.Extends c meet

omit [DecidableEq H] in
theorem IsMeet.self {a : H} (h : tree.header a = some x) : IsMeet tree a a a :=
  ⟨.refl h, .refl h, fun _ hc _ => hc⟩

omit [DecidableEq H] in
theorem IsMeet.symm {a b meet : H} (h : IsMeet tree a b meet) : IsMeet tree b a meet :=
  ⟨h.right, h.left, fun c hb ha => h.greatest c ha hb⟩

omit [DecidableEq H] in
theorem IsMeet.of_left {a a' b meet : H} (h : IsMeet tree a' b meet) (hle : tree.Extends a' a)
    (hcommon : ∀ c, tree.Extends c a → tree.Extends c b → tree.Extends c a') :
    IsMeet tree a b meet :=
  ⟨h.left.trans hle, h.right, fun c ha hb => h.greatest c (hcommon c ha hb) hb⟩

omit [DecidableEq H] in
theorem IsMeet.of_extends {a b : H} (h : tree.Extends a b) : IsMeet tree a b a := by
  obtain ⟨x, hx⟩ := h.base_known
  exact ⟨.refl hx, h, fun _ hc _ => hc⟩

omit [DecidableEq H] in
theorem extends_parent_of_common {a b c : H} (hx : tree.header a = some x)
    (hy : tree.header b = some y) (hle : y.number ≤ x.number) (hne : a ≠ b)
    (ha : tree.Extends c a) (hb : tree.Extends c b) : tree.Extends c x.parentHash := by
  refine ha.parent hx ?_
  rintro rfl
  have hnumber := hb.number_le hx hy
  exact hne (hnumber.2 (by omega))

structure Approaches (tree : BlockTree H) (a b : H) (one two : CachedHeaderMetadata H) :
    Prop where
  first : IsKnown tree one
  second : IsKnown tree two
  meet : ∀ meet, IsMeet tree one.hash two.hash meet → IsMeet tree a b meet

theorem followParents_returns {a b : H} (hsound : Sound tree cache)
    (happroaches : Approaches tree a b one two) :
    Program.Returns (followParents tree one two) cache fun pair t =>
      IsKnown tree pair.1 ∧ IsMeet tree a b pair.1.hash ∧ Sound tree t := by
  refine .loop
    (I := fun pair t => Approaches tree a b pair.1 pair.2 ∧ Sound tree t)
    (fun pair => pair.1.number + pair.2.number) (fun pair t hinv => ?_) (Nat.lt_succ_self _)
    ⟨happroaches, hsound⟩
  obtain ⟨one, two⟩ := pair
  obtain ⟨⟨⟨x, hx⟩, ⟨y, hy⟩, hmeet⟩, hsound⟩ := hinv
  dsimp only at hx hy hmeet ⊢
  split_ifs with heq hlt
  · refine .pure ⟨⟨x, hx⟩, hmeet _ ?_, hsound⟩
    rw [← heq]
    exact .self hx.known
  · rw [hx.number, hy.number] at hlt
    obtain ⟨p, hp, hparent⟩ := BlockTree.parent_of_ne hx.known hy.known (by omega) heq
    rw [hx.parent]
    refine .bind (headerMetadata_returns hsound hp) fun parent t hpost => ?_
    obtain ⟨hhash, hfaithful, hsound⟩ := hpost
    refine .pure ⟨⟨⟨⟨p, hfaithful⟩, ⟨y, hy⟩, fun meet h => hmeet meet ?_⟩, hsound⟩, ?_⟩
    · rw [hhash] at h
      exact h.of_left (BlockTree.extends_parent hx.known hp) fun c hone htwo =>
        extends_parent_of_common hx.known hy.known (by omega) heq hone htwo
    · dsimp only
      rw [hfaithful.number, hx.number]
      omega
  · rw [hx.number, hy.number] at hlt
    obtain ⟨p, hp, hparent⟩ := BlockTree.parent_of_ne hy.known hx.known (by omega) (Ne.symm heq)
    rw [hy.parent]
    refine .bind (headerMetadata_returns hsound hp) fun parent t hpost => ?_
    obtain ⟨hhash, hfaithful, hsound⟩ := hpost
    refine .pure ⟨⟨⟨⟨x, hx⟩, ⟨p, hfaithful⟩, fun meet h => hmeet meet ?_⟩, hsound⟩, ?_⟩
    · rw [hhash] at h
      exact (h.symm.of_left (BlockTree.extends_parent hy.known hp) fun c htwo hone =>
        extends_parent_of_common hy.known hx.known (by omega) (Ne.symm heq) htwo hone).symm
    · dsimp only
      rw [hfaithful.number, hy.number]
      omega

theorem linkAncestor_returns {common : CachedHeaderMetadata H} (hsound : Sound tree cache)
    (hone : IsKnown tree one) (hcommon : IsKnown tree common)
    (hbelow : tree.Extends common.hash one.hash) :
    Program.Returns (linkAncestor one common) cache fun _ t => Sound tree t := by
  obtain ⟨x, hx⟩ := hone
  obtain ⟨y, hy⟩ := hcommon
  unfold linkAncestor
  split_ifs with hlt
  · have hlinked : Faithful tree { one with ancestor := common.hash } x := by
      refine ⟨hx.known, hx.number, hx.parent, fun _ _ => hbelow.parent hx.known ?_⟩
      intro heq
      have hknown := hy.known
      rw [heq, hx.known] at hknown
      cases hknown
      rw [hx.number, hy.number] at hlt
      omega
    exact ⟨(), _, rfl, hsound.insert hlinked⟩
  · exact .pure hsound

omit [DecidableEq H] in
theorem Approaches.jump {a b : H} (h : Approaches tree a b one two)
    (hmetadata : IsKnown tree metadata) (hjump : tree.Extends metadata.hash one.hash)
    (hnumber : metadata = one ∨ two.number ≤ metadata.number) :
    Approaches tree a b metadata two := by
  obtain ⟨⟨x, hx⟩, ⟨y, hy⟩, hmeet⟩ := h
  obtain ⟨w, hw⟩ := hmetadata
  refine ⟨⟨w, hw⟩, ⟨y, hy⟩, fun meet h => hmeet meet ?_⟩
  refine h.of_left hjump fun c hone htwo => ?_
  obtain ⟨z, hz⟩ := hone.base_known
  refine extends_of_jump hx hw hjump hnumber hone hz ?_
  rw [hy.number]
  exact (htwo.number_le hz hy.known).1

omit [DecidableEq H] in
theorem Approaches.symm {a b : H} (h : Approaches tree a b one two) :
    Approaches tree b a two one :=
  ⟨h.second, h.first, fun meet hmeet => (h.meet meet hmeet.symm).symm⟩

def HasNumber (tree : BlockTree H) (block : H) (number : Nat) : Prop :=
  ∃ x, tree.header block = some x ∧ x.number = number

section

variable (hsound : Sound tree cache)
include hsound

theorem searchAncestor_returns (hone : IsKnown tree one)
    (htwo : IsKnown tree two) :
    Program.Returns (searchAncestor tree one two) cache fun result t =>
      IsMeet tree one.hash two.hash result.1 ∧ HasNumber tree result.1 result.2 ∧
        Sound tree t := by
  have hstart : Approaches tree one.hash two.hash one two := ⟨hone, htwo, fun _ h => h⟩
  refine .bind (followAncestors_returns hsound hone htwo) fun headerOne t hpost => ?_
  obtain ⟨hknown, hjump, hnumber, hsound⟩ := hpost
  have hfirst := hstart.jump hknown hjump hnumber
  refine .bind (followAncestors_returns hsound htwo hknown)
    fun headerTwo t hpost => ?_
  obtain ⟨hknown, hjump, hnumber, hsound⟩ := hpost
  have hsecond := (hfirst.symm.jump hknown hjump hnumber).symm
  refine .bind (followParents_returns hsound hsecond) fun pair t hpost => ?_
  obtain ⟨hknown, hmeet, hsound⟩ := hpost
  refine .bind (linkAncestor_returns hsound hone hknown hmeet.left)
    fun _ t hsound => ?_
  refine .bind (linkAncestor_returns hsound htwo hknown hmeet.right)
    fun _ t hsound => ?_
  obtain ⟨x, hx⟩ := hknown
  exact .pure ⟨hmeet, ⟨x, hx.known, hx.number.symm⟩, hsound⟩

/-- The search returns the lowest common ancestor, whatever links the cache holds. -/
theorem lowestCommonAncestor_returns {a b : H}
    (hx : tree.header a = some x) (hy : tree.header b = some y) :
    Program.Returns (lowestCommonAncestor tree a b) cache fun result t =>
      IsMeet tree a b result.1 ∧ HasNumber tree result.1 result.2 ∧ Sound tree t := by
  refine .bind (headerMetadata_returns hsound hx) fun one t hpost => ?_
  obtain ⟨hone, hfaithful, hsound⟩ := hpost
  split_ifs with hparent hzero
  · -- the block above its parent has a positive number
    rw [hfaithful.number] at hzero
    rw [hfaithful.parent] at hparent
    rw [← hparent] at hy
    have hnumber := tree.number_parent hx hy
    omega
  · rw [hfaithful.parent] at hparent
    subst hparent
    have hnumber := tree.number_parent hx hy
    refine .pure ⟨?_, ⟨y, hy, ?_⟩, hsound⟩
    · exact (IsMeet.of_extends (BlockTree.extends_parent hx hy)).symm
    · rw [hfaithful.number]
      omega
  · refine .bind (headerMetadata_returns hsound hy) fun two t hpost => ?_
    obtain ⟨htwo, hfaithful', hsound⟩ := hpost
    split_ifs with hparent'
    · rw [hfaithful'.parent] at hparent'
      subst hparent'
      exact .pure
        ⟨.of_extends (.step hy (.refl hx)), ⟨x, hx, hfaithful.number.symm⟩, hsound⟩
    · rw [← hone, ← htwo]
      exact searchAncestor_returns hsound ⟨x, hfaithful⟩ ⟨y, hfaithful'⟩

theorem isCommonAncestor_returns {base block : H}
    (hx : tree.header base = some x) (hy : tree.header block = some y) :
    Program.Returns (isCommonAncestor tree base block) cache fun answer t =>
      (answer = true ↔ tree.Extends base block) ∧ Sound tree t := by
  refine .bind (lowestCommonAncestor_returns hsound hy hx) fun result t hpost => ?_
  obtain ⟨hmeet, -, hsound⟩ := hpost
  refine .pure ⟨?_, hsound⟩
  rw [decide_eq_true_iff]
  constructor
  · rintro heq
    rw [← heq]
    exact hmeet.left
  · intro hextends
    exact hmeet.right.antisymm (hmeet.greatest base hextends (.refl hx))

theorem isDescendentOf_returns {base block : H}
    (hx : tree.header base = some x) (hy : tree.header block = some y) :
    Program.Returns (isDescendentOf tree none base block) cache fun answer t =>
      (answer = true ↔ base ≠ block ∧ tree.Extends base block) ∧ Sound tree t := by
  unfold isDescendentOf
  split_ifs with heq
  · exact .pure ⟨by simp [heq], hsound⟩
  · refine (isCommonAncestor_returns hsound hx hy).mono fun answer t hpost => ?_
    exact ⟨by rw [hpost.1, and_iff_right heq], hpost.2⟩

end

end Specs

end PolkadotSdk.Blockchain
