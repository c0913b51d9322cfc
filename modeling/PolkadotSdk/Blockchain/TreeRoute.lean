import Mathlib
import PolkadotSdk.Blockchain.HeaderMetadata

/-! # Tree routes

The route from one block to another goes down to their lowest common ancestor and up again. The
searches below read the shared cache and leave links in it; entries may be evicted at any time.
-/

namespace PolkadotSdk.Blockchain

variable {H : Type}

/-! ## Model -/

structure TreeRoute (H : Type) where
  route : List (H × Nat)
  pivot : Nat
  pivot_lt : pivot < route.length
  deriving DecidableEq

namespace TreeRoute

def retracted (route : TreeRoute H) : List (H × Nat) := route.route.take route.pivot

def commonBlock (route : TreeRoute H) : H × Nat := route.route.get ⟨route.pivot, route.pivot_lt⟩

def enacted (route : TreeRoute H) : List (H × Nat) := route.route.drop (route.pivot + 1)

def ofBranches (fromBranch : List (H × Nat)) (common : H × Nat) (toBranch : List (H × Nat)) :
    TreeRoute H :=
  ⟨fromBranch ++ common :: toBranch.reverse, fromBranch.length, by simp⟩

variable (fromBranch toBranch : List (H × Nat)) (common : H × Nat)

@[simp] theorem retracted_ofBranches :
    (ofBranches fromBranch common toBranch).retracted = fromBranch := by
  simp [retracted, ofBranches]

@[simp] theorem commonBlock_ofBranches :
    (ofBranches fromBranch common toBranch).commonBlock = common := by
  simp [commonBlock, ofBranches]

@[simp] theorem enacted_ofBranches :
    (ofBranches fromBranch common toBranch).enacted = toBranch.reverse := by
  simp [enacted, ofBranches]

end TreeRoute

structure Branch (H : Type) where
  blocks : List (H × Nat)
  head : CachedHeaderMetadata H

section Model

variable [DecidableEq H] (tree : BlockTree H)

def Branch.descend (branch : Branch H) : Client H (Branch H) := do
  let parent ← headerMetadata tree branch.head.parent
  pure ⟨branch.blocks ++ [(branch.head.hash, branch.head.number)], parent⟩

def Branch.descendTo (number : Nat) (head : CachedHeaderMetadata H) : Client H (Branch H) :=
  Program.loop (fun branch =>
    if number < branch.head.number then do
      let next ← branch.descend tree
      pure (some next)
    else pure none) (head.number + 1) ⟨[], head⟩

def descendBoth (fromBranch toBranch : Branch H) : Client H (Branch H × Branch H) :=
  Program.loop (fun (fromBranch, toBranch) =>
    if toBranch.head.hash = fromBranch.head.hash then pure none
    else do
      let nextTo ← toBranch.descend tree
      let nextFrom ← fromBranch.descend tree
      pure (some (nextFrom, nextTo)))
    (toBranch.head.number + 1) (fromBranch, toBranch)

def treeRoute (fromHash toHash : H) : Client H (TreeRoute H) := do
  let fromHeader ← headerMetadata tree fromHash
  let toHeader ← headerMetadata tree toHash
  let toBranch ← Branch.descendTo tree fromHeader.number toHeader
  let fromBranch ← Branch.descendTo tree toBranch.head.number fromHeader
  let (fromBranch, toBranch) ← descendBoth tree fromBranch toBranch
  pure (.ofBranches fromBranch.blocks (toBranch.head.hash, toBranch.head.number) toBranch.blocks)

end Model

/-! ## Routes -/

/-- The blocks from the first one down to the second, which is left out. -/
inductive Descent (tree : BlockTree H) : H → H → List (H × Nat) → Prop
  | nil (block : H) : Descent tree block block []
  | cons {block base : H} {x : Header H} {rest : List (H × Nat)}
      (known : tree.header block = some x) (h : Descent tree x.parentHash base rest) :
      Descent tree block base ((block, x.number) :: rest)

/-- The way from one block down to the lowest common ancestor, and up to the other. -/
structure IsRoute (tree : BlockTree H) (fromHash toHash : H) (route : TreeRoute H) : Prop where
  common : IsMeet tree fromHash toHash route.commonBlock.1
  number : HasNumber tree route.commonBlock.1 route.commonBlock.2
  retracted : Descent tree fromHash route.commonBlock.1 route.retracted
  enacted : Descent tree toHash route.commonBlock.1 route.enacted.reverse

variable {tree : BlockTree H} {cache : HeaderMetadataCache H} {a b c : H} {x y : Header H}

variable {blocks : List (H × Nat)}

section

variable (h : Descent tree a b blocks) (hx : tree.header b = some x)
include h hx

theorem Descent.snoc : Descent tree a x.parentHash (blocks ++ [(b, x.number)]) := by
  induction h with
  | nil block => exact .cons hx (.nil _)
  | cons known _ ih => exact .cons known (ih hx)

theorem Descent.extends : tree.Extends b a := by
  induction h with
  | nil block => exact .refl hx
  | cons known _ ih => exact .step known (ih hx)

theorem Descent.mem_iff {block : H} :
    (∃ number, (block, number) ∈ blocks) ↔
      tree.Extends block a ∧ tree.Extends b block ∧ block ≠ b := by
  induction h with
  | nil base =>
    constructor
    · rintro ⟨_, ⟨⟩⟩
    · rintro ⟨hup, hdown, hne⟩
      exact absurd (hup.antisymm hdown) hne
  | cons known hrest ih =>
    rename_i top base z rest
    have hbelow := hrest.extends hx
    constructor
    · rintro ⟨number, hmem⟩
      rcases List.mem_cons.mp hmem with heq | hmem
      · cases heq
        refine ⟨.refl known, .step known hbelow, ?_⟩
        rintro rfl
        obtain ⟨p, hp⟩ := hbelow.known
        have hnumber := tree.number_parent known hp
        have hle := (hbelow.number_le known hp).1
        omega
      · obtain ⟨hup, hdown, hne⟩ := (ih hx).mp ⟨number, hmem⟩
        exact ⟨.step known hup, hdown, hne⟩
    · rintro ⟨hup, hdown, hne⟩
      by_cases heq : block = top
      · subst heq
        exact ⟨z.number, List.mem_cons_self⟩
      · obtain ⟨number, hmem⟩ := (ih hx).mpr ⟨hup.parent known heq, hdown, hne⟩
        exact ⟨number, List.mem_cons_of_mem _ hmem⟩

end

/-- The retracted blocks are those on the branch of the first block and not on that of the
second. -/
theorem IsRoute.mem_retracted_iff {route : TreeRoute H} (h : IsRoute tree a b route) {block : H} :
    (∃ number, (block, number) ∈ route.retracted) ↔
      tree.Extends block a ∧ ¬ tree.Extends block b := by
  obtain ⟨z, hz, -⟩ := h.number
  rw [h.retracted.mem_iff hz]
  constructor
  · rintro ⟨hup, hdown, hne⟩
    exact ⟨hup, fun hb => hne ((h.common.greatest block hup hb).antisymm hdown)⟩
  · rintro ⟨hup, hnot⟩
    rcases h.common.left.total hup with hdown | habove
    · refine ⟨hup, hdown, ?_⟩
      rintro rfl
      exact hnot h.common.right
    · exact absurd (habove.trans h.common.right) hnot

theorem IsRoute.symm {route : TreeRoute H} (h : IsRoute tree a b route) :
    IsRoute tree b a (.ofBranches route.enacted.reverse route.commonBlock route.retracted) where
  common := by simpa using h.common.symm
  number := by simpa using h.number
  retracted := by simpa using h.enacted
  enacted := by simpa using h.retracted

theorem IsRoute.mem_enacted_iff {route : TreeRoute H} (h : IsRoute tree a b route) {block : H} :
    (∃ number, (block, number) ∈ route.enacted) ↔
      tree.Extends block b ∧ ¬ tree.Extends block a := by
  simpa using h.symm.mem_retracted_iff

section Specs

variable [DecidableEq H]

structure IsBranch (tree : BlockTree H) (block : H) (branch : Branch H) : Prop where
  head : IsKnown tree branch.head
  descent : Descent tree block branch.head.hash branch.blocks

variable {branch : Branch H}

omit [DecidableEq H] in
theorem IsBranch.extends (h : IsBranch tree a branch) : tree.Extends branch.head.hash a := by
  obtain ⟨x, hx⟩ := h.head
  exact h.descent.extends hx.known

theorem Branch.descend_returns (hsound : Sound tree cache) (hbranch : IsBranch tree a branch)
    (hx : Faithful tree branch.head x) {p : Header H} (hp : tree.header x.parentHash = some p) :
    Program.Returns (branch.descend tree) cache fun next t =>
      IsBranch tree a next ∧ next.head.hash = x.parentHash ∧
        next.head.number + 1 = branch.head.number ∧ Sound tree t := by
  unfold Branch.descend
  rw [hx.parent]
  refine .bind (headerMetadata_returns hsound hp) fun parent t hpost => ?_
  obtain ⟨hhash, hfaithful, hsound⟩ := hpost
  refine .pure ⟨⟨⟨p, hfaithful⟩, ?_⟩, hhash, ?_, hsound⟩
  · have hsnoc := hbranch.descent.snoc hx.known
    rw [← hx.number] at hsnoc
    rw [hhash]
    exact hsnoc
  · rw [hfaithful.number, hx.number]
    exact tree.number_parent hx.known hp

theorem Branch.descendTo_returns {one two : CachedHeaderMetadata H} (hsound : Sound tree cache)
    (hone : IsKnown tree one) (htwo : IsKnown tree two) :
    Program.Returns (Branch.descendTo tree two.number one) cache fun branch t =>
      IsBranch tree one.hash branch ∧ branch.head.number = min two.number one.number ∧
        Sound tree t := by
  obtain ⟨w, hw⟩ := htwo
  refine .loop
    (I := fun branch t => IsBranch tree one.hash branch ∧
      min two.number one.number ≤ branch.head.number ∧ branch.head.number ≤ one.number ∧
      Sound tree t)
    (fun branch => branch.head.number) (fun branch t hinv => ?_) (Nat.lt_succ_self _)
    ⟨⟨hone, .nil _⟩, Nat.min_le_right _ _, Nat.le_refl _, hsound⟩
  obtain ⟨hbranch, hmin, hmax, hsound⟩ := hinv
  obtain ⟨y, hy⟩ := hbranch.head
  split_ifs with hlt
  · rw [hy.number, hw.number] at hlt
    obtain ⟨p, hp, hparent⟩ := BlockTree.parent_of_ne hy.known hw.known (by omega) fun heq => by
      have hknown := hw.known
      rw [← heq, hy.known] at hknown
      cases hknown
      omega
    refine .bind (Branch.descend_returns hsound hbranch hy hp)
      fun next t hpost => ?_
    obtain ⟨hnext, -, hnumber, hsound⟩ := hpost
    have hwy : two.number < branch.head.number := by
      rw [hy.number, hw.number]
      exact hlt
    refine .pure ⟨⟨hnext, by omega, by omega, hsound⟩, ?_⟩
    show next.head.number < branch.head.number
    omega
  · exact .pure ⟨hbranch, by omega, hsound⟩

omit [DecidableEq H] in
theorem IsBranch.extends_head (h : IsBranch tree a branch) (hx : tree.header a = some x)
    (hy : tree.header b = some y) (hnumber : branch.head.number = min y.number x.number)
    (ha : tree.Extends c a) (hb : tree.Extends c b) : tree.Extends c branch.head.hash := by
  obtain ⟨w, hw⟩ := h.head
  obtain ⟨z, hz⟩ := ha.base_known
  have hza := (ha.number_le hz hx).1
  have hzb := (hb.number_le hz hy).1
  rw [hw.number] at hnumber
  exact ha.of_number_le h.extends hz hw.known (by omega)

theorem descendBoth_returns {fromBranch toBranch : Branch H} (hsound : Sound tree cache)
    (hfrom : IsBranch tree a fromBranch) (hto : IsBranch tree b toBranch)
    (hlevel : fromBranch.head.number = toBranch.head.number)
    (happroaches : Approaches tree a b fromBranch.head toBranch.head) :
    Program.Returns (descendBoth tree fromBranch toBranch) cache fun branches t =>
      IsBranch tree a branches.1 ∧ IsBranch tree b branches.2 ∧
        branches.2.head.hash = branches.1.head.hash ∧
        IsMeet tree a b branches.2.head.hash ∧ Sound tree t := by
  refine .loop
    (I := fun branches t => IsBranch tree a branches.1 ∧ IsBranch tree b branches.2 ∧
      branches.1.head.number = branches.2.head.number ∧
      Approaches tree a b branches.1.head branches.2.head ∧ Sound tree t)
    (fun branches => branches.2.head.number) (fun branches t hinv => ?_) (Nat.lt_succ_self _)
    ⟨hfrom, hto, hlevel, happroaches, hsound⟩
  obtain ⟨fromBranch, toBranch⟩ := branches
  obtain ⟨hfrom, hto, hlevel, happroaches, hsound⟩ := hinv
  dsimp only at hfrom hto hlevel happroaches ⊢
  obtain ⟨x, hx⟩ := hfrom.head
  obtain ⟨y, hy⟩ := hto.head
  split_ifs with heq
  · refine .pure ⟨hfrom, hto, heq, ?_, hsound⟩
    refine happroaches.meet _ ?_
    rw [← heq]
    exact .self hy.known
  · have hnumbers : x.number = y.number := by rw [← hx.number, ← hy.number, hlevel]
    obtain ⟨p, hp, -⟩ := BlockTree.parent_of_ne hx.known hy.known (by omega) (Ne.symm heq)
    obtain ⟨q, hq, -⟩ := BlockTree.parent_of_ne hy.known hx.known (by omega) heq
    refine .bind (Branch.descend_returns hsound hto hy hq) fun nextTo t hpost => ?_
    obtain ⟨hnextTo, hhashTo, hnumberTo, hsound⟩ := hpost
    refine .bind (Branch.descend_returns hsound hfrom hx hp)
      fun nextFrom t hpost => ?_
    obtain ⟨hnextFrom, hhashFrom, hnumberFrom, hsound⟩ := hpost
    refine .pure ⟨⟨hnextFrom, hnextTo, ?_, ?_, hsound⟩, ?_⟩
    · show nextFrom.head.number = nextTo.head.number
      omega
    · refine ⟨hnextFrom.head, hnextTo.head, fun meet hmeet => happroaches.meet meet ?_⟩
      -- first the one block is replaced by its parent, then the other
      rw [hhashFrom, hhashTo] at hmeet
      have hone := BlockTree.extends_parent hx.known hp
      have htwo := BlockTree.extends_parent hy.known hq
      have hleft := hmeet.of_left hone fun c hcx hcy =>
        extends_parent_of_common hx.known hy.known (by omega) (Ne.symm heq) hcx (hcy.trans htwo)
      exact (hleft.symm.of_left htwo fun c hcy hcx =>
        extends_parent_of_common hy.known hx.known (by omega) heq hcy hcx).symm
    · show nextTo.head.number < toBranch.head.number
      omega

/-- The route between two known blocks is found, whatever the cache holds. -/
theorem treeRoute_returns (hsound : Sound tree cache) (hx : tree.header a = some x)
    (hy : tree.header b = some y) :
    Program.Returns (treeRoute tree a b) cache fun route t =>
      IsRoute tree a b route ∧ Sound tree t := by
  refine .bind (headerMetadata_returns hsound hx) fun fromHeader t hpost => ?_
  obtain ⟨rfl, hfrom, hsound⟩ := hpost
  refine .bind (headerMetadata_returns hsound hy) fun toHeader t hpost => ?_
  obtain ⟨rfl, hto, hsound⟩ := hpost
  refine .bind (Branch.descendTo_returns hsound ⟨y, hto⟩ ⟨x, hfrom⟩)
    fun toBranch t hpost => ?_
  obtain ⟨htoBranch, htoNumber, hsound⟩ := hpost
  refine .bind (Branch.descendTo_returns hsound ⟨x, hfrom⟩ htoBranch.head)
    fun fromBranch t hpost => ?_
  obtain ⟨hfromBranch, hfromNumber, hsound⟩ := hpost
  have happroaches : Approaches tree fromHeader.hash toHeader.hash fromBranch.head
      toBranch.head := by
    refine ⟨hfromBranch.head, htoBranch.head, fun meet hmeet => ?_⟩
    obtain ⟨z, hz⟩ := htoBranch.head
    rw [hfrom.number, hto.number] at htoNumber
    rw [hfrom.number, hz.number] at hfromNumber
    have hleft := hmeet.of_left hfromBranch.extends fun c hone htwo =>
      hfromBranch.extends_head hx hz.known hfromNumber hone htwo
    refine (hleft.symm.of_left htoBranch.extends fun c htwo hone => ?_).symm
    exact htoBranch.extends_head hy hx htoNumber htwo hone
  refine .bind
    (descendBoth_returns hsound hfromBranch htoBranch (by omega) happroaches)
    fun branches t hpost => ?_
  obtain ⟨hfromBranch, htoBranch, heq, hmeet, hsound⟩ := hpost
  obtain ⟨z, hz⟩ := htoBranch.head
  refine .pure ⟨⟨?_, ?_, ?_, ?_⟩, hsound⟩
  · simpa using hmeet
  · simpa using ⟨z, hz.known, hz.number.symm⟩
  · simpa [heq] using hfromBranch.descent
  · simpa using htoBranch.descent

/-- To move from the branch of a known block to that of another one it is enough to leave the
retracted blocks and to add the enacted ones, whatever the cache holds. -/
theorem treeRoute_moves_branch (hsound : Sound tree cache) (hx : tree.header a = some x)
    (hy : tree.header b = some y) :
    Program.Returns (treeRoute tree a b) cache fun route t =>
      (∀ block, tree.Extends block b ↔
        (tree.Extends block a ∧ ¬ ∃ number, (block, number) ∈ route.retracted) ∨
          ∃ number, (block, number) ∈ route.enacted) ∧
      (∀ block number number', (block, number) ∈ route.retracted →
        (block, number') ∉ route.enacted) ∧ Sound tree t := by
  refine (treeRoute_returns hsound hx hy).mono fun route t hpost => ?_
  obtain ⟨hroute, hsound⟩ := hpost
  refine ⟨fun block => ?_, fun block number number' hretracted henacted => ?_, hsound⟩
  · rw [hroute.mem_retracted_iff, hroute.mem_enacted_iff]
    tauto
  · have hout := (hroute.mem_retracted_iff.mp ⟨number, hretracted⟩).2
    exact hout (hroute.mem_enacted_iff.mp ⟨number', henacted⟩).1

/-! ## Sequences of queries -/

inductive Query (H : Type) where
  | lowestCommonAncestor (idOne idTwo : H)
  | treeRoute (fromHash toHash : H)
  | evict (keep : H → Bool)

inductive Answer (H : Type) where
  | ancestor (hash : H) (number : Nat)
  | route (route : TreeRoute H)
  | evicted

def Query.run (tree : BlockTree H) : Query H → Client H (Answer H)
  | .lowestCommonAncestor idOne idTwo => do
    let (hash, number) ← Blockchain.lowestCommonAncestor tree idOne idTwo
    pure (.ancestor hash number)
  | .treeRoute fromHash toHash => do
    let route ← Blockchain.treeRoute tree fromHash toHash
    pure (.route route)
  | .evict keep => do
    modify fun cache => { cache with entries := cache.entries.filter fun entry => keep entry.1 }
    pure .evicted

def runQueries (tree : BlockTree H) : List (Query H) → Client H (List (Answer H))
  | [] => pure []
  | query :: queries => do
    let answer ← query.run tree
    let answers ← runQueries tree queries
    pure (answer :: answers)

def Query.IsKnown (tree : BlockTree H) : Query H → Prop
  | .lowestCommonAncestor a b => (tree.header a).isSome ∧ (tree.header b).isSome
  | .treeRoute a b => (tree.header a).isSome ∧ (tree.header b).isSome
  | .evict _ => True

instance (tree : BlockTree H) : ∀ query : Query H, Decidable (query.IsKnown tree)
  | .lowestCommonAncestor _ _ => inferInstanceAs (Decidable (_ ∧ _))
  | .treeRoute _ _ => inferInstanceAs (Decidable (_ ∧ _))
  | .evict _ => isTrue trivial

def Answers (tree : BlockTree H) : Query H → Answer H → Prop
  | .lowestCommonAncestor a b, .ancestor hash number =>
    IsMeet tree a b hash ∧ HasNumber tree hash number
  | .treeRoute a b, .route route => IsRoute tree a b route
  | .evict _, .evicted => True
  | _, _ => False

theorem Query.run_returns (hsound : Sound tree cache) (query : Query H)
    (hknown : query.IsKnown tree) :
    Program.Returns (query.run tree) cache fun answer t =>
      Answers tree query answer ∧ Sound tree t := by
  cases query with
  | lowestCommonAncestor a b =>
    obtain ⟨x, hx⟩ := Option.isSome_iff_exists.mp hknown.1
    obtain ⟨y, hy⟩ := Option.isSome_iff_exists.mp hknown.2
    refine .bind (lowestCommonAncestor_returns hsound hx hy)
      fun result t hpost => ?_
    obtain ⟨hmeet, hnumber, hsound⟩ := hpost
    exact .pure ⟨⟨hmeet, hnumber⟩, hsound⟩
  | treeRoute a b =>
    obtain ⟨x, hx⟩ := Option.isSome_iff_exists.mp hknown.1
    obtain ⟨y, hy⟩ := Option.isSome_iff_exists.mp hknown.2
    refine .bind (treeRoute_returns hsound hx hy) fun route t hpost => ?_
    exact .pure hpost
  | evict keep =>
    refine ⟨.evicted, _, rfl, trivial, fun entry hentry => ?_⟩
    exact hsound entry (List.mem_filter.mp hentry).1

/-- Whatever links earlier queries have left and whatever was evicted since, every query returns
the lowest common ancestor with its number, or the route through it. -/
theorem runQueries_answers (tree : BlockTree H) (cache : HeaderMetadataCache H)
    (hcache : ∀ entry ∈ cache.entries, ∃ header, tree.header entry.1 = some header ∧
      entry.2 = .ofHeader header)
    (queries : List (Query H)) (hknown : ∀ query ∈ queries, query.IsKnown tree) :
    Program.Returns (runQueries tree queries) cache fun answers _ =>
      List.Forall₂ (Answers tree) queries answers := by
  have hsound : Sound tree cache := by
    intro entry hentry
    obtain ⟨header, hheader, hmetadata⟩ := hcache entry hentry
    rw [hmetadata]
    exact ⟨tree.hash_eq hheader, header, faithful_ofHeader hheader⟩
  clear hcache
  induction queries generalizing cache with
  | nil => exact .pure .nil
  | cons query queries ih =>
    refine .bind (query.run_returns hsound (hknown query List.mem_cons_self))
      fun answer t hpost => ?_
    obtain ⟨hanswer, hsound⟩ := hpost
    refine .bind
      (ih t (fun q hq => hknown q (List.mem_cons_of_mem _ hq)) hsound) fun answers t hrest => ?_
    exact .pure (.cons hanswer hrest)

end Specs

/-- Two blocks that part at block 1: the second query follows the link that the first one left. -/
theorem runQueries_answers_linked :
    ∃ answers, List.Forall₂ (Answers (HeaderTree.binary 3).toBlockTree)
      [.lowestCommonAncestor (some [true, true, true]) (some [false, true]),
        .lowestCommonAncestor (some [true, true, true]) (some [true]),
        .evict fun _ => false,
        .treeRoute (some [true, true, true]) (some [false, true])] answers := by
  obtain ⟨answers, -, -, h⟩ := runQueries_answers (HeaderTree.binary 3).toBlockTree ⟨5, []⟩ nofun
    [.lowestCommonAncestor (some [true, true, true]) (some [false, true]),
      .lowestCommonAncestor (some [true, true, true]) (some [true]),
      .evict fun _ => false,
      .treeRoute (some [true, true, true]) (some [false, true])] (by decide)
  exact ⟨answers, h⟩

theorem treeRoute_moves_branch_fork :
    Program.Returns (treeRoute (HeaderTree.binary 3).toBlockTree (some [true, true, true])
      (some [false, true])) ⟨5, []⟩ fun route _ => ∀ block number number',
        (block, number) ∈ route.retracted → (block, number') ∉ route.enacted :=
  (treeRoute_moves_branch (sound_empty 5) rfl rfl).mono fun _ _ h => h.2.1

end PolkadotSdk.Blockchain
