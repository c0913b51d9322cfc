import PolkadotSdk.Blockchain.HeaderTree

/-! # Justifications from commits

A justification carries the headers between its precommits and the lowest of them, so that the
precommits can be checked without a chain. `fromCommit` collects these headers from the client
and `verifyWithVoterSet` walks over them again. Both take the first precommit for a lowest block
as the base, and both can only end at it. `none` is a panic, or a loop that is out of fuel.
-/

namespace PolkadotSdk.Grandpa

open Blockchain

structure Precommit (H : Type) where
  targetHash : H
  targetNumber : Nat
  deriving DecidableEq, Repr

structure SignedPrecommit (H S : Type) where
  precommit : Precommit H
  signature : S

structure Commit (H S : Type) where
  targetHash : H
  targetNumber : Nat
  precommits : List (SignedPrecommit H S)

structure GrandpaJustification (H S : Type) where
  round : Nat
  commit : Commit H S
  votesAncestries : List (Header H)

inductive ClientError where
  | badJustification (message : String)
  | outdatedJustification
  deriving DecidableEq, Repr

variable {H S : Type} [DecidableEq H]

omit [DecidableEq H] in
def Commit.lowest (commit : Commit H S) : Option (Precommit H) :=
  (commit.precommits.map SignedPrecommit.precommit).argmin Precommit.targetNumber

/-! ## Collecting the headers -/

/-- The headers, and the hashes that keep them from being collected twice. -/
structure VotesAncestries (H : Type) where
  hashes : Finset H
  headers : List (Header H)

def VotesAncestries.add (votes : VotesAncestries H) (hash : H) (header : Header H) :
    VotesAncestries H :=
  if hash ∈ votes.hashes then votes
  else ⟨insert hash votes.hashes, votes.headers ++ [header]⟩

def invalidPrecommits : ClientError := .badJustification "invalid precommits for target commit"

def collectFrom (header : H → Option (Header H)) (base : Precommit H) :
    Nat → H → VotesAncestries H → Option (Except ClientError (VotesAncestries H))
  | 0, _, _ => none
  | fuel + 1, currentHash, votes =>
    if currentHash = base.targetHash then some (.ok votes)
    else
      match header currentHash with
      | none => some (.error invalidPrecommits)
      | some currentHeader =>
        if currentHeader.number ≤ base.targetNumber then some (.error invalidPrecommits)
        else
          collectFrom header base fuel currentHeader.parentHash
            (votes.add currentHash currentHeader)

def collectAll (header : H → Option (Header H)) (base : Precommit H) (fuel : Nat) :
    List (SignedPrecommit H S) → VotesAncestries H →
      Option (Except ClientError (VotesAncestries H))
  | [], votes => some (.ok votes)
  | signed :: rest, votes =>
    match collectFrom header base fuel signed.precommit.targetHash votes with
    | none => none
    | some (.error error) => some (.error error)
    | some (.ok votes) => collectAll header base fuel rest votes

def fromCommit (header : H → Option (Header H)) (fuel round : Nat) (commit : Commit H S) :
    Option (Except ClientError (GrandpaJustification H S)) :=
  match commit.lowest with
  | none => some (.error invalidPrecommits)
  | some base =>
    match collectAll header base fuel commit.precommits ⟨∅, []⟩ with
    | none => none
    | some (.error error) => some (.error error)
    | some (.ok votes) => some (.ok ⟨round, commit, votes.headers⟩)

/-! ## Walking over the headers -/

def ancestryHeader (ancestry : List (Header H)) (hash : H) : Option (Header H) :=
  ancestry.reverse.find? fun header => decide (header.hash = hash)

inductive GrandpaError where
  | notDescendent
  deriving DecidableEq, Repr

def ancestryLoop (chain : List (Header H)) (base : H) :
    Nat → H → List H → Option (Except GrandpaError (List H))
  | 0, _, _ => none
  | fuel + 1, currentHash, route =>
    if currentHash = base then some (.ok route)
    else
      match ancestryHeader chain currentHash with
      | none => some (.error .notDescendent)
      | some currentHeader =>
        ancestryLoop chain base fuel currentHeader.parentHash
          (route ++ [currentHeader.parentHash])

def ancestry (chain : List (Header H)) (fuel : Nat) (base block : H) :
    Option (Except GrandpaError (List H)) :=
  (ancestryLoop chain base fuel block []).map fun result => result.map List.dropLast

inductive SignatureResult where
  | valid
  | invalid
  | outdatedSet
  deriving DecidableEq, Repr

def visitPrecommits (chain : List (Header H))
    (checkMessageSignature : SignedPrecommit H S → SignatureResult) (fuel : Nat) (base : H) :
    List (SignedPrecommit H S) → Finset H → Option (Except ClientError (Finset H))
  | [], visited => some (.ok visited)
  | signed :: rest, visited =>
    match checkMessageSignature signed with
    | .invalid =>
      some (.error (.badJustification
        "invalid signature for precommit in grandpa justification"))
    | .outdatedSet => some (.error .outdatedJustification)
    | .valid =>
      if base = signed.precommit.targetHash then
        visitPrecommits chain checkMessageSignature fuel base rest visited
      else
        match ancestry chain fuel base signed.precommit.targetHash with
        | none => none
        | some (.error _) =>
          some (.error (.badJustification
            "invalid precommit ancestry proof in grandpa justification"))
        | some (.ok route) =>
          visitPrecommits chain checkMessageSignature fuel base rest
            (insert signed.precommit.targetHash visited ∪ route.toFinset)

/-- The signatures and the rules of a commit are checked elsewhere. -/
def verifyWithVoterSet (validateCommit : Commit H S → List (Header H) → Bool)
    (checkMessageSignature : Nat → SignedPrecommit H S → SignatureResult) (fuel : Nat)
    (justification : GrandpaJustification H S) : Option (Except ClientError Unit) :=
  let chain := justification.votesAncestries
  if validateCommit justification.commit chain then
    match justification.commit.lowest with
    | none => none
    | some base =>
      match visitPrecommits chain (checkMessageSignature justification.round) fuel
          base.targetHash justification.commit.precommits ∅ with
      | none => none
      | some (.error error) => some (.error error)
      | some (.ok visited) =>
        if visited ≠ (chain.map Header.hash).toFinset then
          some (.error (.badJustification
            "invalid precommit ancestries in grandpa justification with unused headers"))
        else some (.ok ())
  else some (.error (.badJustification "invalid commit in grandpa justification"))

/-! ## The blocks above the base -/

variable {tree : BlockTree H} {base block hash : H}

structure Between (tree : BlockTree H) (base block hash : H) : Prop where
  above : tree.Extends base hash
  ne : hash ≠ base
  upTo : tree.Extends hash block

omit [DecidableEq H] in
theorem not_between_self : ¬ Between tree base base hash := fun h => h.ne (h.upTo.antisymm h.above)

omit [DecidableEq H] in
theorem between_step {x : Header H} (hx : tree.header block = some x)
    (hparent : tree.Extends base x.parentHash) (hne : block ≠ base) :
    Between tree base block hash ↔ hash = block ∨ Between tree base x.parentHash hash := by
  constructor
  · intro h
    by_cases heq : hash = block
    · exact .inl heq
    · exact .inr ⟨h.above, h.ne, h.upTo.parent hx heq⟩
  · rintro (rfl | h)
    · exact ⟨.step hx hparent, hne, .refl hx⟩
    · exact ⟨h.above, h.ne, .step hx h.upTo⟩

omit [DecidableEq H] in
theorem number_lt_of_ne {x b : Header H} (hx : tree.header block = some x)
    (hparent : tree.Extends base x.parentHash) (hb : tree.header base = some b) :
    b.number < x.number ∧ ∀ p, tree.header x.parentHash = some p → p.number + 1 = x.number := by
  obtain ⟨p, hp⟩ := hparent.known
  have hle := hparent.number_le hb hp
  have hstep := tree.number_parent hx hp
  refine ⟨by omega, fun p' hp' => ?_⟩
  rw [hp] at hp'
  cases hp'
  exact hstep

/-! ## What is collected -/

structure CollectedVotes (tree : BlockTree H) (votes : VotesAncestries H) : Prop where
  headers : ∀ x ∈ votes.headers, tree.header x.hash = some x
  hashes : votes.hashes = (votes.headers.map Header.hash).toFinset

theorem collectedVotes_empty : CollectedVotes tree ⟨∅, []⟩ := ⟨by simp, rfl⟩

variable {votes : VotesAncestries H}

theorem CollectedVotes.add (h : CollectedVotes tree votes) {x : Header H}
    (hx : tree.header hash = some x) :
    CollectedVotes tree (votes.add hash x) ∧
      (votes.add hash x).hashes = insert hash votes.hashes := by
  unfold VotesAncestries.add
  split_ifs with hmem
  · exact ⟨h, (Finset.insert_eq_of_mem hmem).symm⟩
  · refine ⟨⟨?_, ?_⟩, rfl⟩
    · intro y hy
      rcases List.mem_append.mp hy with hy | hy
      · exact h.headers y hy
      · rw [List.mem_singleton.mp hy]
        exact tree.header_self hx
    · rw [List.map_append, List.toFinset_append, ← h.hashes, List.map_singleton,
        tree.hash_eq hx, Finset.union_comm]
      rfl

theorem CollectedVotes.ancestryHeader_eq (h : CollectedVotes tree votes)
    (hhash : hash ∈ votes.hashes) : ancestryHeader votes.headers hash = tree.header hash := by
  unfold ancestryHeader
  cases hfind : votes.headers.reverse.find? fun header => decide (header.hash = hash) with
  | none =>
    rw [h.hashes, List.mem_toFinset, List.mem_map] at hhash
    obtain ⟨x, hx, rfl⟩ := hhash
    have hno := List.find?_eq_none.mp hfind x (List.mem_reverse.mpr hx)
    simp at hno
  | some x =>
    have hx := List.mem_reverse.mp (List.mem_of_find?_eq_some hfind)
    have heq : x.hash = hash := by simpa using List.find?_some hfind
    rw [← heq, h.headers x hx]

variable {b : Header H} {fuel : Nat}

section

variable {base : Precommit H} (hb : tree.header base.targetHash = some b)
  (hnumber : b.number = base.targetNumber)
include hb hnumber

theorem collectFrom_spec (hblock : tree.Extends base.targetHash block)
    (hfuel : ∀ x, tree.header block = some x → x.number < fuel)
    (hvotes : CollectedVotes tree votes) :
    ∃ votes', collectFrom tree.header base fuel block votes = some (.ok votes') ∧
      CollectedVotes tree votes' ∧
      ∀ hash, hash ∈ votes'.hashes ↔
        hash ∈ votes.hashes ∨ Between tree base.targetHash block hash := by
  induction hblock generalizing fuel votes with
  | @refl x known =>
    obtain ⟨fuel, rfl⟩ : ∃ n, fuel = n + 1 := ⟨fuel - 1, by have := hfuel x known; omega⟩
    refine ⟨votes, by rw [collectFrom, if_pos rfl], hvotes, fun hash => ?_⟩
    simp [not_between_self]
  | @step block x known hparent ih =>
    have hlt := hfuel x known
    obtain ⟨fuel, rfl⟩ : ∃ n, fuel = n + 1 := ⟨fuel - 1, by omega⟩
    by_cases hne : block = base.targetHash
    · subst hne
      refine ⟨votes, by rw [collectFrom, if_pos rfl], hvotes, fun hash => ?_⟩
      simp [not_between_self]
    · obtain ⟨habove, hsmaller⟩ := number_lt_of_ne known hparent hb
      obtain ⟨hadd, hhashes⟩ := hvotes.add known
      have hfuel' : ∀ p, tree.header x.parentHash = some p → p.number < fuel := fun p hp => by
        have := hsmaller p hp
        omega
      obtain ⟨votes', hwalk, hcollected, hmem⟩ := ih hfuel' hadd
      refine ⟨votes', ?_, hcollected, fun hash => ?_⟩
      · rw [collectFrom, if_neg hne, known]
        exact (if_neg (by omega)).trans hwalk
      · rw [hmem, hhashes, Finset.mem_insert, between_step known hparent hne]
        tauto

theorem collectAll_spec {precommits : List (SignedPrecommit H S)}
    (habove : ∀ signed ∈ precommits, tree.Extends base.targetHash signed.precommit.targetHash)
    (hfuel : ∀ signed ∈ precommits, ∀ x,
      tree.header signed.precommit.targetHash = some x → x.number < fuel)
    (hvotes : CollectedVotes tree votes) :
    ∃ votes', collectAll tree.header base fuel precommits votes = some (.ok votes') ∧
      CollectedVotes tree votes' ∧
      ∀ hash, hash ∈ votes'.hashes ↔ hash ∈ votes.hashes ∨ ∃ signed ∈ precommits,
        Between tree base.targetHash signed.precommit.targetHash hash := by
  induction precommits generalizing votes with
  | nil => exact ⟨votes, rfl, hvotes, by simp⟩
  | cons signed rest ih =>
    rw [List.forall_mem_cons] at habove hfuel
    obtain ⟨votes₁, hwalk, hcollected, hfirst⟩ :=
      collectFrom_spec hb hnumber habove.1 hfuel.1 hvotes
    obtain ⟨votes', hrest, hcollected', hmem⟩ := ih habove.2 hfuel.2 hcollected
    refine ⟨votes', by rw [collectAll, hwalk]; exact hrest, hcollected', fun hash => ?_⟩
    rw [hmem, hfirst, List.exists_mem_cons_iff, or_assoc]

omit hnumber

theorem extends_of_collectFrom {votes' : VotesAncestries H}
    (h : collectFrom tree.header base fuel block votes = some (.ok votes')) :
    tree.Extends base.targetHash block := by
  induction fuel generalizing block votes with
  | zero => cases h
  | succ fuel ih =>
    rw [collectFrom] at h
    split at h
    · next heq => simpa [heq] using BlockTree.Extends.refl hb
    · split at h
      · cases h
      · next x hx =>
          split at h
          · cases h
          · exact .step hx (ih h)

theorem extends_of_collectAll {precommits : List (SignedPrecommit H S)}
    {votes' : VotesAncestries H}
    (h : collectAll tree.header base fuel precommits votes = some (.ok votes')) :
    ∀ signed ∈ precommits, tree.Extends base.targetHash signed.precommit.targetHash := by
  induction precommits generalizing votes with
  | nil => simp
  | cons signed rest ih =>
    rw [collectAll] at h
    split at h
    · cases h
    · cases h
    · next hwalk => exact List.forall_mem_cons.mpr ⟨extends_of_collectFrom hb hwalk, ih h⟩

end

/-! ## What is visited -/

variable {chain : List (Header H)}

theorem ancestryLoop_spec (hb : tree.header base = some b) (hblock : tree.Extends base block)
    (hchain : ∀ hash, Between tree base block hash → ancestryHeader chain hash = tree.header hash)
    (hfuel : ∀ x, tree.header block = some x → x.number < fuel) (route : List H) :
    ∃ path, ancestryLoop chain base fuel block route = some (.ok (route ++ path)) ∧
      (block = base → path = []) ∧
      (block ≠ base → ∃ between, path = between ++ [base] ∧
        ∀ hash, hash = block ∨ hash ∈ between ↔ Between tree base block hash) := by
  induction hblock generalizing fuel route with
  | @refl x known =>
    obtain ⟨fuel, rfl⟩ : ∃ n, fuel = n + 1 := ⟨fuel - 1, by have := hfuel x known; omega⟩
    exact ⟨[], by rw [ancestryLoop, if_pos rfl, List.append_nil], fun _ => rfl,
      fun hne => absurd rfl hne⟩
  | @step block x known hparent ih =>
    have hlt := hfuel x known
    obtain ⟨fuel, rfl⟩ : ∃ n, fuel = n + 1 := ⟨fuel - 1, by omega⟩
    by_cases hne : block = base
    · exact ⟨[], by rw [ancestryLoop, if_pos hne, List.append_nil], fun _ => rfl,
        fun hne' => absurd hne hne'⟩
    · obtain ⟨-, hsmaller⟩ := number_lt_of_ne known hparent hb
      have hstep : ∀ hash, Between tree base block hash ↔
          hash = block ∨ Between tree base x.parentHash hash :=
        fun _ => between_step known hparent hne
      have hfuel' : ∀ p, tree.header x.parentHash = some p → p.number < fuel := fun p hp => by
        have := hsmaller p hp
        omega
      obtain ⟨path, hwalk, hself, hbetween⟩ :=
        ih (fun hash h => hchain hash ((hstep hash).mpr (.inr h))) hfuel'
          (route ++ [x.parentHash])
      have hheader : ancestryHeader chain block = some x := by
        rw [hchain block ((hstep block).mpr (.inl rfl)), known]
      refine ⟨x.parentHash :: path, ?_, fun heq => absurd heq hne, fun _ => ?_⟩
      · rw [ancestryLoop, if_neg hne, hheader]
        simpa using hwalk
      · by_cases hend : x.parentHash = base
        · refine ⟨[], by rw [hself hend, hend]; rfl, fun hash => ?_⟩
          rw [hstep, hend]
          simp [not_between_self]
        · obtain ⟨between, hpath, hmem⟩ := hbetween hend
          refine ⟨x.parentHash :: between, by rw [hpath]; rfl, fun hash => ?_⟩
          rw [hstep, List.mem_cons, hmem]

theorem ancestry_spec (hb : tree.header base = some b) (hblock : tree.Extends base block)
    (hne : block ≠ base)
    (hchain : ∀ hash, Between tree base block hash → ancestryHeader chain hash = tree.header hash)
    (hfuel : ∀ x, tree.header block = some x → x.number < fuel) :
    ∃ route, ancestry chain fuel base block = some (.ok route) ∧
      ∀ hash, hash = block ∨ hash ∈ route ↔ Between tree base block hash := by
  obtain ⟨path, hwalk, -, hbetween⟩ := ancestryLoop_spec hb hblock hchain hfuel []
  obtain ⟨between, rfl, hmem⟩ := hbetween hne
  refine ⟨between, ?_, hmem⟩
  rw [ancestry, hwalk]
  simp [Except.map]

theorem visitPrecommits_spec (hb : tree.header base = some b)
    {checkMessageSignature : SignedPrecommit H S → SignatureResult}
    {precommits : List (SignedPrecommit H S)}
    (hvalid : ∀ signed ∈ precommits, checkMessageSignature signed = .valid)
    (habove : ∀ signed ∈ precommits, tree.Extends base signed.precommit.targetHash)
    (hchain : ∀ signed ∈ precommits, ∀ hash,
      Between tree base signed.precommit.targetHash hash →
        ancestryHeader chain hash = tree.header hash) (hfuel : ∀ signed ∈ precommits, ∀ x,
      tree.header signed.precommit.targetHash = some x → x.number < fuel) (visited : Finset H) :
    ∃ visited', visitPrecommits chain checkMessageSignature fuel base precommits visited =
        some (.ok visited') ∧
      ∀ hash, hash ∈ visited' ↔ hash ∈ visited ∨ ∃ signed ∈ precommits,
        Between tree base signed.precommit.targetHash hash := by
  induction precommits generalizing visited with
  | nil => exact ⟨visited, rfl, by simp⟩
  | cons signed rest ih =>
    rw [List.forall_mem_cons] at hvalid habove hchain hfuel
    have hrest := ih hvalid.2 habove.2 hchain.2 hfuel.2
    rw [visitPrecommits, hvalid.1]
    by_cases heq : base = signed.precommit.targetHash
    · obtain ⟨visited', hvisit, hmem⟩ := hrest visited
      refine ⟨visited', by simpa [heq] using hvisit, fun hash => ?_⟩
      rw [hmem, List.exists_mem_cons_iff, ← heq]
      simp [not_between_self]
    · obtain ⟨route, hroute, hbetween⟩ :=
        ancestry_spec hb habove.1 (Ne.symm heq) hchain.1 hfuel.1
      obtain ⟨visited', hvisit, hmem⟩ :=
        hrest (insert signed.precommit.targetHash visited ∪ route.toFinset)
      refine ⟨visited', by simpa [heq, hroute] using hvisit, fun hash => ?_⟩
      rw [hmem, List.exists_mem_cons_iff, ← hbetween]
      simp only [Finset.mem_union, Finset.mem_insert, List.mem_toFinset]
      tauto

/-- Exactly where the lowest precommit is on the way to all others the commit makes a justification,
and it passes the checks on its ancestries. -/
theorem fromCommit_verifies (tree : BlockTree H) (commit : Commit H S) {base : Precommit H}
    (hbase : commit.lowest = some base)
    (hnumbers : ∀ signed ∈ commit.precommits, ∃ x,
      tree.header signed.precommit.targetHash = some x ∧ x.number = signed.precommit.targetNumber)
    {fuel : Nat} (hfuel : ∀ signed ∈ commit.precommits, signed.precommit.targetNumber < fuel)
    (round : Nat) :
    (∃ justification, fromCommit tree.header fuel round commit = some (.ok justification) ∧
      (∀ signed ∈ commit.precommits, signed.precommit.targetHash ≠ base.targetHash →
        ∃ route, ancestry justification.votesAncestries fuel base.targetHash
          signed.precommit.targetHash = some (.ok route)) ∧
      ∀ validateCommit checkMessageSignature,
        validateCommit commit justification.votesAncestries = true →
        (∀ signed ∈ commit.precommits, checkMessageSignature round signed = .valid) →
        verifyWithVoterSet validateCommit checkMessageSignature fuel justification =
          some (.ok ())) ↔
    ∀ signed ∈ commit.precommits,
      tree.Extends base.targetHash signed.precommit.targetHash := by
  have hlowest := List.argmin_mem hbase
  obtain ⟨lowest, hmem, hprecommit⟩ := List.mem_map.mp hlowest
  obtain ⟨b, hb, hnumber⟩ := hnumbers lowest hmem
  rw [hprecommit] at hb hnumber
  have hfuel' : ∀ signed ∈ commit.precommits, ∀ x,
      tree.header signed.precommit.targetHash = some x → x.number < fuel := by
    intro signed hsigned x hx
    obtain ⟨y, hy, hynumber⟩ := hnumbers signed hsigned
    rw [hx] at hy
    cases hy
    exact hynumber ▸ hfuel signed hsigned
  refine ⟨fun ⟨justification, hfrom, _⟩ => ?_, fun habove => ?_⟩
  · simp only [fromCommit, hbase] at hfrom
    split at hfrom
    · cases hfrom
    · cases hfrom
    · next hcollect => exact extends_of_collectAll hb hcollect
  obtain ⟨votes, hcollect, hcollected, hhashes⟩ :=
    collectAll_spec hb hnumber habove hfuel' collectedVotes_empty
  have hchain : ∀ signed ∈ commit.precommits, ∀ hash,
      Between tree base.targetHash signed.precommit.targetHash hash →
        ancestryHeader votes.headers hash = tree.header hash := fun signed hsigned hash hbetween =>
    hcollected.ancestryHeader_eq ((hhashes hash).mpr (.inr ⟨signed, hsigned, hbetween⟩))
  refine ⟨⟨round, commit, votes.headers⟩, ?_, ?_, ?_⟩
  · rw [fromCommit, hbase]
    dsimp only
    rw [hcollect]
  · intro signed hsigned hne
    obtain ⟨route, hroute, -⟩ :=
      ancestry_spec hb (habove signed hsigned) hne (hchain signed hsigned) (hfuel' signed hsigned)
    exact ⟨route, hroute⟩
  · intro validateCommit checkMessageSignature hvalidate hvalid
    obtain ⟨visited, hvisit, hvisited⟩ := visitPrecommits_spec hb hvalid habove hchain hfuel' ∅
    have hsame : visited = (votes.headers.map Header.hash).toFinset := by
      rw [← hcollected.hashes]
      ext hash
      rw [hvisited, hhashes]
    simp only [verifyWithVoterSet, hvalidate, if_true, hbase, hvisit]
    exact if_neg (not_not.mpr hsame)

def rootCommit (targets : List (List Bool)) : Commit (Option (List Bool)) Unit :=
  ⟨some [], 0, targets.map fun target => ⟨⟨some target, target.length⟩, ()⟩⟩

/-- Precommits for a block and for two blocks below it. -/
theorem fromCommit_verifies_fork :
    ∃ justification, fromCommit (HeaderTree.binary 2).header 3 1
        (rootCommit [[true, true], [true], [false, true]]) = some (.ok justification) ∧
      verifyWithVoterSet (fun _ _ => true) (fun _ _ => .valid) 3 justification =
        some (.ok ()) := by
  have hlowest : (rootCommit [[true, true], [true], [false, true]]).lowest =
      some ⟨some [true], 1⟩ := rfl
  have hfuel : ∀ signed ∈ (rootCommit [[true, true], [true], [false, true]]).precommits,
      signed.precommit.targetNumber < 3 := by
    simp [rootCommit]
  obtain ⟨justification, hfrom, -, hverify⟩ :=
    (fromCommit_verifies (HeaderTree.binary 2).toBlockTree _ hlowest
      (by simp [rootCommit, HeaderTree.binary, HeaderTree.binaryHeader]) hfuel 1).mpr (by
        simp only [rootCommit, List.map_cons, List.map_nil, List.forall_mem_cons]
        exact ⟨HeaderTree.binary_extends [true] [true] (by decide),
          HeaderTree.binary_extends [] [true] (by decide),
          HeaderTree.binary_extends [false] [true] (by decide), by simp⟩)
  exact ⟨justification, hfrom, hverify _ _ rfl fun _ _ => rfl⟩

/-- Two precommits for the children of the commit target: the walk from the second one does not
end at the first. -/
theorem fromCommit_refuses_fork :
    let tree := HeaderTree.binary 1
    let commit := rootCommit [[false], [true]]
    (∀ signed ∈ commit.precommits,
      tree.Extends commit.targetHash signed.precommit.targetHash ∧
        ∃ x, tree.header signed.precommit.targetHash = some x ∧
          x.number = signed.precommit.targetNumber) ∧
      ∀ fuel, fromCommit tree.header (fuel + 1) 1 commit = some (.error invalidPrecommits) := by
  intro tree commit
  refine ⟨?_, fun fuel => rfl⟩
  simp only [commit, rootCommit, List.map_cons, List.map_nil, List.forall_mem_cons]
  exact ⟨⟨HeaderTree.binary_extends [false] [] (by decide), _, rfl, rfl⟩,
    ⟨HeaderTree.binary_extends [true] [] (by decide), _, rfl, rfl⟩, by simp⟩

end PolkadotSdk.Grandpa
