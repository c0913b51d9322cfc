import PolkadotSdk.Blockchain.HeaderTree
import PolkadotSdk.Grandpa.AuthoritySet
import PolkadotSdk.Lib.Program

/-! # Finality proofs

The finality of a block is proved by a justification for the last block of its authority set,
which is stored with that block, or by the best justification where the set is the current one.
The headers after the block, up to the justified one, go with it. Nothing compares the best
justification with the block.
-/

namespace PolkadotSdk.Grandpa

open Blockchain

variable {H J : Type}

structure FinalityProof (H J : Type) where
  block : H
  justification : J
  unknownHeaders : List (Header H)
  deriving DecidableEq, Repr

inductive FinalityProofError (H : Type) where
  | blockNotYetFinalized
  | blockNotInAuthoritySetChanges
  | expectBlockHashFromId (number : Nat)
  | expectHeader (hash : H)
  deriving DecidableEq, Repr

structure FinalityBackend (H J : Type) where
  finalizedNumber : Nat
  hash : Nat → Option H
  header : H → Option (Header H)
  justification : H → Option J
  bestJustification : Option J

def maxUnknownHeaders : Nat := 100000

namespace FinalityBackend

variable (backend : FinalityBackend H J)

def expectBlockHashFromId (number : Nat) : Except (FinalityProofError H) H :=
  match backend.hash number with
  | none => .error (.expectBlockHashFromId number)
  | some hash => .ok hash

def expectHeader (hash : H) : Except (FinalityProofError H) (Header H) :=
  match backend.header hash with
  | none => .error (.expectHeader hash)
  | some header => .ok header

def findJustification (target : J → Nat × H) (changes : AuthoritySetChanges)
    (search : BinarySearch Nat) (block : Nat) :
    Except (FinalityProofError H) (Option (J × Nat)) :=
  match changes.getSetId search block with
  | .latest =>
    .ok (backend.bestJustification.map fun justification =>
      (justification, (target justification).1))
  | .set _ lastBlockForSet => do
    let lastBlockForSetId ← backend.expectBlockHashFromId lastBlockForSet
    .ok ((backend.justification lastBlockForSetId).map (·, lastBlockForSet))
  | .unknown => .error .blockNotInAuthoritySetChanges

/-- The loop over the headers; `room` is how many more may be collected. -/
def collectHeaders (justBlock : Nat) :
    Nat → Nat → List (Header H) → Except (FinalityProofError H) (List (Header H))
  | 0, _, headers => .ok headers
  | room + 1, current, headers =>
    if justBlock < current then .ok headers
    else do
      let hash ← backend.expectBlockHashFromId current
      let header ← backend.expectHeader hash
      collectHeaders justBlock room (current + 1) (headers ++ [header])

def unknownHeaders (collectUnknownHeaders : Bool) (justBlock block : Nat) :
    Except (FinalityProofError H) (List (Header H)) :=
  if collectUnknownHeaders then backend.collectHeaders justBlock maxUnknownHeaders (block + 1) []
  else .ok []

def proveFinality (target : J → Nat × H) (changes : AuthoritySetChanges)
    (search : BinarySearch Nat) (block : Nat) (collectUnknownHeaders : Bool) :
    Except (FinalityProofError H) (Option (FinalityProof H J)) :=
  if backend.finalizedNumber < block then .error .blockNotYetFinalized
  else do
    match ← backend.findJustification target changes search block with
    | none => .ok none
    | some (justification, justBlock) =>
      let headers ← backend.unknownHeaders collectUnknownHeaders justBlock block
      let hash ← backend.expectBlockHashFromId justBlock
      .ok (some ⟨hash, justification, headers⟩)

end FinalityBackend

/-! ## What a proof covers -/

namespace FinalityBackend

variable {backend : FinalityBackend H J} {target : J → Nat × H} {changes : AuthoritySetChanges}
  {search : BinarySearch Nat} {block : Nat}

theorem expectBlockHashFromId_ok {number : Nat} {hash : H}
    (h : backend.expectBlockHashFromId number = .ok hash) : backend.hash number = some hash := by
  unfold expectBlockHashFromId at h
  split at h
  · cases h
  · cases h
    assumption

theorem expectHeader_ok {hash : H} {header : Header H}
    (h : backend.expectHeader hash = .ok header) : backend.header hash = some header := by
  unfold expectHeader at h
  split at h
  · cases h
  · cases h
    assumption

theorem collectHeaders_ok {justBlock room current : Nat} {headers result : List (Header H)}
    (h : backend.collectHeaders justBlock room current headers = .ok result) :
    result.map some = headers.map some ++
      (List.range' current (min (justBlock + 1 - current) room)).map fun n =>
        (backend.hash n).bind backend.header := by
  induction room generalizing current headers with
  | zero =>
    cases h
    simp
  | succ room ih =>
    rw [collectHeaders] at h
    split_ifs at h with hpast
    · cases h
      rw [show justBlock + 1 - current = 0 by omega]
      simp
    · obtain ⟨hash, hhash, h⟩ := except_bind_eq_ok h
      obtain ⟨header, hheader, h⟩ := except_bind_eq_ok h
      have hcount : min (justBlock + 1 - current) (room + 1) =
          min (justBlock + 1 - (current + 1)) room + 1 := by omega
      rw [ih h, hcount, List.range'_succ, List.map_append, List.map_cons, List.map_cons,
        expectBlockHashFromId_ok hhash, Option.bind_some, expectHeader_ok hheader]
      simp

theorem le_of_getSetId_eq_set (hsorted : changes.numbers.Pairwise (· < ·)) {setId lastBlock : Nat}
    (h : changes.getSetId search block = .set setId lastBlock) : block ≤ lastBlock := by
  unfold AuthoritySetChanges.getSetId at h
  split_ifs at h
  dsimp only at h
  cases hget : changes[search.position changes.numbers block]? with
  | none => rw [hget] at h; cases h
  | some entry =>
    rw [hget] at h
    dsimp only at h
    split_ifs at h
    cases h
    have hnumber : changes.numbers[search.position changes.numbers block]? = some entry.2 := by
      rw [AuthoritySetChanges.numbers, List.getElem?_map]
      exact congrArg (Option.map Prod.snd) hget
    refine (search.position_spec hsorted block).2 entry.2 (List.mem_of_getElem? (i := 0) ?_)
    rw [List.getElem?_drop, Nat.add_zero, hnumber]

theorem getSetId_eq_latest :
    changes.getSetId search block = .latest ↔ ∃ last ∈ changes.getLast?, last.2 < block := by
  constructor
  · intro h
    unfold AuthoritySetChanges.getSetId at h
    split_ifs at h with hlast
    · cases hcase : changes.getLast? with
      | none => simp [hcase] at hlast
      | some last => exact ⟨last, rfl, by simpa [hcase] using hlast⟩
    · dsimp only at h
      split at h
      · cases h
      · split_ifs at h
  · rintro ⟨last, hlast, hlt⟩
    simp [AuthoritySetChanges.getSetId, Option.mem_def.mp hlast, hlt]

/-- A justification that is stored with a block is for that block, so that only the best one can be
for an earlier one. -/
theorem findJustification_ok (hsorted : changes.numbers.Pairwise (· < ·))
    (hstored : ∀ n hash justification, backend.hash n = some hash →
      backend.justification hash = some justification → target justification = (n, hash))
    {justification : J} {justBlock : Nat}
    (h : backend.findJustification target changes search block =
      .ok (some (justification, justBlock))) :
    justBlock = (target justification).1 ∧
      (block ≤ justBlock ↔ ∀ last ∈ changes.getLast?, last.2 < block →
        ∀ best ∈ backend.bestJustification, block ≤ (target best).1) := by
  unfold findJustification at h
  split at h
  · rename_i hlatest
    obtain ⟨last, hlast, hlt⟩ := getSetId_eq_latest.mp hlatest
    obtain ⟨best, hbest, heq⟩ := Option.map_eq_some_iff.mp (Except.ok.inj h)
    cases heq
    refine ⟨rfl, fun hle _ _ _ other hother => ?_, fun h => h last hlast hlt _ hbest⟩
    rwa [Option.mem_unique hother hbest]
  · rename_i setId lastBlockForSet hset
    obtain ⟨hash, hhash, h⟩ := except_bind_eq_ok h
    obtain ⟨stored, hfound, heq⟩ := Option.map_eq_some_iff.mp (Except.ok.inj h)
    cases heq
    rw [hstored _ _ _ (expectBlockHashFromId_ok hhash) hfound]
    refine ⟨rfl, fun _ last hlast hlt => ?_, fun _ => le_of_getSetId_eq_set hsorted hset⟩
    cases hset.symm.trans (getSetId_eq_latest.mpr ⟨last, hlast, hlt⟩)
  · cases h

def elevenBlocks (bestJustification : Nat) : FinalityBackend Nat Nat where
  finalizedNumber := 10
  hash n := if n ≤ 10 then some n else none
  header hash := if hash ≤ 10 then some ⟨hash, hash, hash - 1⟩ else none
  justification hash := some hash
  bestJustification := some bestJustification

end FinalityBackend

end PolkadotSdk.Grandpa
