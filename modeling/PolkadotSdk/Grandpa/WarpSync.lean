import PolkadotSdk.Grandpa.WarpProof

/-! # Warp sync from an honest chain

On a finalized chain all of whose changes of the set have no delay, a verifier that starts at the
genesis block with the first set accepts every proof, and reaches the set that is in force after
the last header it was shown.
-/

namespace PolkadotSdk.Grandpa

variable {H A J : Type}

/-! ## The chain -/

def IsSetAt (ends : List Nat) (n setId : Nat) : Prop :=
  setId ≤ ends.length ∧ InForce ends n setId

theorem IsSetAt.unique {ends : List Nat} {n a b : Nat} (ha : IsSetAt ends n a)
    (hb : IsSetAt ends n b) : a = b := by
  have hlt : ∀ {a b}, IsSetAt ends n a → IsSetAt ends n b → ¬ a < b := by
    intro a b ha hb hab
    have hlength : a < ends.length := Nat.lt_of_lt_of_le hab hb.1
    have hget : ends[a]? = some ends[a] := List.getElem?_eq_getElem hlength
    have h₁ := hb.2.1 a hab _ hget
    have h₂ := ha.2.2 _ hget
    omega
  have h₁ := hlt ha hb
  have h₂ := hlt hb ha
  omega

structure IsBlock (backend : WarpBackend H A J) (n : Nat) (header : DigestHeader H A) : Prop where
  finalized : n ≤ backend.finalizedNumber
  hash : backend.hash n = some header.hash
  known : backend.header header.hash = some header
  number : header.number = n
  blockNumber : backend.blockNumber header.hash = some n

/-- The best justification, for a block that is not below the last change of the set. -/
structure IsBest (scheme : JustificationScheme H A J) (backend : WarpBackend H A J)
    (changes : AuthoritySetChanges) (sets : Nat → AuthorityList A) (justification : J) (n : Nat)
    (header : DigestHeader H A) : Prop where
  stored : backend.bestJustification = some justification
  block : IsBlock backend n header
  target : scheme.target justification = (n, header.hash)
  above : ∀ e ∈ changes.numbers, e ≤ n
  verifies : ∃ setId, IsSetAt changes.numbers n setId ∧
    scheme.verify justification setId (sets setId) = .ok ()

/-- `sets` are the authorities of the sets 0, 1 and so on. The last block of a set signals the next
one and is justified by the set. -/
structure HonestChain (scheme : JustificationScheme H A J) (backend : WarpBackend H A J)
    (changes : AuthoritySetChanges) (sets : Nat → AuthorityList A) : Prop where
  recorded : Recorded changes.numbers changes
  changed : ∀ n ∈ changes.numbers, 0 < n ∧ n ≤ backend.finalizedNumber
  block : ∀ n ≤ backend.finalizedNumber, ∃ header, IsBlock backend n header
  signals : ∀ i n header, changes.numbers[i]? = some n → IsBlock backend n header →
    findScheduledChange header = some ⟨sets (i + 1), 0⟩
  quiet : ∀ n header, n ∉ changes.numbers → IsBlock backend n header →
    findScheduledChange header = none
  justified : ∀ i n header, changes.numbers[i]? = some n → IsBlock backend n header →
    ∃ justification, backend.justification header.hash = some justification ∧
      scheme.target justification = (n, header.hash) ∧
      scheme.verify justification i (sets i) = .ok ()
  best : ∃ justification n header, IsBest scheme backend changes sets justification n header
  small : ∀ header justification, backend.header header.hash = some header →
    (backend.justification header.hash = some justification ∨
      backend.bestJustification = some justification) →
    scheme.encodedSize ⟨header, justification⟩ < maxWarpSyncProofSize - 50

/-- A hard fork that the verifier knows of leads to the set that is in force on the chain. -/
def Agrees (backend : WarpBackend H A J) (changes : AuthoritySetChanges)
    (sets : Nat → AuthorityList A) (hardForks : H × Nat → Option (Nat × AuthorityList A)) : Prop :=
  ∀ n header forked, IsBlock backend n header →
    hardForks (header.hash, header.number) = some forked →
    IsSetAt changes.numbers (n + 1) forked.1 ∧ forked.2 = sets forked.1

section Chain

variable {scheme : JustificationScheme H A J} {backend : WarpBackend H A J}
  {changes : AuthoritySetChanges} {sets : Nat → AuthorityList A}

variable {ends : List Nat}

theorem isSetAt_succ (hsorted : ends.Pairwise (· < ·)) {i n : Nat} (hn : ends[i]? = some n) :
    IsSetAt ends (n + 1) (i + 1) := by
  obtain ⟨hi, rfl⟩ := List.getElem?_eq_some_iff.mp hn
  refine ⟨hi, fun j hj e he => ?_, fun e he => ?_⟩
  · obtain ⟨hlt, rfl⟩ := List.getElem?_eq_some_iff.mp he
    rcases Nat.lt_succ_iff_lt_or_eq.mp hj with hlt' | rfl
    · exact Nat.lt_succ_of_lt (List.pairwise_iff_getElem.mp hsorted j i hlt hi hlt')
    · exact Nat.lt_succ_self _
  · obtain ⟨hlt, rfl⟩ := List.getElem?_eq_some_iff.mp he
    exact List.pairwise_iff_getElem.mp hsorted i (i + 1) hi hlt (Nat.lt_succ_self i)

theorem isSetAt_length {n : Nat} (h : ∀ e ∈ ends, e < n) : IsSetAt ends n ends.length :=
  ⟨Nat.le_refl _, fun _ _ e he => h e (List.mem_of_getElem? he), fun e he => by simp at he⟩

structure IsChange (scheme : JustificationScheme H A J) (backend : WarpBackend H A J)
    (changes : AuthoritySetChanges) (sets : Nat → AuthorityList A) (i : Nat)
    (fragment : WarpSyncFragment H A J) : Prop where
  block : ∃ n, changes.numbers[i]? = some n ∧ IsBlock backend n fragment.header ∧
    scheme.target fragment.justification = (n, fragment.header.hash)
  signals : findScheduledChange fragment.header = some ⟨sets (i + 1), 0⟩
  verifies : scheme.verify fragment.justification i (sets i) = .ok ()

def Covers (scheme : JustificationScheme H A J) (backend : WarpBackend H A J)
    (changes : AuthoritySetChanges) (sets : Nat → AuthorityList A) :
    Nat → Nat → List (WarpSyncFragment H A J) → Prop
  | i, m, [] => i = m
  | i, m, fragment :: rest =>
    IsChange scheme backend changes sets i fragment ∧
      Covers scheme backend changes sets (i + 1) m rest

section

variable {i m : Nat} {proofs : List (WarpSyncFragment H A J)}
  (h : Covers scheme backend changes sets i m proofs)
include h

theorem Covers.snoc {fragment : WarpSyncFragment H A J}
    (hfragment : IsChange scheme backend changes sets m fragment) :
    Covers scheme backend changes sets i (m + 1) (proofs ++ [fragment]) := by
  induction proofs generalizing i with
  | nil =>
    cases h
    exact ⟨hfragment, rfl⟩
  | cons first rest ih => exact ⟨h.1, ih h.2⟩

theorem Covers.length_eq : m = i + proofs.length := by
  induction proofs generalizing i with
  | nil => exact h.symm
  | cons first rest ih =>
    rw [ih h.2, List.length_cons]
    omega

theorem Covers.last_isChange {last : WarpSyncFragment H A J}
    (hlast : proofs.getLast? = some last) :
    ∃ j, m = j + 1 ∧ IsChange scheme backend changes sets j last := by
  induction proofs generalizing i with
  | nil => cases hlast
  | cons first rest ih =>
    cases rest with
    | nil =>
      cases hlast
      exact ⟨i, h.2.symm, h.1⟩
    | cons second rest => exact ih h.2 (by simpa using hlast)

theorem Covers.exists_last (hlt : i < m) :
    ∃ last j n, proofs.getLast? = some last ∧ m = j + 1 ∧ changes.numbers[j]? = some n ∧
      IsBlock backend n last.header := by
  cases hlast : proofs.getLast? with
  | none =>
    obtain rfl := List.getLast?_eq_none_iff.mp hlast
    cases h
    omega
  | some last =>
    obtain ⟨j, hj, hchange⟩ := h.last_isChange hlast
    obtain ⟨n, hn, hblock, -⟩ := hchange.block
    exact ⟨last, j, n, rfl, hj, hn, hblock⟩

end

/-! ## Generating -/

variable (hchain : HonestChain scheme backend changes sets)

include hchain

variable {i : Nat}

theorem HonestChain.change {entry : Nat × Nat} (hentry : changes[i]? = some entry) :
    ∃ fragment, backend.hash entry.2 = some fragment.header.hash ∧
      backend.header fragment.header.hash = some fragment.header ∧
      backend.justification fragment.header.hash = some fragment.justification ∧
      IsChange scheme backend changes sets i fragment := by
  have hnumber : changes.numbers[i]? = some entry.2 := by
    rw [AuthoritySetChanges.numbers, List.getElem?_map, hentry]
    rfl
  obtain ⟨-, hfinalized⟩ := hchain.changed entry.2 (List.mem_of_getElem? hnumber)
  obtain ⟨header, hblock⟩ := hchain.block entry.2 hfinalized
  obtain ⟨justification, hstored, htarget, hverify⟩ :=
    hchain.justified i entry.2 header hnumber hblock
  exact ⟨⟨header, justification⟩, hblock.hash, hblock.known, hstored,
    ⟨entry.2, hnumber, hblock, htarget⟩, hchain.signals i entry.2 header hnumber hblock, hverify⟩

theorem HonestChain.collectProofs_eq (start i : Nat) (proofs : List (WarpSyncFragment H A J))
    (encodedLen : Nat) (hcovers : Covers scheme backend changes sets start i proofs)
    (hi : i ≤ changes.length) (hempty : proofs = [] → encodedLen = 0) :
    ∃ collected m, collectProofs scheme backend (changes.drop i) proofs encodedLen =
        .ok collected ∧
      Covers scheme backend changes sets start m collected.proofs ∧ m ≤ changes.length ∧
      (collected.limitReached = false → m = changes.length) ∧
      (collected.limitReached = true → m < changes.length ∧ collected.proofs ≠ []) ∧
      (collected.proofs = [] → collected.encodedLen = 0) := by
  obtain ⟨left, hleft⟩ : ∃ left, changes.length = i + left := ⟨_, (Nat.add_sub_of_le hi).symm⟩
  induction left generalizing i proofs encodedLen with
  | zero =>
    rw [List.drop_eq_nil_of_le (by omega)]
    exact ⟨⟨proofs, encodedLen, false⟩, i, rfl, hcovers, hi, fun _ => by omega, nofun, hempty⟩
  | succ left ih =>
    have hlt : i < changes.length := by omega
    rw [List.drop_eq_getElem_cons hlt]
    obtain ⟨fragment, hhash, hheader, hstored, hchange⟩ :=
      hchain.change (List.getElem?_eq_getElem hlt)
    simp only [collectProofs, hhash, hheader, hchange.signals, hstored]
    split_ifs with hlimit
    · refine ⟨⟨proofs, encodedLen, true⟩, i, rfl, hcovers, hi, nofun,
        fun _ => ⟨hlt, fun hnil => ?_⟩, hempty⟩
      -- the first fragment always fits
      have hsmall := hchain.small fragment.header fragment.justification hheader (.inl hstored)
      have hzero := hempty hnil
      omega
    · exact ih (i + 1) _ _ (hcovers.snoc hchange) (by omega) (by simp) (by omega)

/-- Where the verifier resumes once it has reached a set. -/
def position (changes : AuthoritySetChanges) : Nat → Nat
  | 0 => 0
  | i + 1 => changes.numbers[i]?.getD 0

theorem HonestChain.iterFrom_position (search : BinarySearch Nat) (hi : i ≤ changes.length) :
    changes.iterFrom search (position changes i) = some (changes.drop i) := by
  have hsorted := hchain.recorded.sorted
  have hfirst : ∀ setId n, changes[0]? = some (setId, n) → setId = 0 := by
    intro setId n hget
    rw [hchain.recorded.getElem? 0] at hget
    obtain ⟨e, -, heq⟩ := Option.map_eq_some_iff.mp hget
    exact congrArg Prod.fst heq.symm
  cases i with
  | zero =>
    have hsearch : search.search changes.numbers (position changes 0) = .error 0 :=
      search.search_of_forall_lt hsorted fun n hn => (hchain.changed n hn).1
    simp only [AuthoritySetChanges.iterFrom, hsearch]
    split
    · rfl
    · rename_i setId n hget
      rw [if_neg fun hne => hne.2 (hfirst setId n hget)]
  | succ i =>
    have hlt : i < changes.numbers.length := by
      rw [AuthoritySetChanges.numbers, List.length_map]
      omega
    have hget := List.getElem?_eq_getElem hlt
    have hsearch : search.search changes.numbers (position changes (i + 1)) = .ok i := by
      rw [position, hget, Option.getD_some, search.search_of_getElem? hsorted hget]
    simp only [AuthoritySetChanges.iterFrom, hsearch]
    split
    · rfl
    · rw [if_neg fun hzero => Nat.succ_ne_zero i hzero.1]

/-- A proof from set `i` on: it stops at the limit, or ends with the last change or with the best
justification. -/
inductive Leads (scheme : JustificationScheme H A J) (backend : WarpBackend H A J)
    (changes : AuthoritySetChanges) (sets : Nat → AuthorityList A) (best i : Nat) :
    WarpSyncProof H A J → Prop
  | onward {proofs m} (progress : i < m) (bound : m ≤ changes.length)
      (covers : Covers scheme backend changes sets i m proofs)
      (ready : m = changes.length → ∀ e ∈ changes.numbers, e < best) :
      Leads scheme backend changes sets best i ⟨proofs, false⟩
  | change {proofs} (progress : i < changes.length)
      (covers : Covers scheme backend changes sets i changes.length proofs) :
      Leads scheme backend changes sets best i ⟨proofs, true⟩
  | justification {proofs fragment}
      (covers : Covers scheme backend changes sets i changes.length proofs)
      (block : IsBlock backend best fragment.header)
      (target : scheme.target fragment.justification = (best, fragment.header.hash))
      (above : ∀ e ∈ changes.numbers, e < best)
      (verifies : scheme.verify fragment.justification changes.length (sets changes.length) =
        .ok ()) :
      Leads scheme backend changes sets best i ⟨proofs ++ [fragment], true⟩

omit hchain in
theorem le_of_last (hsorted : ends.Pairwise (· < ·)) {j n e : Nat} (hlength : ends.length = j + 1)
    (hn : ends[j]? = some n) (he : e ∈ ends) : e ≤ n := by
  obtain ⟨hj, rfl⟩ := List.getElem?_eq_some_iff.mp hn
  obtain ⟨a, ha, rfl⟩ := List.getElem_of_mem he
  rcases Nat.lt_or_ge a j with hlt | hge
  · exact Nat.le_of_lt (List.pairwise_iff_getElem.mp hsorted a j ha hj hlt)
  · obtain rfl : a = j := by omega
    exact Nat.le_refl _

omit hchain in
theorem numbers_length : changes.numbers.length = changes.length := List.length_map ..

omit hchain in
theorem position_le {i best : Nat} (hbest : ∀ e ∈ changes.numbers, e ≤ best) :
    position changes i ≤ best := by
  cases i with
  | zero => exact Nat.zero_le _
  | succ i =>
    rw [position]
    cases hget : changes.numbers[i]? with
    | none => exact Nat.zero_le _
    | some e => exact hbest e (List.mem_of_getElem? hget)

theorem HonestChain.lt_best {i best : Nat} {proofs : List (WarpSyncFragment H A J)}
    (hcovers : Covers scheme backend changes sets i changes.length proofs)
    (hready : i = changes.length → ∀ e ∈ changes.numbers, e < best)
    (hlimit : justificationLimit scheme (position changes i) proofs ≤ best) :
    ∀ e ∈ changes.numbers, e < best := by
  cases hlast : proofs.getLast? with
  | none =>
    obtain rfl := List.getLast?_eq_none_iff.mp hlast
    exact hready hcovers
  | some last =>
    obtain ⟨j, hj, hchange⟩ := hcovers.last_isChange hlast
    obtain ⟨n, hn, -, htarget⟩ := hchange.block
    simp only [justificationLimit, hlast, htarget] at hlimit
    intro e he
    have hle := le_of_last hchain.recorded.sorted (numbers_length.trans hj) hn he
    omega

variable {justification : J} {best : Nat}

theorem HonestChain.addJustification_leads {header : DigestHeader H A}
    (hbest : IsBest scheme backend changes sets justification best header) {i m : Nat}
    {collected : Collected H A J}
    (hcovers : Covers scheme backend changes sets i m collected.proofs)
    (hfull : collected.limitReached = false → m = changes.length)
    (hlimit : collected.limitReached = true → m < changes.length ∧ collected.proofs ≠ [])
    (hempty : collected.proofs = [] → collected.encodedLen = 0)
    (hready : i = changes.length → ∀ e ∈ changes.numbers, e < best) :
    ∃ proof, addJustification scheme backend (position changes i) collected = .ok proof ∧
      Leads scheme backend changes sets best i proof := by
  have hprogress : collected.proofs ≠ [] → i < m := by
    intro hne
    have hlength := List.length_pos_iff.mpr hne
    have hm := hcovers.length_eq
    omega
  unfold addJustification
  cases hreached : collected.limitReached with
  | true =>
    obtain ⟨hlt, hne⟩ := hlimit hreached
    exact ⟨_, rfl, .onward (hprogress hne) (Nat.le_of_lt hlt) hcovers fun heq => by omega⟩
  | false =>
    obtain rfl := hfull hreached
    simp only [Bool.false_eq_true, if_false, hbest.stored, Option.filter, hbest.target]
    by_cases hle : justificationLimit scheme (position changes i) collected.proofs ≤ best
    · have habove := hchain.lt_best hcovers hready hle
      simp only [hle, decide_true, if_true, hbest.target, hbest.block.known]
      split_ifs with hsize
      · refine ⟨_, rfl, .onward (hprogress fun hnil => ?_) (Nat.le_refl _) hcovers
          fun _ => habove⟩
        have hsmall := hchain.small header justification hbest.block.known (.inr hbest.stored)
        have hzero := hempty hnil
        omega
      · obtain ⟨setId, hset, hverify⟩ := hbest.verifies
        obtain rfl : setId = changes.length :=
          (hset.unique (isSetAt_length habove)).trans numbers_length
        exact ⟨_, rfl, .justification hcovers hbest.block hbest.target habove hverify⟩
    · simp only [hle, decide_false, Bool.false_eq_true, if_false]
      refine ⟨_, rfl, .change (hprogress fun hnil => hle ?_) hcovers⟩
      rw [hnil]
      exact position_le hbest.above

structure Reached (backend : WarpBackend H A J) (changes : AuthoritySetChanges)
    (sets : Nat → AuthorityList A) (best i : Nat) (verifier : GrandpaVerifier H A) : Prop where
  setId : verifier.setId = i
  authorities : verifier.authorities = sets i
  context : ∃ header, IsBlock backend (position changes i) header ∧
    header.hash = verifier.nextProofContext
  bound : i ≤ changes.length
  ready : i = changes.length → ∀ e ∈ changes.numbers, e < best

variable [DecidableEq H]

variable {verifier : GrandpaVerifier H A}

theorem HonestChain.generate_leads (search : BinarySearch Nat) {header : DigestHeader H A}
    (hbest : IsBest scheme backend changes sets justification best header)
    (hreached : Reached backend changes sets best i verifier) :
    ∃ proof, generate scheme backend search changes verifier.nextProofContext = .ok proof ∧
      Leads scheme backend changes sets best i proof := by
  obtain ⟨start, hstart, hhash⟩ := hreached.context
  obtain ⟨collected, m, hcollect, hcovers, -, hfull, hlimit, hempty⟩ :=
    hchain.collectProofs_eq i i [] 0 rfl hreached.bound fun _ => rfl
  obtain ⟨proof, hproof, hleads⟩ :=
    hchain.addJustification_leads hbest hcovers hfull hlimit hempty hreached.ready
  refine ⟨proof, ?_, hleads⟩
  rw [← hhash, generate, hstart.blockNumber]
  simp only [Nat.not_lt.mpr hstart.finalized, if_false, hstart.hash, ne_eq, not_true_eq_false,
    hchain.iterFrom_position search hreached.bound, hcollect]
  exact hproof

/-! ## Verifying -/

variable {hardForks : H × Nat → Option (Nat × AuthorityList A)}
  (hforks : Agrees backend changes sets hardForks)

include hforks

theorem HonestChain.verifyFragment_change {fragment : WarpSyncFragment H A J}
    (h : IsChange scheme backend changes sets i fragment) (last : Bool) :
    verifyFragment scheme hardForks last fragment (i, sets i) = .ok (i + 1, sets (i + 1)) := by
  obtain ⟨n, hn, hblock, htarget⟩ := h.block
  unfold verifyFragment
  cases hfork : hardForks (fragment.header.hash, fragment.header.number) with
  | none => simp [h.verifies, htarget, h.signals]
  | some forked =>
    obtain ⟨hset, hsets⟩ := hforks n _ forked hblock hfork
    have hid := hset.unique (isSetAt_succ hchain.recorded.sorted hn)
    rw [hid] at hsets
    exact congrArg Except.ok (Prod.ext hid hsets)

theorem HonestChain.verifyFragments_append {i m : Nat} {proofs : List (WarpSyncFragment H A J)}
    (h : Covers scheme backend changes sets i m proofs) (isFinished : Bool)
    (rest : List (WarpSyncFragment H A J)) :
    verifyFragments scheme hardForks isFinished (proofs ++ rest) (i, sets i) =
      verifyFragments scheme hardForks isFinished rest (m, sets m) := by
  induction proofs generalizing i with
  | nil =>
    cases h
    rfl
  | cons first proofs ih =>
    rw [List.cons_append, verifyFragments, hchain.verifyFragment_change hforks h.1]
    exact ih h.2

theorem HonestChain.verifyFragment_best {fragment : WarpSyncFragment H A J}
    (hblock : IsBlock backend best fragment.header)
    (htarget : scheme.target fragment.justification = (best, fragment.header.hash))
    (habove : ∀ e ∈ changes.numbers, e < best)
    (hverify : scheme.verify fragment.justification changes.length (sets changes.length) = .ok ()) :
    verifyFragment scheme hardForks true fragment (changes.length, sets changes.length) =
      .ok (changes.length, sets changes.length) := by
  have hquiet : findScheduledChange fragment.header = none :=
    hchain.quiet best _ (fun hmem => Nat.lt_irrefl _ (habove best hmem)) hblock
  unfold verifyFragment
  cases hfork : hardForks (fragment.header.hash, fragment.header.number) with
  | none => simp [hverify, htarget, hquiet]
  | some forked =>
    obtain ⟨hset, hsets⟩ := hforks best _ forked hblock hfork
    have hafter : ∀ e ∈ changes.numbers, e < best + 1 :=
      fun e he => Nat.lt_succ_of_lt (habove e he)
    have hid := (hset.unique (isSetAt_length hafter)).trans numbers_length
    rw [hid] at hsets
    exact congrArg Except.ok (Prod.ext hid hsets)

omit hchain hforks in
theorem verify_eq (proof : WarpSyncProof H A J) {last : WarpSyncFragment H A J}
    (hlast : proof.proofs.getLast? = some last) {setId : Nat} {authorities : AuthorityList A}
    (hverify : verifyFragments scheme hardForks proof.isFinished proof.proofs
      (verifier.setId, verifier.authorities) = .ok (setId, authorities)) :
    verifier.verify scheme hardForks proof =
      .ok (⟨setId, authorities, last.header.hash, verifier.erasSynced + proof.proofs.length⟩,
        if proof.isFinished then
          .complete last.header (proof.proofs.map fun p => (p.header, p.justification))
        else .incomplete (proof.proofs.map fun p => (p.header, p.justification))) := by
  rw [GrandpaVerifier.verify, hlast]
  simp only [hverify]
  rfl

structure Synced (backend : WarpBackend H A J) (changes : AuthoritySetChanges)
    (sets : Nat → AuthorityList A) (verifier : GrandpaVerifier H A) (header : DigestHeader H A) :
    Prop where
  setId : verifier.setId = changes.length
  authorities : verifier.authorities = sets changes.length
  block : IsBlock backend header.number header
  past : ∀ e ∈ changes.numbers, e ≤ header.number

/-- Each round goes on to a later set or is the last one. -/
theorem HonestChain.warpSync_synced (search : BinarySearch Nat) {header : DigestHeader H A}
    (hbest : IsBest scheme backend changes sets justification best header) (rounds : Nat)
    (hreached : Reached backend changes sets best i verifier)
    (hrounds : changes.length - i < rounds) :
    ∃ final header, warpSync scheme hardForks backend search changes rounds verifier =
      .ok (final, header) ∧ Synced backend changes sets final header := by
  induction rounds generalizing i verifier with
  | zero => omega
  | succ rounds ih =>
    obtain ⟨proof, hgenerate, hleads⟩ := hchain.generate_leads search hbest hreached
    have hcurrent : (verifier.setId, verifier.authorities) = (i, sets i) :=
      Prod.ext hreached.setId hreached.authorities
    rw [warpSync, hgenerate]
    cases hleads with
    | onward progress bound covers ready =>
      obtain ⟨last, j, n, hlast, rfl, hn, hblock⟩ := covers.exists_last progress
      have hverify := hchain.verifyFragments_append hforks covers false []
      rw [List.append_nil, verifyFragments, ← hcurrent] at hverify
      have hnext := verify_eq ⟨_, false⟩ hlast hverify
      simp only [bind, Except.bind, hnext, Bool.false_eq_true, if_false]
      have hposition : position changes (j + 1) = n := by
        rw [position, hn]
        rfl
      refine ih (i := j + 1) ⟨rfl, rfl, ⟨last.header, ?_, rfl⟩, bound, ready⟩ (by omega)
      rw [hposition]
      exact hblock
    | change progress covers =>
      obtain ⟨last, j, n, hlast, hlength, hn, hblock⟩ := covers.exists_last progress
      have hverify := hchain.verifyFragments_append hforks covers true []
      rw [List.append_nil, verifyFragments, ← hcurrent] at hverify
      have hnext := verify_eq ⟨_, true⟩ hlast hverify
      simp only [bind, Except.bind, hnext, if_true]
      have hnumber := hblock.number
      subst hnumber
      exact ⟨_, _, rfl, rfl, rfl, hblock, fun e he =>
        le_of_last hchain.recorded.sorted (numbers_length.trans hlength) hn he⟩
    | justification covers block target above verifies =>
      rename_i proofs fragment
      have hlast : (proofs ++ [fragment]).getLast? = some fragment := List.getLast?_concat ..
      have hverify := hchain.verifyFragments_append hforks covers true [fragment]
      rw [verifyFragments, ← hcurrent] at hverify
      have hfragment := hchain.verifyFragment_best hforks block target above verifies
      simp only [List.isEmpty_nil, Bool.and_self, hfragment] at hverify
      have hnext := verify_eq ⟨_, true⟩ hlast hverify
      simp only [bind, Except.bind, hnext, if_true]
      have hnumber := block.number
      subst hnumber
      exact ⟨_, _, rfl, rfl, rfl, block, fun e he => Nat.le_of_lt (above e he)⟩

end Chain

/-- From the genesis block on, every proof is accepted, and after at most one round more than there
are changes the verifier has the set that is in force after the last header. -/
theorem warpSync_reaches [DecidableEq H] (scheme : JustificationScheme H A J)
    (backend : WarpBackend H A J) (changes : AuthoritySetChanges) (sets : Nat → AuthorityList A)
    (hchain : HonestChain scheme backend changes sets)
    (hardForks : H × Nat → Option (Nat × AuthorityList A))
    (hforks : Agrees backend changes sets hardForks) (search : BinarySearch Nat)
    (genesis : DigestHeader H A) (hgenesis : IsBlock backend 0 genesis) :
    ∃ verifier header,
      warpSync scheme hardForks backend search changes (changes.length + 1)
        ⟨0, sets 0, genesis.hash, 0⟩ = .ok (verifier, header) ∧
      IsBlock backend header.number header ∧
      IsSetAt changes.numbers (header.number + 1) verifier.setId ∧
      verifier.authorities = sets verifier.setId ∧ verifier.setId = changes.length := by
  obtain ⟨justification, best, bestHeader, hbest⟩ := hchain.best
  have hstart : Reached backend changes sets best 0 ⟨0, sets 0, genesis.hash, 0⟩ := by
    refine ⟨rfl, rfl, ⟨genesis, hgenesis, rfl⟩, Nat.zero_le _, fun hzero e he => ?_⟩
    obtain rfl := List.length_eq_zero_iff.mp hzero.symm
    cases he
  obtain ⟨verifier, header, hsync, hsynced⟩ :=
    hchain.warpSync_synced hforks search hbest (changes.length + 1) hstart (by omega)
  refine ⟨verifier, header, hsync, hsynced.block, ?_, ?_, hsynced.setId⟩
  · rw [hsynced.setId, ← numbers_length]
    exact isSetAt_length fun e he => Nat.lt_succ_of_le (hsynced.past e he)
  · rw [hsynced.setId]
    exact hsynced.authorities

/-! ## A chain with two changes

The blocks are named by their numbers. Blocks 1 and 2 are the last ones of the sets 0 and 1. A
justification is its target with the set that signed it, and a proof has room for one fragment.
-/

def smallScheme : JustificationScheme Nat Nat (Nat × Nat) where
  target justification := (justification.1, justification.1)
  verify justification setId _ :=
    if justification.2 = setId then .ok () else .error "invalid signature"
  encodedSize _ := maxWarpSyncProofSize - 51

def smallHeader (n : Nat) : DigestHeader Nat Nat where
  hash := n
  number := n
  parentHash := n - 1
  digest := if n = 1 ∨ n = 2 then [.scheduledChange ⟨[(n, 1)], 0⟩] else []

def smallBackend : WarpBackend Nat Nat (Nat × Nat) where
  blockNumber n := if n ≤ 3 then some n else none
  finalizedNumber := 3
  hash n := if n ≤ 3 then some n else none
  header n := if n ≤ 3 then some (smallHeader n) else none
  justification n := if n = 1 ∨ n = 2 then some (n, n - 1) else none
  bestJustification := some (3, 2)

theorem isBlock_small {n : Nat} (hn : n ≤ 3) : IsBlock smallBackend n (smallHeader n) :=
  ⟨hn, if_pos hn, if_pos hn, rfl, if_pos hn⟩

theorem IsBlock.eq_small {n : Nat} {header : DigestHeader Nat Nat}
    (h : IsBlock smallBackend n header) : n ≤ 3 ∧ header = smallHeader n := by
  have hn : n ≤ 3 := h.finalized
  have hhash := h.hash.symm.trans (if_pos hn)
  have hknown := h.known
  rw [Option.some.inj hhash] at hknown
  exact ⟨hn, (Option.some.inj (hknown.symm.trans (if_pos hn)))⟩

theorem honestChain_small :
    HonestChain smallScheme smallBackend [(0, 1), (1, 2)] fun i => [(i, 1)] where
  recorded := ⟨rfl, rfl, by decide⟩
  changed := by decide
  block n hn := ⟨smallHeader n, isBlock_small hn⟩
  signals i n header hi hblock := by
    obtain ⟨hn, rfl⟩ := hblock.eq_small
    match i with
    | 0 => cases hi; rfl
    | 1 => cases hi; rfl
    | i + 2 => cases hi
  quiet n header hn hblock := by
    obtain ⟨hle, rfl⟩ := hblock.eq_small
    have hne : ¬ (n = 1 ∨ n = 2) := by simpa [AuthoritySetChanges.numbers] using hn
    simp [findScheduledChange, smallHeader, hne]
  justified i n header hi hblock := by
    obtain ⟨hn, rfl⟩ := hblock.eq_small
    match i with
    | 0 => cases hi; exact ⟨(1, 0), rfl, rfl, rfl⟩
    | 1 => cases hi; exact ⟨(2, 1), rfl, rfl, rfl⟩
    | i + 2 => cases hi
  best := ⟨(3, 2), 3, smallHeader 3, rfl, isBlock_small (Nat.le_refl 3), rfl, by decide, 2,
    ⟨by decide, by decide⟩, rfl⟩
  small _ _ _ _ := show maxWarpSyncProofSize - 51 < maxWarpSyncProofSize - 50 from by decide

theorem warpSync_reaches_small :
    ∃ verifier header,
      warpSync smallScheme (fun _ => none) smallBackend (.scan _) [(0, 1), (1, 2)] 3
        ⟨0, [(0, 1)], 0, 0⟩ = .ok (verifier, header) ∧
      IsBlock smallBackend header.number header ∧
      IsSetAt [1, 2] (header.number + 1) verifier.setId ∧
      verifier.authorities = [(verifier.setId, 1)] ∧ verifier.setId = 2 :=
  warpSync_reaches smallScheme smallBackend [(0, 1), (1, 2)] (fun i => [(i, 1)])
    honestChain_small (fun _ => none) nofun (.scan _) (smallHeader 0) (isBlock_small (by decide))

end PolkadotSdk.Grandpa
