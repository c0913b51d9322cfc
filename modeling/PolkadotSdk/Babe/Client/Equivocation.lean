import Mathlib
import PolkadotSdk.Babe.Client.Verifier

/-! # Reports of equivocations

Two headers of one author for one slot are an equivocation. The import finds it when the second
header comes, and hands both headers to the runtime. The runtime takes a seal off each of them
and checks it, but the verifier has taken off the seal before the import. So the evidence is
accepted only if the headers were sealed twice.
-/

namespace PolkadotSdk.Babe.Client

open Epochs

variable {H Id Rand Vrf Sig E : Type}

/-! ## The check of the runtime -/

def verifySealSignature (crypto : Crypto H Id Rand Vrf Sig) (hash : Header H Id Rand Vrf Sig → H)
    (header : Header H Id Rand Vrf Sig) (offender : Id) : Bool :=
  match header.digest.getLast?.bind DigestItem.asBabeSeal with
  | none => false
  | some signature => crypto.verify signature (hash header.popped) offender

def checkEquivocationProof [LinearOrder H] (crypto : Crypto H Id Rand Vrf Sig)
    (hash : Header H Id Rand Vrf Sig → H) (proof : EquivocationProof H Id Rand Vrf Sig) : Bool :=
  if hash proof.firstHeader = hash proof.secondHeader then false
  else
    match proof.firstHeader.digest.findSome? DigestItem.asBabePreDigest,
      proof.secondHeader.digest.findSome? DigestItem.asBabePreDigest with
    | some first, some second =>
      if proof.slot ≠ first.slot ∨ first.slot ≠ second.slot then false
      else if first.authorityIndex ≠ second.authorityIndex then false
      else verifySealSignature crypto hash proof.firstHeader proof.offender &&
        verifySealSignature crypto hash proof.secondHeader proof.offender
    | _, _ => false

theorem checkEquivocationProof_eq [LinearOrder H] {crypto : Crypto H Id Rand Vrf Sig}
    {hash : Header H Id Rand Vrf Sig → H} {proof : EquivocationProof H Id Rand Vrf Sig}
    {first second : PreDigest Vrf} (hdiffer : hash proof.firstHeader ≠ hash proof.secondHeader)
    (hfirst : proof.firstHeader.digest.findSome? DigestItem.asBabePreDigest = some first)
    (hsecond : proof.secondHeader.digest.findSome? DigestItem.asBabePreDigest = some second)
    (hslot : proof.slot = first.slot) (hslots : first.slot = second.slot)
    (hindex : first.authorityIndex = second.authorityIndex) :
    checkEquivocationProof crypto hash proof =
      (verifySealSignature crypto hash proof.firstHeader proof.offender &&
        verifySealSignature crypto hash proof.secondHeader proof.offender) := by
  unfold checkEquivocationProof
  rw [if_neg hdiffer, hfirst, hsecond]
  dsimp only
  rw [if_neg (by simp [hslot, hslots]), if_neg (by simp [hindex])]

/-- The header ends in two seals, of which the inner one is by the author. -/
def Resealed (crypto : Crypto H Id Rand Vrf Sig) (hash : Header H Id Rand Vrf Sig → H) (author : Id)
    (header : Header H Id Rand Vrf Sig) : Prop :=
  ∃ items inner outer, header.digest = items ++ [.seal inner, .seal outer] ∧
    crypto.verify inner (hash { header with digest := items }) author = true

theorem verifySealSignature_popped {crypto : Crypto H Id Rand Vrf Sig}
    {hash : Header H Id Rand Vrf Sig → H} {header : Header H Id Rand Vrf Sig} {signature : Sig}
    (hdigest : header.digest = header.popped.digest ++ [.seal signature]) (author : Id) :
    verifySealSignature crypto hash header.popped author = true ↔
      Resealed crypto hash author header := by
  unfold verifySealSignature
  constructor
  · intro h
    cases hseal : header.popped.digest.getLast?.bind DigestItem.asBabeSeal with
    | none =>
      rw [hseal] at h
      cases h
    | some inner =>
      rw [hseal] at h
      obtain ⟨last, hlast, hinner⟩ := Option.bind_eq_some_iff.mp hseal
      obtain ⟨items, hitems⟩ := List.getLast?_eq_some_iff.mp hlast
      rw [asBabeSeal_eq_some hinner] at hitems
      refine ⟨items, inner, signature, by rw [hdigest, hitems]; simp, ?_⟩
      have hpopped : header.popped.popped = { header with digest := items } := by
        simp only [Header.popped] at hitems ⊢
        rw [hitems, List.dropLast_concat]
      rwa [← hpopped]
  · rintro ⟨items, inner, outer, hitems, hverify⟩
    have hpopped : header.popped = { header with digest := items ++ [.seal inner] } := by
      unfold Header.popped
      rw [hitems, List.dropLast_append_of_ne_nil (by simp)]
      rfl
    rw [hpopped]
    simpa [DigestItem.asBabeSeal, Header.popped] using hverify

/-! ## The headers on record -/

namespace SlotHeaders

variable {store : SlotHeaders H Id Rand Vrf Sig}

theorem record_headers (store : SlotHeaders H Id Rand Vrf Sig) (slotNow slot firstSavedSlot : ℕ)
    (header : Header H Id Rand Vrf Sig) (signer : Id) {s : ℕ}
    (hkept : slotNow ≤ s + maxSlotCapacity) :
    (store.record slotNow slot firstSavedSlot header signer).headers s =
      Function.update store.headers slot (store.headers slot ++ [(header, signer)]) s := by
  unfold record
  split
  · exact if_neg (by omega)
  · rfl

theorem record_start (store : SlotHeaders H Id Rand Vrf Sig) (slotNow slot firstSavedSlot : ℕ)
    (header : Header H Id Rand Vrf Sig) (signer : Id) (hfirst : firstSavedSlot ≤ slotNow) :
    ∃ first, (store.record slotNow slot firstSavedSlot header signer).start = some first ∧
      first ≤ slotNow := by
  unfold record
  split
  · exact ⟨_, rfl, Nat.sub_le _ _⟩
  · exact ⟨_, rfl, hfirst⟩

variable [DecidableEq Id]

structure OnRecord (store : SlotHeaders H Id Rand Vrf Sig) (slot : ℕ) (author : Id)
    (header : Header H Id Rand Vrf Sig) (latest : ℕ) : Prop where
  found : (store.headers slot).find? (fun entry => entry.2 = author) = some (header, author)
  start : ∃ first, store.start = some first ∧ first ≤ latest

variable {slot latest : ℕ} {author : Id} {header : Header H Id Rand Vrf Sig}
  {hash : Header H Id Rand Vrf Sig → H}

theorem OnRecord.mono (h : OnRecord store slot author header latest) {later : ℕ}
    (hle : latest ≤ later) : OnRecord store slot author header later := by
  obtain ⟨first, hstart, hfirst⟩ := h.start
  exact ⟨h.found, first, hstart, hfirst.trans hle⟩

variable [LinearOrder H]

variable {slotNow : ℕ}

theorem find?_checkEquivocation (store : SlotHeaders H Id Rand Vrf Sig)
    (hash : Header H Id Rand Vrf Sig → H) (otherSlot : ℕ) (other : Header H Id Rand Vrf Sig)
    (signer : Id) (hkept : slotNow ≤ slot + maxSlotCapacity) :
    ((store.checkEquivocation hash slotNow otherSlot other signer).2.headers slot).find?
        (fun entry => entry.2 = author) =
      ((store.headers slot).find? fun entry => entry.2 = author).or
        (if otherSlot = slot ∧ signer = author ∧ store.start.getD otherSlot ≤ slotNow then
          some (other, signer) else none) := by
  unfold checkEquivocation
  by_cases hnew : otherSlot = slot ∧ signer = author ∧ store.start.getD otherSlot ≤ slotNow
  · obtain ⟨rfl, rfl, hstart⟩ := hnew
    rw [if_neg (by omega), if_neg (by omega)]
    cases hfind : (store.headers otherSlot).find? fun entry => entry.2 = signer with
    | some entry =>
      dsimp only
      split_ifs <;> simp [hfind]
    | none =>
      dsimp only
      rw [record_headers _ _ _ _ _ _ hkept, Function.update_self, List.find?_append, hfind]
      simp [hstart]
  · rw [if_neg hnew, Option.or_none]
    split_ifs with hold hearly
    · rfl
    · rfl
    · split
      · split_ifs <;> rfl
      · rw [record_headers _ _ _ _ _ _ hkept]
        by_cases hslot : slot = otherSlot
        · subst hslot
          rw [Function.update_self, List.find?_append, List.find?_singleton,
            if_neg (by simpa using fun hsigner => hnew ⟨rfl, hsigner, not_lt.mp hearly⟩),
            Option.or_none]
        · rw [Function.update_of_ne hslot]

theorem start_checkEquivocation (store : SlotHeaders H Id Rand Vrf Sig)
    (hash : Header H Id Rand Vrf Sig → H) (slotNow slot : ℕ) (header : Header H Id Rand Vrf Sig)
    (signer : Id) :
    (store.checkEquivocation hash slotNow slot header signer).2.start = store.start ∨
      ∃ first, (store.checkEquivocation hash slotNow slot header signer).2.start = some first ∧
        first ≤ slotNow := by
  unfold checkEquivocation
  split_ifs with hold hearly
  · exact .inl rfl
  · exact .inl rfl
  · split
    · split_ifs <;> exact .inl rfl
    · exact .inr (record_start _ _ _ _ _ _ (not_lt.mp hearly))

theorem checkEquivocation_first (hash : Header H Id Rand Vrf Sig → H)
    (header : Header H Id Rand Vrf Sig) (hstart : store.start.getD slot ≤ slotNow)
    (hnow : slotNow ≤ slot + maxSlotCapacity)
    (hnone : (store.headers slot).find? (fun entry => entry.2 = author) = none) :
    (store.checkEquivocation hash slotNow slot header author).1 = none ∧
      OnRecord (store.checkEquivocation hash slotNow slot header author).2 slot author header
        slotNow := by
  have hcheck : store.checkEquivocation hash slotNow slot header author =
      (none, store.record slotNow slot (store.start.getD slot) header author) := by
    unfold checkEquivocation
    rw [if_neg (by omega), if_neg (by omega), hnone]
  have hfind := @find?_checkEquivocation _ _ _ _ _ _ slot author _ slotNow store hash slot header
    author hnow
  rw [hnone, if_pos ⟨rfl, rfl, hstart⟩] at hfind
  rw [hcheck] at hfind ⊢
  exact ⟨rfl, hfind, record_start _ _ _ _ _ _ hstart⟩

theorem OnRecord.checkEquivocation (h : OnRecord store slot author header latest)
    (hash : Header H Id Rand Vrf Sig → H) (hlatest : latest ≤ slot + maxSlotCapacity)
    (hnow : slotNow ≤ latest) (otherSlot : ℕ) (other : Header H Id Rand Vrf Sig) (signer : Id) :
    OnRecord (store.checkEquivocation hash slotNow otherSlot other signer).2 slot author header
      latest := by
  refine ⟨?_, ?_⟩
  · rw [find?_checkEquivocation _ _ _ _ _ (hnow.trans hlatest), h.found]
    rfl
  · rcases store.start_checkEquivocation hash slotNow otherSlot other signer with heq | hmoved
    · exact heq ▸ h.start
    · obtain ⟨first, hfirst, hle⟩ := hmoved
      exact ⟨first, hfirst, hle.trans hnow⟩

theorem OnRecord.second (h : OnRecord store slot author header latest) (hlatest : latest ≤ slotNow)
    (hnow : slotNow ≤ slot + maxSlotCapacity) {second : Header H Id Rand Vrf Sig}
    (hdiffer : hash header ≠ hash second) :
    store.checkEquivocation hash slotNow slot second author =
      (some ⟨slot, author, header, second⟩, store) := by
  obtain ⟨first, hstart, hfirst⟩ := h.start
  unfold SlotHeaders.checkEquivocation
  rw [if_neg (by omega), if_neg (by rw [hstart, Option.getD_some]; omega), h.found]
  dsimp only
  rw [if_pos (Ne.symm hdiffer)]

/-! ## Sequences of checks -/

structure Check (H Id Rand Vrf Sig : Type) where
  slotNow : ℕ
  slot : ℕ
  header : Header H Id Rand Vrf Sig
  signer : Id

def run (hash : Header H Id Rand Vrf Sig → H) (store : SlotHeaders H Id Rand Vrf Sig)
    (check : Check H Id Rand Vrf Sig) :
    Option (EquivocationProof H Id Rand Vrf Sig) × SlotHeaders H Id Rand Vrf Sig :=
  store.checkEquivocation hash check.slotNow check.slot check.header check.signer

def runAll (hash : Header H Id Rand Vrf Sig → H) (checks : List (Check H Id Rand Vrf Sig)) :
    SlotHeaders H Id Rand Vrf Sig :=
  checks.foldl (fun store check => (store.run hash check).2) ⟨fun _ => [], none⟩

def Timed (checks : List (Check H Id Rand Vrf Sig)) : Prop :=
  checks.Pairwise (·.slotNow ≤ ·.slotNow) ∧ ∀ check ∈ checks, check.slot ≤ check.slotNow

/-- The first check of an author's header for a slot. -/
def firstCheck (checks : List (Check H Id Rand Vrf Sig)) (slot : ℕ) (author : Id) :
    Option (Check H Id Rand Vrf Sig) :=
  checks.find? fun check => check.slot = slot ∧ check.signer = author

structure Remembers (checks : List (Check H Id Rand Vrf Sig)) (now : ℕ)
    (store : SlotHeaders H Id Rand Vrf Sig) : Prop where
  start : ∀ first ∈ store.start, first ≤ now
  found : ∀ slot author, now ≤ slot + maxSlotCapacity →
    (store.headers slot).find? (fun entry => entry.2 = author) =
      (firstCheck checks slot author).map fun check => (check.header, check.signer)

variable {checks : List (Check H Id Rand Vrf Sig)} {check : Check H Id Rand Vrf Sig}

omit [DecidableEq Id] [LinearOrder H] in
theorem Timed.append (h : Timed (checks ++ [check])) :
    Timed checks ∧ (∀ earlier ∈ checks, earlier.slotNow ≤ check.slotNow) ∧
      check.slot ≤ check.slotNow := by
  obtain ⟨hclock, hslots⟩ := h
  rw [List.pairwise_append] at hclock
  exact ⟨⟨hclock.1, fun earlier hearlier => hslots earlier (by simp [hearlier])⟩,
    fun earlier hearlier => hclock.2.2 earlier hearlier check (by simp), hslots check (by simp)⟩

omit [LinearOrder H] in
theorem Remembers.start_le {now : ℕ} (h : Remembers checks now store) (hslot : slot ≤ now) :
    store.start.getD slot ≤ now := by
  cases hstart : store.start with
  | none => exact hslot
  | some first => exact h.start first hstart

theorem remembers_runAll (hash : Header H Id Rand Vrf Sig → H) (htimed : Timed checks) {now : ℕ}
    (hnow : ∀ check ∈ checks, check.slotNow ≤ now) :
    Remembers checks now (runAll hash checks) := by
  induction checks using List.reverseRecOn generalizing now with
  | nil => exact ⟨by simp [runAll], fun _ _ _ => rfl⟩
  | append_singleton checks check ih =>
    obtain ⟨hearlier, hclock, hslot⟩ := htimed.append
    have h := ih hearlier hclock
    have hlast : check.slotNow ≤ now := hnow check (by simp)
    rw [runAll, List.foldl_append, List.foldl_cons, List.foldl_nil]
    change Remembers _ _ ((runAll hash checks).run hash check).2
    refine ⟨fun first hfirst => ?_, fun slot author hkept => ?_⟩
    · rcases (runAll hash checks).start_checkEquivocation hash check.slotNow check.slot check.header
        check.signer with heq | ⟨moved, hmoved, hle⟩
      · exact (h.start first (heq ▸ hfirst)).trans hlast
      · cases hmoved.symm.trans hfirst
        exact hle.trans hlast
    · rw [run, find?_checkEquivocation _ _ _ _ _ (hlast.trans hkept),
        h.found slot author (hlast.trans hkept)]
      simp only [firstCheck, List.find?_append, Option.map_or, h.start_le hslot, and_true]
      by_cases hsame : check.slot = slot ∧ check.signer = author
      · simp [hsame]
      · simp [hsame]

/-- Inside the window a check returns a proof exactly where the first header for the slot and the
signer has another hash. Outside it returns none and changes nothing. -/
theorem equivocation_found_in_window (hash : Header H Id Rand Vrf Sig → H)
    (htimed : Timed (checks ++ [check])) :
    (check.slotNow - check.slot ≤ maxSlotCapacity → ∀ proof,
      ((runAll hash checks).run hash check).1 = some proof ↔
        ∃ first, firstCheck checks check.slot check.signer = some first ∧
          hash first.header ≠ hash check.header ∧
          proof = ⟨check.slot, check.signer, first.header, check.header⟩) ∧
    (maxSlotCapacity < check.slotNow - check.slot →
      (runAll hash checks).run hash check = (none, runAll hash checks)) := by
  obtain ⟨hearlier, hclock, hslot⟩ := htimed.append
  have h := remembers_runAll hash hearlier hclock
  refine ⟨fun hwindow proof => ?_, fun hold => if_pos hold⟩
  rw [run, checkEquivocation, if_neg (by omega), if_neg (not_lt.mpr (h.start_le hslot)),
    h.found _ _ (by omega)]
  cases hfirst : firstCheck checks check.slot check.signer with
  | none => simp
  | some first =>
    dsimp only [Option.map_some]
    split_ifs with hdiffer
    · refine ⟨fun hproof => ⟨first, rfl, Ne.symm hdiffer, (Option.some.inj hproof).symm⟩, ?_⟩
      rintro ⟨_, hsame, -, rfl⟩
      cases hsame
      rfl
    · simp [not_not.mp hdiffer]

/-- The second header comes when the slot is about to leave the window. -/
theorem equivocation_found_at_the_end :
    let header (root : ℕ) : Header ℕ ℕ ℕ ℕ ℕ := ⟨0, 1, root, 0, []⟩
    ∃ proof, ((runAll Header.stateRoot [⟨5, 5, header 1, 7⟩]).run Header.stateRoot
      ⟨1005, 5, header 2, 7⟩).1 = some proof := by
  intro header
  have htimed : Timed ([⟨5, 5, header 1, 7⟩] ++ [⟨1005, 5, header 2, 7⟩]) := by
    simp [Timed]
  exact ⟨_, ((equivocation_found_in_window Header.stateRoot htimed).1 (by decide) _).mpr
    ⟨_, rfl, by decide, rfl⟩⟩

end SlotHeaders

variable [LinearOrder H]

/-! ## What an import does to the record -/

/-- A program that touches neither the record nor the reports. -/
def SparesRecord {ε α : Type} (program : Program ε (Node H Id Rand Vrf Sig) α) : Prop :=
  ∀ P : SlotHeaders H Id Rand Vrf Sig → List (EquivocationProof H Id Rand Vrf Sig) → Prop,
    Program.Preserves program fun node => P node.slotHeaders node.reports

variable (services : Services H Id Rand Vrf Sig E) (block : BlockImportParams H Id Rand Vrf Sig)

theorem importInner_sparesRecord : SparesRecord (importInner services block) := fun _ =>
  .bind (.modify fun _ h => h) fun _ => .ofExcept _

theorem importState_sparesRecord : SparesRecord (importState services block) := by
  intro P
  unfold importState
  refine .bind (importInner_sparesRecord services _ P) fun result => ?_
  split
  · refine .bind (.ofExcept _) fun _ => .bind (.ofExcept _) fun _ => ?_
    refine .bind (.ofOption _) fun _ => .bind (.modify fun _ h => h) fun _ => ?_
    exact .bind (.ofExcept _) fun _ => .pure _
  · exact .throw _

theorem pruneAndImport_sparesRecord (hash : H) (number : ℕ) (parentHash : H)
    (nextEpoch : PersistedEpoch (Babe.Epoch Id Rand)) :
    SparesRecord (pruneAndImport services hash number parentHash nextEpoch) := by
  intro P
  unfold pruneAndImport pruneFinalized
  refine .bind (.bind (.ofOutcome _) fun _ => .bind .get fun _ => ?_) fun _ => .bind .get fun _ => ?_
  · exact .bind (.ofOutcome _) fun _ => .modify fun _ h => h
  · exact .bind (.ofOutcome _) fun _ => .modify fun _ h => h

theorem importVerified_sparesRecord (preDigest : PreDigest Vrf) :
    SparesRecord (importVerified services block preDigest) := by
  intro P
  have himport : ∀ prepared launched,
      Program.Preserves (importPrepared services block prepared launched)
        fun node => P node.slotHeaders node.reports := fun _ _ =>
    .bind (.ofExcept _) fun _ => .onError (importInner_sparesRecord services _ P) fun _ =>
      .bind (.modify fun _ h => h) fun _ => .throw _
  unfold importVerified launchEpoch
  refine .bind (.ofOutcome _) fun prepared => ?_
  split
  · exact himport _ _
  · refine .bind (.bind .get fun _ => .bind (.ofOutcome _) fun _ => ?_) fun _ => himport _ _
    refine .bind (.onError (pruneAndImport_sparesRecord services _ _ _ _ P) fun _ => ?_) fun _ =>
      .bind .get fun _ => .pure _
    exact .bind (.modify fun _ h => h) fun _ => .throw _

theorem importChecked_sparesRecord : SparesRecord (importChecked services block) := by
  intro P
  unfold importChecked
  refine .bind (.ofExcept _) fun status => ?_
  split
  · exact importInner_sparesRecord services _ P
  · split
    · exact importState_sparesRecord services block P
    · split
      · exact .throw _
      · split
        · exact importInner_sparesRecord services _ P
        · exact importVerified_sparesRecord services block _ P

variable [DecidableEq Id] [HashBytes H]

/-- The checks look at the block: it is not skipped, its inherents are right, and its author is
found. -/
structure Examined (services : Services H Id Rand Vrf Sig E)
    (block : BlockImportParams H Id Rand Vrf Sig) (node : Node H Id Rand Vrf Sig) (slotNow : ℕ)
    (preDigest : PreDigest Vrf) (author : Id) : Prop where
  skip : shouldSkipVerification services.info block = false
  origin : block.origin ≠ .networkInitialSync
  slotNow : services.slotNow = .ok slotNow
  found : (findPreDigest block.header : Except (Error H Id E) _) = .ok preDigest
  inherents : checkInherents services block preDigest.slot = .ok ()
  author : blockAuthor services node.epochChanges block.header preDigest = some (.ok author)

section

variable {services : Services H Id Rand Vrf Sig E} {block : BlockImportParams H Id Rand Vrf Sig}
  {node : Node H Id Rand Vrf Sig} {slotNow : ℕ} {preDigest : PreDigest Vrf} {author : Id}

section

variable (h : Examined services block node slotNow preDigest author)
include h

theorem Examined.run :
    (checkInherentsAndEquivocations services block).run node =
      (Program.ignoreError (checkAndReportEquivocation services slotNow preDigest.slot block.header
        author block.origin) : Program (ConsensusError H Id E) _ _).run node := by
  unfold checkInherentsAndEquivocations
  rw [if_neg (by simp [h.skip]), Program.run_ofExcept_bind _ (Program.mapError_eq_ok.mpr h.slotNow),
    Program.run_ofExcept_bind _ (Program.mapError_eq_ok.mpr h.found),
    Program.run_ofExcept_bind _ h.inherents, Program.run_get_bind,
    Program.run_ofOutcome_bind _ h.author]

theorem Examined.quiet {store : SlotHeaders H Id Rand Vrf Sig}
    (hcheck : node.slotHeaders.checkEquivocation services.hash slotNow preDigest.slot block.header
      author = (none, store)) :
    ((importBlock services block).after node).slotHeaders = store := by
  have hrun : (checkInherentsAndEquivocations services block).run node =
      .ok ⟨⟩ { node with slotHeaders := store } := by
    rw [h.run, Program.run_ignoreError]
    unfold checkAndReportEquivocation
    rw [if_neg h.origin, Program.run_get_bind, Program.run_modify_bind, hcheck]
    rfl
  unfold importBlock
  rw [Program.after_bind_ok hrun]
  exact importChecked_sparesRecord services block (fun record _ => record = store) _ rfl

theorem Examined.reported
    {store : SlotHeaders H Id Rand Vrf Sig} {proof : EquivocationProof H Id Rand Vrf Sig}
    (hcheck : node.slotHeaders.checkEquivocation services.hash slotNow preDigest.slot block.header
      author = (some proof, store))
    {bestHash : H} {owner : List UInt8} (hbest : services.bestChain = .ok bestHash)
    (howner : keyOwnerProof services block.header.parentHash bestHash preDigest.slot
      proof.offender = .ok (some owner)) :
    ((importBlock services block).after node).reports = node.reports ++ [proof] := by
  have hrun : (checkInherentsAndEquivocations services block).run node =
      .ok ⟨⟩ { node with slotHeaders := store, reports := node.reports ++ [proof] } := by
    rw [h.run, Program.run_ignoreError]
    unfold checkAndReportEquivocation
    rw [if_neg h.origin, Program.run_get_bind, Program.run_modify_bind, hcheck]
    dsimp only
    unfold reportEquivocation
    rw [Program.run_ofExcept_bind _ (Program.mapError_eq_ok.mpr hbest),
      Program.run_ofExcept_bind _ howner]
    dsimp only
    rw [Program.run_modify_bind]
    -- whatever the runtime answers, the report has been handed over
    cases services.submitReport bestHash proof owner <;> rfl
  unfold importBlock
  rw [Program.after_bind_ok hrun]
  exact importChecked_sparesRecord services block
    (fun _ reports => reports = node.reports ++ [proof]) _ rfl

end

end

omit [DecidableEq Id] [HashBytes H] in
theorem reportEquivocation_sparesRecord (parentHash : H) (slot : ℕ)
    (proof : EquivocationProof H Id Rand Vrf Sig) (P : SlotHeaders H Id Rand Vrf Sig → Prop) :
    Program.Preserves (reportEquivocation services parentHash slot proof)
      fun node => P node.slotHeaders := by
  unfold reportEquivocation
  refine .bind (.ofExcept _) fun _ => .bind (.ofExcept _) fun owner => ?_
  split
  · exact .pure _
  · exact .bind (.modify fun _ h => h) fun _ => .bind (.ofExcept _) fun _ => .pure _

variable {author : Id}

/-- Imports of other blocks leave a header on record, as long as the clock is not past the slots
that are kept. -/
theorem importBlock_onRecord {slot latest : ℕ} {header : Header H Id Rand Vrf Sig}
    (hlatest : latest ≤ slot + maxSlotCapacity)
    (hnow : ∀ slotNow, services.slotNow = .ok slotNow → slotNow ≤ latest) :
    Program.Preserves (importBlock services block)
      fun node => node.slotHeaders.OnRecord slot author header latest := by
  refine .bind ?_ fun _ => importChecked_sparesRecord services block
    (fun record _ => record.OnRecord slot author header latest)
  unfold checkInherentsAndEquivocations
  split
  · exact .pure _
  · refine .ofExcept_bind fun slotNow hslotNow => ?_
    refine .bind (.ofExcept _) fun preDigest => .bind (.ofExcept _) fun _ => ?_
    refine .bind .get fun _ => .bind (.ofOutcome _) fun signer => .ignoreError ?_
    unfold checkAndReportEquivocation
    split
    · exact .pure _
    · refine .get_bind fun node hrecord => ?_
      rw [Program.after_modify_bind]
      have hchecked := hrecord.checkEquivocation services.hash hlatest
        (hnow slotNow (Program.mapError_eq_ok.mp hslotNow)) preDigest.slot block.header signer
      split
      · exact hchecked
      · exact reportEquivocation_sparesRecord services _ _ _
          (fun record => record.OnRecord slot author header latest) _ hchecked

def importAll (imports : List (Services H Id Rand Vrf Sig E × BlockImportParams H Id Rand Vrf Sig))
    (node : Node H Id Rand Vrf Sig) : Node H Id Rand Vrf Sig :=
  imports.foldl (fun node next => (importBlock next.1 next.2).after node) node

theorem importAll_onRecord
    (imports : List (Services H Id Rand Vrf Sig E × BlockImportParams H Id Rand Vrf Sig))
    {slot latest : ℕ} {header : Header H Id Rand Vrf Sig}
    (hlatest : latest ≤ slot + maxSlotCapacity)
    (hnow : ∀ next ∈ imports, ∀ slotNow, next.1.slotNow = .ok slotNow → slotNow ≤ latest)
    {node : Node H Id Rand Vrf Sig} (h : node.slotHeaders.OnRecord slot author header latest) :
    (importAll imports node).slotHeaders.OnRecord slot author header latest := by
  induction imports generalizing node with
  | nil => exact h
  | cons next imports ih =>
    exact ih (fun other hother => hnow other (List.mem_cons_of_mem _ hother))
      (importBlock_onRecord next.1 next.2 hlatest (hnow next List.mem_cons_self) node h)

/-! ## Evidence that the runtime accepts -/

/-- The block of a sealed header comes to the import while its slot is current. -/
structure Arrives (crypto : Crypto H Id Rand Vrf Sig) (hash : Header H Id Rand Vrf Sig → H)
    (header : Header H Id Rand Vrf Sig) (services : Services H Id Rand Vrf Sig E)
    (block : BlockImportParams H Id Rand Vrf Sig) (node : Node H Id Rand Vrf Sig)
    (slot authorityIndex : ℕ) (author : Id) (slotNow : ℕ) : Prop where
  presented : Presented crypto E header block
  hash : services.hash = hash
  examined : ∃ preDigest : PreDigest Vrf, preDigest.slot = slot ∧
    preDigest.authorityIndex = authorityIndex ∧
    Examined services block node slotNow preDigest author
  notBefore : slot ≤ slotNow
  inCapacity : slotNow ≤ slot + maxSlotCapacity

theorem Arrives.claim {crypto : Crypto H Id Rand Vrf Sig} {hash : Header H Id Rand Vrf Sig → H}
    {header : Header H Id Rand Vrf Sig} {services : Services H Id Rand Vrf Sig E}
    {block : BlockImportParams H Id Rand Vrf Sig}
    {node : Node H Id Rand Vrf Sig} {slot authorityIndex slotNow : ℕ}
    (h : Arrives crypto hash header services block node slot authorityIndex author slotNow) :
    ∃ preDigest : PreDigest Vrf, preDigest.slot = slot ∧
      preDigest.authorityIndex = authorityIndex ∧
      Examined services block node slotNow preDigest author ∧
      block.header.digest.findSome? DigestItem.asBabePreDigest = some preDigest ∧
      (verifySealSignature crypto hash block.header author = true ↔
        Resealed crypto hash author header) := by
  obtain ⟨hheader, found, signature, hsealed⟩ := h.presented.sealed
  obtain ⟨preDigest, hslot, hindex, hexamined⟩ := h.examined
  refine ⟨preDigest, hslot, hindex, hexamined, ?_⟩
  have honly := hsealed.only
  rw [← hheader, hexamined.found] at honly
  cases honly
  rw [hheader]
  exact ⟨hsealed.found, verifySealSignature_popped hsealed.digest author⟩

/-- The second block is reported together with the first if the record is kept in order: the clock
does not go back, the record does not start after it, and it has nothing of the author for the slot
yet. The runtime accepts the report exactly if both headers were sealed twice. -/
theorem equivocation_report_accepted (crypto : Crypto H Id Rand Vrf Sig)
    (hash : Header H Id Rand Vrf Sig → H) (node : Node H Id Rand Vrf Sig)
    {header₁ header₂ : Header H Id Rand Vrf Sig}
    {services₁ services₂ : Services H Id Rand Vrf Sig E}
    {block₁ block₂ : BlockImportParams H Id Rand Vrf Sig}
    (others : List (Services H Id Rand Vrf Sig E × BlockImportParams H Id Rand Vrf Sig))
    {slot authorityIndex slotNow₁ slotNow₂ : ℕ} {author : Id} {before : Node H Id Rand Vrf Sig}
    (hbefore : importAll others ((importBlock services₁ block₁).after node) = before)
    (h₁ : Arrives crypto hash header₁ services₁ block₁ node slot authorityIndex author slotNow₁)
    (h₂ : Arrives crypto hash header₂ services₂ block₂ before slot authorityIndex author slotNow₂)
    (hdiffer : hash block₁.header ≠ hash block₂.header)
    {bestHash : H} {owner : List UInt8} (hbest : services₂.bestChain = .ok bestHash)
    (howner : keyOwnerProof services₂ block₂.header.parentHash bestHash slot author =
      .ok (some owner))
    (hclock : slotNow₁ ≤ slotNow₂)
    (hothers : ∀ other ∈ others, ∀ slotNow, other.1.slotNow = .ok slotNow → slotNow ≤ slotNow₂)
    (hstart : ∀ start ∈ node.slotHeaders.start, start ≤ slotNow₁)
    (hfresh : (node.slotHeaders.headers slot).find? (fun entry => entry.2 = author) = none) :
    ∃ proof, ((importBlock services₂ block₂).after before).reports = before.reports ++ [proof] ∧
      proof = ⟨slot, author, block₁.header, block₂.header⟩ ∧
      (checkEquivocationProof crypto hash proof = true ↔
        Resealed crypto hash author header₁ ∧ Resealed crypto hash author header₂) := by
  obtain ⟨preDigest₁, rfl, rfl, hexamined₁, hfound₁, hseal₁⟩ := h₁.claim
  obtain ⟨preDigest₂, hslot, hindex, hexamined₂, hfound₂, hseal₂⟩ := h₂.claim
  have hfirst : node.slotHeaders.start.getD preDigest₁.slot ≤ slotNow₁ := by
    cases hcase : node.slotHeaders.start with
    | none => exact h₁.notBefore
    | some start => exact hstart start hcase
  -- the first block goes on record and stays there
  obtain ⟨hnone, hrecord⟩ := SlotHeaders.checkEquivocation_first services₁.hash block₁.header
    hfirst h₁.inCapacity hfresh
  have hrecorded := hexamined₁.quiet (Prod.ext hnone rfl)
  have hkept : before.slotHeaders.OnRecord preDigest₁.slot author block₁.header slotNow₂ := by
    rw [← hbefore]
    refine importAll_onRecord others h₂.inCapacity hothers ?_
    rw [hrecorded]
    exact hrecord.mono hclock
  -- so the second one is an equivocation
  have hproof := hkept.second le_rfl h₂.inCapacity hdiffer
  rw [← h₂.hash, ← hslot] at hproof
  rw [← hslot] at howner
  refine ⟨_, hexamined₂.reported hproof hbest howner, by rw [hslot], ?_⟩
  rw [checkEquivocationProof_eq hdiffer hfound₁ hfound₂ hslot hslot.symm hindex.symm,
    Bool.and_eq_true, hseal₁, hseal₂]

/-! ## Two first blocks of a chain -/

def plainCrypto : Crypto (List ℕ) ℕ ℕ ℕ (ℕ × List ℕ) where
  verify signature message author := signature = (author, message)
  vrfVerify _ _ _ _ _ := true
  score _ _ _ _ _ := some 0
  calculatePrimaryThreshold _ _ _ := 1
  blake2256 _ _ := 0

def plainHash (header : Header (List ℕ) ℕ ℕ ℕ (ℕ × List ℕ)) : List ℕ :=
  header.stateRoot ++ [header.digest.length]

def plainServices : Services (List ℕ) ℕ ℕ ℕ (ℕ × List ℕ) Unit where
  hash := plainHash
  config := ⟨10, (1, 4), [(7, 1)], 0, .primarySlots⟩
  info := ⟨[0], 0, [0], 0, none⟩
  status _ := .ok .unknown
  header _ := .ok none
  lowestCommonAncestor _ _ := .ok [0]
  loadBlockWeight _ := .ok none
  importInner _ := .ok .unknownParent
  currentEpoch _ := .error ()
  nextEpoch _ := .error ()
  insertEpochChanges _ := .error ()
  slotNow := .ok 5
  checkInherents _ _ _ := .ok ()
  bestChain := .ok [0]
  generateKeyOwnershipProof _ _ _ := .ok (some [])
  submitReport _ _ _ := .ok ()

def quietNode : Node (List ℕ) ℕ ℕ ℕ (ℕ × List ℕ) where
  epochChanges := ⟨ForkTree.new, ∅⟩
  slotHeaders := ⟨fun _ => [], none⟩
  reports := []
  handed := []

/-- The header of authority 7 for slot 5 with this state root, up to its seals. -/
def claimItems : List (DigestItem ℕ ℕ ℕ (ℕ × List ℕ)) := [.preRuntime (.primary ⟨0, 5, 0⟩)]

def sealedBlock (items : List (DigestItem ℕ ℕ ℕ (ℕ × List ℕ))) (root : ℕ) :
    BlockImportParams (List ℕ) ℕ ℕ ℕ (ℕ × List ℕ) where
  origin := .networkBroadcast
  header := ⟨[0], 1, [root], [], items ++ [.seal (7, [root, items.length])]⟩
  postDigests := []
  body := none
  stateAction := .execute
  intermediate := none
  auxiliary := []
  forkChoice := none
  postHash := none

def verifiedBlock (items : List (DigestItem ℕ ℕ ℕ (ℕ × List ℕ))) (root : ℕ) :
    BlockImportParams (List ℕ) ℕ ℕ ℕ (ℕ × List ℕ) :=
  { sealedBlock items root with
    header := ⟨[0], 1, [root], [], items⟩
    postDigests := [.seal (7, [root, items.length])]
    intermediate := some (some (.unimportedGenesis 5))
    postHash := some (plainHash (sealedBlock items root).header) }

def twiceSealed (root : ℕ) : List (DigestItem ℕ ℕ ℕ (ℕ × List ℕ)) :=
  claimItems ++ [.seal (7, [root, 1])]

theorem verifiedBlock_arrives (items : List (DigestItem ℕ ℕ ℕ (ℕ × List ℕ))) (root : ℕ)
    (hverify : verify plainCrypto plainServices quietNode.epochChanges 5 (sealedBlock items root) =
      some (.ok (verifiedBlock items root)))
    (hfound : (findPreDigest (verifiedBlock items root).header : Except (Error _ _ Unit) _) =
      .ok (.primary ⟨0, 5, 0⟩)) (node : Node (List ℕ) ℕ ℕ ℕ (ℕ × List ℕ)) :
    Arrives plainCrypto plainHash (sealedBlock items root).header plainServices
      (verifiedBlock items root) node 5 0 7 5 := by
  refine ⟨.received rfl rfl hverify, rfl, ?_, le_rfl, by decide⟩
  refine ⟨.primary ⟨0, 5, 0⟩, rfl, rfl, rfl, ?_, rfl, hfound, rfl, rfl⟩
  simp [verifiedBlock, sealedBlock]

theorem equivocation_report_accepted_resealed :
    ∃ proof,
      (importAll [(plainServices, verifiedBlock (twiceSealed 1) 1),
        (plainServices, verifiedBlock (twiceSealed 2) 2)] quietNode).reports = [proof] ∧
      proof = ⟨5, 7, (verifiedBlock (twiceSealed 1) 1).header,
        (verifiedBlock (twiceSealed 2) 2).header⟩ ∧
      checkEquivocationProof plainCrypto plainHash proof = true := by
  obtain ⟨proof, hreports, hproof, haccepted⟩ := equivocation_report_accepted plainCrypto plainHash
    quietNode [] rfl (verifiedBlock_arrives (twiceSealed 1) 1 rfl rfl _)
    (verifiedBlock_arrives (twiceSealed 2) 2 rfl rfl _) (by decide) rfl rfl le_rfl
    (fun _ h => nomatch h) (fun _ h => nomatch h) rfl
  exact ⟨proof, hreports, hproof, haccepted.mpr
    ⟨⟨claimItems, _, _, rfl, by decide⟩, ⟨claimItems, _, _, rfl, by decide⟩⟩⟩

/-- Headers that are sealed once, as they are authored: the import has no seal to hand on, and the
runtime refuses the report. -/
theorem report_without_seals_refused :
    (∀ root node, root = 1 ∨ root = 2 → Arrives plainCrypto plainHash
        (sealedBlock claimItems root).header plainServices (verifiedBlock claimItems root) node
        5 0 7 5) ∧
      plainHash (verifiedBlock claimItems 1).header ≠ plainHash (verifiedBlock claimItems 2).header ∧
      (importAll [(plainServices, verifiedBlock claimItems 1),
        (plainServices, verifiedBlock claimItems 2)] quietNode).reports.map
          (checkEquivocationProof plainCrypto plainHash) = [false] := by
  refine ⟨?_, by decide, by decide +kernel⟩
  rintro root node (rfl | rfl)
  · exact verifiedBlock_arrives claimItems 1 rfl rfl node
  · exact verifiedBlock_arrives claimItems 2 rfl rfl node

end PolkadotSdk.Babe.Client
