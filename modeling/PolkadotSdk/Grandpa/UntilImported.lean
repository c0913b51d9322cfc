import PolkadotSdk.Lib.Entries
import PolkadotSdk.Lib.Run

/-! # Messages that wait for blocks

Commits and catch-ups are withheld until the blocks that their votes are for are imported. A
message waits at each of its unknown blocks; these waits share it, and the last one to complete
hands it out. A wait that finds another number than the message states deletes the message for
all of them.
-/

namespace PolkadotSdk.Grandpa.UntilImported

variable {H : Type}

/-- A message with the targets of its votes, as numbers and hashes. -/
inductive CommunicationIn (H : Type) where
  | commit (precommits : List (Nat × H))
  | catchUp (prevotes precommits : List (Nat × H))
  deriving DecidableEq, Repr

def CommunicationIn.targets : CommunicationIn H → List (Nat × H)
  | .commit precommits => precommits
  | .catchUp prevotes precommits => prevotes ++ precommits

/-! ## New messages -/

inductive KnownOrUnknown where
  | known (n : Nat)
  | unknown (n : Nat)
  deriving DecidableEq, Repr

def KnownOrUnknown.number : KnownOrUnknown → Nat
  | .known n => n
  | .unknown n => n

inductive DiscardWaitOrReady (H : Type) where
  | discard
  | wait (items : List (H × Nat))
  | ready
  deriving DecidableEq, Repr

section NeedsWaiting

variable [DecidableEq H] (blockNumber : H → Option Nat)

/-- `none` is the early exit at a number that differs. -/
def queryKnown (checkedHashes : List (H × KnownOrUnknown)) (targetHash : H)
    (perceivedNumber : Nat) : Option (List (H × KnownOrUnknown)) :=
  match Entries.get checkedHashes targetHash with
  | some entry => if entry.number ≠ perceivedNumber then none else some checkedHashes
  | none =>
    match blockNumber targetHash with
    | some number =>
      if number ≠ perceivedNumber then none
      else some (checkedHashes ++ [(targetHash, .known number)])
    | none => some (checkedHashes ++ [(targetHash, .unknown perceivedNumber)])

def queryAll : List (Nat × H) → List (H × KnownOrUnknown) → Option (List (H × KnownOrUnknown))
  | [], checkedHashes => some checkedHashes
  | (targetNumber, targetHash) :: targets, checkedHashes =>
    match queryKnown blockNumber checkedHashes targetHash targetNumber with
    | none => none
    | some checkedHashes => queryAll targets checkedHashes

def unknownHashes (checkedHashes : List (H × KnownOrUnknown)) : List (H × Nat) :=
  checkedHashes.filterMap fun entry =>
    match entry.2 with
    | .unknown number => some (entry.1, number)
    | .known _ => none

def needsWaiting (input : CommunicationIn H) : DiscardWaitOrReady H :=
  match queryAll blockNumber input.targets [] with
  | none => .discard
  | some checkedHashes =>
    match unknownHashes checkedHashes with
    | [] => .ready
    | item :: items => .wait (item :: items)

end NeedsWaiting

/-! ## The queue -/

structure Inner (H : Type) where
  message : Option (CommunicationIn H)
  strongCount : Nat

structure BlockGlobalMessage where
  inner : Nat
  targetNumber : Nat
  deriving DecidableEq, Repr

/-- The waits at each hash and the messages that can be yielded. The other fields record what has
happened: the messages that arrived with the numbers known then, those yielded, the hashes the
client knows, and those reported. -/
structure Queue (H : Type) where
  pending : List (H × BlockGlobalMessage) := []
  inners : Nat → Inner H := fun _ => ⟨none, 0⟩
  ready : List (Nat × CommunicationIn H) := []
  arrivals : List (CommunicationIn H × (H → Option Nat)) := []
  yielded : List (Nat × CommunicationIn H) := []
  known : List H := []
  reported : List H := []

def waitCompleted (canonNumber : Nat) (wait : BlockGlobalMessage) (inners : Nat → Inner H) :
    (Nat → Inner H) × Option (CommunicationIn H) :=
  let inner := inners wait.inner
  if wait.targetNumber ≠ canonNumber then
    (Function.update inners wait.inner ⟨none, inner.strongCount - 1⟩, none)
  else if inner.strongCount = 1 then
    (Function.update inners wait.inner ⟨none, 0⟩, inner.message)
  else (Function.update inners wait.inner ⟨inner.message, inner.strongCount - 1⟩, none)

namespace Queue

def complete (canonNumber : Nat) (q : Queue H) (wait : BlockGlobalMessage) : Queue H :=
  let result := waitCompleted canonNumber wait q.inners
  { q with
    inners := result.1
    ready := q.ready ++ (result.2.map fun message => (wait.inner, message)).toList }

variable [DecidableEq H]

def report (number : H → Nat) (q : Queue H) (hash : H) : Queue H :=
  let messages := (q.pending.filter fun entry => entry.1 = hash).map Prod.snd
  let pending := q.pending.filter fun entry => entry.1 ≠ hash
  let q := messages.foldl (complete (number hash)) { q with pending, known := hash :: q.known }
  { q with reported := hash :: q.reported }

def incoming (q : Queue H) (input : CommunicationIn H) (blockNumber : H → Option Nat) : Queue H :=
  let id := q.arrivals.length
  let seen := { q with
    arrivals := q.arrivals ++ [(input, blockNumber)]
    known := (input.targets.map Prod.snd).filter (fun hash => (blockNumber hash).isSome) ++
      q.known }
  match needsWaiting blockNumber input with
  | .discard => seen
  | .ready => { seen with ready := q.ready ++ [(id, input)] }
  | .wait items =>
    { seen with
      pending := q.pending ++ items.map fun item => (item.1, ⟨id, item.2⟩)
      inners := Function.update q.inners id ⟨some input, items.length⟩ }

/-- What one `poll_next` does, step by step. `knownKeys` are the hashes that the check finds known.
-/
inductive Op (H : Type) where
  | incoming (input : CommunicationIn H) (blockNumber : H → Option Nat)
  | importNotification (hash : H)
  | checkPending (knownKeys : List H)
  | popReady

def step (number : H → Nat) (q : Queue H) : Op H → Option (Queue H)
  | .incoming input blockNumber => some (q.incoming input blockNumber)
  | .importNotification hash => some (q.report number hash)
  | .checkPending knownKeys => some (knownKeys.foldl (report number) q)
  | .popReady =>
    match q.ready with
    | [] => some q
    | message :: ready => some { q with ready, yielded := q.yielded ++ [message] }

omit [DecidableEq H] in
def Truthful (number : H → Nat) (q : Queue H) : Op H → Prop
  | .incoming _ blockNumber =>
    (∀ hash n, blockNumber hash = some n → n = number hash) ∧
      ∀ hash ∈ q.known, blockNumber hash ≠ none
  | _ => True

end Queue

/-! ## What a new message waits for -/

section Spec

variable {blockNumber : H → Option Nat}

structure Checked (blockNumber : H → Option Nat) (done : List (Nat × H))
    (checkedHashes : List (H × KnownOrUnknown)) : Prop where
  known : ∀ hash n, (hash, .known n) ∈ checkedHashes → blockNumber hash = some n
  unknown : ∀ hash n, (hash, .unknown n) ∈ checkedHashes → blockNumber hash = none
  vote : ∀ hash entry, (hash, entry) ∈ checkedHashes → (entry.number, hash) ∈ done
  covers : ∀ n hash, (n, hash) ∈ done → ∃ entry, (hash, entry) ∈ checkedHashes ∧ entry.number = n

theorem checked_nil : Checked blockNumber [] [] := ⟨nofun, nofun, nofun, nofun⟩

variable {checkedHashes : List (H × KnownOrUnknown)} {done : List (Nat × H)}

theorem Checked.push (h : Checked blockNumber done checkedHashes) (hash : H)
    (entry : KnownOrUnknown) (hknown : ∀ n, entry = .known n → blockNumber hash = some n)
    (hunknown : ∀ n, entry = .unknown n → blockNumber hash = none) :
    Checked blockNumber (done ++ [(entry.number, hash)]) (checkedHashes ++ [(hash, entry)]) := by
  constructor
  · intro x n hx
    rcases List.mem_append.mp hx with hx | hx
    · exact h.known x n hx
    · cases List.mem_singleton.mp hx
      exact hknown n rfl
  · intro x n hx
    rcases List.mem_append.mp hx with hx | hx
    · exact h.unknown x n hx
    · cases List.mem_singleton.mp hx
      exact hunknown n rfl
  · intro x e hx
    rcases List.mem_append.mp hx with hx | hx
    · exact List.mem_append_left _ (h.vote x e hx)
    · cases List.mem_singleton.mp hx
      exact List.mem_append_right _ List.mem_cons_self
  · intro n x hx
    rcases List.mem_append.mp hx with hx | hx
    · obtain ⟨e, hmem, he⟩ := h.covers n x hx
      exact ⟨e, List.mem_append_left _ hmem, he⟩
    · cases List.mem_singleton.mp hx
      exact ⟨entry, List.mem_append_right _ List.mem_cons_self, rfl⟩

variable [DecidableEq H]

theorem Checked.queryKnown (h : Checked blockNumber done checkedHashes) (hash : H) (n : Nat) :
    match queryKnown blockNumber checkedHashes hash n with
    | some checkedHashes' => Checked blockNumber (done ++ [(n, hash)]) checkedHashes'
    | none => ∃ m, m ≠ n ∧ (blockNumber hash = some m ∨ (m, hash) ∈ done) := by
  unfold UntilImported.queryKnown
  cases hget : Entries.get checkedHashes hash with
  | some entry =>
    have hmem := Entries.mem_of_get hget
    dsimp only
    by_cases hnumber : entry.number = n
    · rw [if_neg (not_not.mpr hnumber)]
      refine ⟨h.known, h.unknown, fun x e hx => List.mem_append_left _ (h.vote x e hx), ?_⟩
      intro m x hx
      rcases List.mem_append.mp hx with hx | hx
      · exact h.covers m x hx
      · cases List.mem_singleton.mp hx
        exact ⟨entry, hmem, hnumber⟩
    · rw [if_pos hnumber]
      exact ⟨entry.number, hnumber, .inr (h.vote hash entry hmem)⟩
  | none =>
    cases hblock : blockNumber hash with
    | some number =>
      dsimp only
      by_cases hnumber : number = n
      · rw [if_neg (not_not.mpr hnumber), ← hnumber]
        exact h.push hash (.known number) (fun m heq => by cases heq; exact hblock) nofun
      · rw [if_pos hnumber]
        exact ⟨number, hnumber, .inl rfl⟩
    | none => exact h.push hash (.unknown n) nofun fun m _ => hblock

theorem Checked.queryAll {done targets : List (Nat × H)}
    {checkedHashes : List (H × KnownOrUnknown)} (h : Checked blockNumber done checkedHashes) :
    match queryAll blockNumber targets checkedHashes with
    | some checkedHashes' => Checked blockNumber (done ++ targets) checkedHashes'
    | none => ∃ hash m n, (n, hash) ∈ targets ∧ m ≠ n ∧
        (blockNumber hash = some m ∨ (m, hash) ∈ done ++ targets) := by
  induction targets generalizing done checkedHashes with
  | nil => rwa [UntilImported.queryAll, List.append_nil]
  | cons target targets ih =>
    obtain ⟨n, hash⟩ := target
    rw [UntilImported.queryAll]
    have hknown := h.queryKnown hash n
    cases hquery : UntilImported.queryKnown blockNumber checkedHashes hash n with
    | none =>
      rw [hquery] at hknown
      obtain ⟨m, hne, hm⟩ := hknown
      exact ⟨hash, m, n, List.mem_cons_self, hne, hm.imp_right (List.mem_append_left _)⟩
    | some checkedHashes' =>
      rw [hquery] at hknown
      have hrest := ih hknown
      rw [List.append_assoc, List.singleton_append] at hrest
      dsimp only
      split at hrest
      · exact hrest
      · obtain ⟨hash', m, n', hmem, hne, hm⟩ := hrest
        exact ⟨hash', m, n', List.mem_cons_of_mem _ hmem, hne, hm⟩

omit [DecidableEq H] in
theorem mem_unknownHashes {hash : H} {n : Nat} :
    (hash, n) ∈ unknownHashes checkedHashes ↔ (hash, .unknown n) ∈ checkedHashes := by
  unfold unknownHashes
  rw [List.mem_filterMap]
  constructor
  · rintro ⟨⟨x, entry⟩, hmem, hsome⟩
    cases entry <;> simp at hsome
    obtain ⟨rfl, rfl⟩ := hsome
    exact hmem
  · exact fun hmem => ⟨(hash, .unknown n), hmem, rfl⟩

def Wrong (number : H → Nat) (input : CommunicationIn H) : Prop :=
  ∃ target ∈ input.targets, number target.2 ≠ target.1

/-- A message is discarded for a wrong vote, ready if its blocks are known, or waits. -/
theorem needsWaiting_spec {number : H → Nat}
    (htrue : ∀ hash n, blockNumber hash = some n → n = number hash) (input : CommunicationIn H) :
    match needsWaiting blockNumber input with
    | .discard => Wrong number input
    | .ready => ∀ target ∈ input.targets, blockNumber target.2 = some target.1
    | .wait items => items ≠ [] ∧
        (∀ item ∈ items, blockNumber item.1 = none ∧ (item.2, item.1) ∈ input.targets) ∧
        ∀ target ∈ input.targets,
          blockNumber target.2 = some target.1 ∨ (target.2, target.1) ∈ items := by
  have hall := @Checked.queryAll _ blockNumber _ [] input.targets [] checked_nil
  rw [List.nil_append] at hall
  unfold needsWaiting
  cases hquery : queryAll blockNumber input.targets [] with
  | none =>
    rw [hquery] at hall
    obtain ⟨hash, m, n, hmem, hne, hm⟩ := hall
    by_cases hn : number hash = n
    · rcases hm with hm | hm
      · exact absurd ((htrue hash m hm).trans hn) hne
      · exact ⟨(m, hash), hm, fun heq => hne (heq.symm.trans hn)⟩
    · exact ⟨(n, hash), hmem, hn⟩
  | some checkedHashes =>
    rw [hquery] at hall
    have hcovers : ∀ target ∈ input.targets, blockNumber target.2 = some target.1 ∨
        (target.2, target.1) ∈ unknownHashes checkedHashes := by
      intro target htarget
      obtain ⟨entry, hmem, hentry⟩ := hall.covers target.1 target.2 htarget
      cases entry with
      | known n => exact .inl (hentry ▸ hall.known _ _ hmem)
      | unknown n => exact .inr (mem_unknownHashes.mpr (hentry ▸ hmem))
    dsimp only
    cases hunknown : unknownHashes checkedHashes with
    | nil =>
      intro target htarget
      simpa [hunknown] using hcovers target htarget
    | cons item items =>
      refine ⟨List.cons_ne_nil _ _, fun x hx => ?_, fun target htarget => ?_⟩
      · have hmem := mem_unknownHashes.mp (hunknown ▸ hx)
        exact ⟨hall.unknown _ _ hmem, hall.vote _ _ hmem⟩
      · rw [← hunknown]
        exact hcovers target htarget

end Spec

/-! ## Outstanding waits -/

namespace Queue

variable {number : H → Nat} {items : List (H × BlockGlobalMessage)} {q : Queue H}

def out (q : Queue H) : List (Nat × CommunicationIn H) := q.ready ++ q.yielded

def Confirmed (number : H → Nat) (q : Queue H) (target : Nat × H) : Prop :=
  target.2 ∈ q.known ∧ number target.2 = target.1

/-- A message was handed out, or is deleted for a wrong vote, or waits for the others. -/
def Fate (number : H → Nat) (items : List (H × BlockGlobalMessage)) (q : Queue H) (id : Nat)
    (input : CommunicationIn H) : Prop :=
  id ∈ q.out.map Prod.fst ∨
    (Wrong number input ∧ (0 < (q.inners id).strongCount → (q.inners id).message = none)) ∨
    (0 < (q.inners id).strongCount ∧ (q.inners id).message = some input ∧
      ∀ target ∈ input.targets,
        q.Confirmed number target ∨ (target.2, ⟨id, target.1⟩) ∈ items)

variable {items' : List (H × BlockGlobalMessage)} {input : CommunicationIn H}

theorem Fate.mono {q' : Queue H} {id : Nat} (h : Fate number items q id input)
    (hinner : q'.inners id = q.inners id) (hout : ∀ message ∈ q.out, message ∈ q'.out)
    (hknown : ∀ hash ∈ q.known, hash ∈ q'.known)
    (hitems : ∀ item ∈ items, item.2.inner = id → item ∈ items') :
    Fate number items' q' id input := by
  rcases h with hmem | hwrong | ⟨hstrong, hmessage, htargets⟩
  · obtain ⟨message, hmem, heq⟩ := List.mem_map.mp hmem
    exact .inl (List.mem_map.mpr ⟨message, hout message hmem, heq⟩)
  · exact .inr (.inl (hinner ▸ hwrong))
  · exact .inr (.inr ⟨hinner ▸ hstrong, hinner ▸ hmessage, fun target htarget =>
      (htargets target htarget).imp (fun hold => ⟨hknown _ hold.1, hold.2⟩)
        fun hmem => hitems _ hmem rfl⟩)

/-- A message that was handed out does not wait, arrived and is confirmed. -/
def Handed (number : H → Nat) (q : Queue H) (message : Nat × CommunicationIn H) : Prop :=
  (q.inners message.1).strongCount = 0 ∧
    (∃ blockNumber, q.arrivals[message.1]? = some (message.2, blockNumber)) ∧
    ∀ target ∈ message.2.targets, q.Confirmed number target

variable {message : Nat × CommunicationIn H}

theorem Handed.mono {q' : Queue H} (h : Handed number q message)
    (hinner : q'.inners message.1 = q.inners message.1)
    (harrivals : ∀ (i : Nat) entry, q.arrivals[i]? = some entry → q'.arrivals[i]? = some entry)
    (hknown : ∀ hash ∈ q.known, hash ∈ q'.known) : Handed number q' message := by
  obtain ⟨hzero, ⟨blockNumber, hget⟩, hconfirmed⟩ := h
  exact ⟨hinner ▸ hzero, ⟨blockNumber, harrivals _ _ hget⟩, fun target htarget =>
    ⟨hknown _ (hconfirmed target htarget).1, (hconfirmed target htarget).2⟩⟩

/-- `items` are the waits that are not completed. -/
structure Inv (number : H → Nat) (items : List (H × BlockGlobalMessage)) (q : Queue H) : Prop where
  strong : ∀ id, (q.inners id).strongCount = items.countP fun item => item.2.inner = id
  waits : ∀ item ∈ items, ∃ input blockNumber,
    q.arrivals[item.2.inner]? = some (input, blockNumber) ∧
      (item.2.targetNumber, item.1) ∈ input.targets ∧ blockNumber item.1 = none ∧
      item.1 ∉ q.reported
  fate : ∀ id input blockNumber, q.arrivals[id]? = some (input, blockNumber) →
    Fate number items q id input
  nodup : (q.out.map Prod.fst).Nodup
  good : ∀ message ∈ q.out, Handed number q message
  told : ∀ hash ∈ q.reported, hash ∈ q.known

theorem Inv.perm (h : Inv number items q) (hperm : items.Perm items') : Inv number items' q :=
  ⟨fun id => (h.strong id).trans (hperm.countP_eq _),
    fun item hitem => h.waits item (hperm.mem_iff.mpr hitem), fun id input blockNumber hget =>
      (h.fate id input blockNumber hget).mono rfl (fun _ hx => hx) (fun _ hx => hx)
        fun _ hitem _ => hperm.mem_iff.mp hitem, h.nodup, h.good, h.told⟩

theorem Inv.countP_next (h : Inv number items q) :
    items.countP (fun item => item.2.inner = q.arrivals.length) = 0 := by
  refine List.countP_eq_zero.mpr fun item hitem => ?_
  obtain ⟨input, blockNumber, hget, -⟩ := h.waits item hitem
  simpa using (List.getElem?_eq_some_iff.mp hget).1.ne

def settle (q : Queue H) (id : Nat) (inner : Inner H) (handed : Option (CommunicationIn H)) :
    Queue H :=
  { q with
    inners := Function.update q.inners id inner
    ready := q.ready ++ (handed.map fun message => (id, message)).toList }

theorem mem_out_settle {id : Nat} {inner : Inner H} {handed : Option (CommunicationIn H)} :
    message ∈ (q.settle id inner handed).out ↔
      message ∈ q.out ∨ ∃ input, handed = some input ∧ message = (id, input) := by
  cases handed with
  | none => simp [out, settle]
  | some input =>
    simp only [out, settle, Option.map_some, Option.toList_some, List.append_assoc,
      List.mem_append, List.mem_singleton, Option.some.injEq, exists_eq_left']
    tauto

theorem Inv.settle {item : H × BlockGlobalMessage} (h : Inv number (item :: items) q)
    {blockNumber : H → Option Nat} (hget : q.arrivals[item.2.inner]? = some (input, blockNumber))
    {inner : Inner H} {handed : Option (CommunicationIn H)}
    (hcount : inner.strongCount + 1 = (q.inners item.2.inner).strongCount)
    (hfate : Fate number items (q.settle item.2.inner inner handed) item.2.inner input)
    (hhanded : ∀ message, handed = some message → message = input ∧ inner.strongCount = 0 ∧
      ∀ target ∈ input.targets, q.Confirmed number target) :
    Inv number items (q.settle item.2.inner inner handed) := by
  have hnotout : ∀ message ∈ q.out, message.1 ≠ item.2.inner := fun message hmem heq => by
    have hzero := (h.good message hmem).1
    rw [heq] at hzero
    omega
  constructor
  · intro id
    have hstrong := h.strong id
    by_cases hid : id = item.2.inner
    · subst hid
      rw [List.countP_cons_of_pos (by simp)] at hstrong
      simp only [Queue.settle, Function.update_self]
      omega
    · rw [List.countP_cons_of_neg (by simpa using Ne.symm hid)] at hstrong
      simpa only [Queue.settle, Function.update_of_ne hid] using hstrong
  · exact fun other hother => h.waits other (List.mem_cons_of_mem _ hother)
  · intro id input' blockNumber' hget'
    by_cases hid : id = item.2.inner
    · subst hid
      cases hget.symm.trans hget'
      exact hfate
    · refine (h.fate id input' blockNumber' hget').mono (Function.update_of_ne hid _ _)
        (fun message hmem => mem_out_settle.mpr (.inl hmem)) (fun _ hx => hx)
        fun other hmem hother => ?_
      rcases List.mem_cons.mp hmem with rfl | hmem
      · exact absurd hother.symm hid
      · exact hmem
  · cases handed with
    | none => simpa [out, Queue.settle] using h.nodup
    | some message =>
      have hperm : (q.settle item.2.inner inner (some message)).out.Perm
          ((item.2.inner, message) :: q.out) := by
        simp only [out, Queue.settle, Option.map_some, Option.toList_some, List.append_assoc,
          List.singleton_append]
        exact List.perm_middle
      rw [(hperm.map Prod.fst).nodup_iff, List.map_cons, List.nodup_cons]
      refine ⟨fun hmem => ?_, h.nodup⟩
      obtain ⟨other, hother, heq⟩ := List.mem_map.mp hmem
      exact hnotout other hother heq
  · intro message hmem
    rcases mem_out_settle.mp hmem with hmem | ⟨handed', hsome, heq⟩
    · exact (h.good message hmem).mono (Function.update_of_ne (hnotout message hmem) _ _)
        (fun _ _ hentry => hentry) fun _ hx => hx
    · obtain ⟨rfl, hzero, hconfirmed⟩ := hhanded handed' hsome
      subst heq
      exact ⟨by simpa [Queue.settle] using hzero, ⟨blockNumber, hget⟩, hconfirmed⟩
  · exact h.told

theorem Inv.complete {item : H × BlockGlobalMessage} (h : Inv number (item :: items) q)
    (hknown : item.1 ∈ q.known) : Inv number items (q.complete (number item.1) item.2) := by
  have hcount := h.strong item.2.inner
  rw [List.countP_cons_of_pos (by simp)] at hcount
  obtain ⟨input, blockNumber, hget, hvote, -⟩ := h.waits item List.mem_cons_self
  have hnotout : item.2.inner ∉ q.out.map Prod.fst := fun hmem => by
    obtain ⟨message, hmem, heq⟩ := List.mem_map.mp hmem
    have hzero := (h.good message hmem).1
    rw [heq] at hzero
    omega
  by_cases hnumber : item.2.targetNumber = number item.1
  · have hconfirms : ∀ target : Nat × H, q.Confirmed number target ∨
        (target.2, ⟨item.2.inner, target.1⟩) ∈ item :: items →
        q.Confirmed number target ∨ (target.2, ⟨item.2.inner, target.1⟩) ∈ items := by
      rintro target (hconfirmed | hmem)
      · exact .inl hconfirmed
      · refine (List.mem_cons.mp hmem).imp_left fun heq => ?_
        rw [← heq] at hnumber hknown
        exact ⟨hknown, hnumber.symm⟩
    by_cases hlast : (q.inners item.2.inner).strongCount = 1
    · -- the last wait: no other one of the message is outstanding
      have hq : q.complete (number item.1) item.2 =
          q.settle item.2.inner ⟨none, 0⟩ (q.inners item.2.inner).message := by
        simp [Queue.complete, waitCompleted, hnumber, hlast, Queue.settle]
      rw [hq]
      have hnone : ∀ x ∈ items, x.2.inner ≠ item.2.inner := by
        have hzero : items.countP (fun x => x.2.inner = item.2.inner) = 0 := by omega
        simpa using List.countP_eq_zero.mp hzero
      rcases h.fate _ _ _ hget with hout | ⟨hwrong, hdeleted⟩ | ⟨-, hmessage, htargets⟩
      · exact absurd hout hnotout
      · rw [hdeleted (by omega)]
        exact h.settle hget (by simp [hlast]) (.inr (.inl ⟨hwrong, by simp [Queue.settle]⟩)) nofun
      · rw [hmessage]
        refine h.settle hget (by simp [hlast])
          (.inl (List.mem_map.mpr ⟨_, mem_out_settle.mpr (.inr ⟨input, rfl, rfl⟩), rfl⟩)) ?_
        rintro message hsome
        cases hsome
        exact ⟨rfl, rfl, fun target htarget =>
          (hconfirms target (htargets target htarget)).resolve_right fun hmem => hnone _ hmem rfl⟩
    · have hq : q.complete (number item.1) item.2 = q.settle item.2.inner
          ⟨(q.inners item.2.inner).message, (q.inners item.2.inner).strongCount - 1⟩ none := by
        simp [Queue.complete, waitCompleted, hnumber, hlast, Queue.settle]
      rw [hq]
      refine h.settle hget (by dsimp only; omega) ?_ nofun
      rcases h.fate _ _ _ hget with hout | ⟨hwrong, hdeleted⟩ | ⟨-, hmessage, htargets⟩
      · exact absurd hout hnotout
      · refine .inr (.inl ⟨hwrong, fun _ => ?_⟩)
        simpa [Queue.settle] using hdeleted (by omega)
      · refine .inr (.inr ⟨?_, by simpa [Queue.settle] using hmessage, fun target htarget =>
          hconfirms target (htargets target htarget)⟩)
        simp only [Queue.settle, Function.update_self]
        omega
  · -- the number differs, so the message has a wrong vote
    have hq : q.complete (number item.1) item.2 =
        q.settle item.2.inner ⟨none, (q.inners item.2.inner).strongCount - 1⟩ none := by
      simp [Queue.complete, waitCompleted, hnumber, Queue.settle]
    rw [hq]
    exact h.settle hget (by dsimp only; omega)
      (.inr (.inl ⟨⟨_, hvote, Ne.symm hnumber⟩, fun _ => by simp [Queue.settle]⟩)) nofun

/-! ## Steps -/

theorem Inv.learn (h : Inv number items q) (q' : Queue H) (hinners : q'.inners = q.inners)
    (hready : q'.ready = q.ready) (harrivals : q'.arrivals = q.arrivals)
    (hyielded : q'.yielded = q.yielded) (hreported : ∀ item ∈ items, item.1 ∉ q'.reported)
    (hknown : ∀ hash ∈ q.known, hash ∈ q'.known) (htold : ∀ hash ∈ q'.reported, hash ∈ q'.known) :
    Inv number items q' := by
  have hout : q'.out = q.out := by rw [out, out, hready, hyielded]
  constructor
  · rw [hinners]
    exact h.strong
  · intro item hitem
    obtain ⟨input, blockNumber, hget, hvote, hnone, -⟩ := h.waits item hitem
    exact ⟨input, blockNumber, harrivals ▸ hget, hvote, hnone, hreported item hitem⟩
  · intro id input blockNumber hget
    exact (h.fate id input blockNumber (harrivals ▸ hget)).mono (by rw [hinners])
      (fun message hmem => hout ▸ hmem) hknown fun _ hitem _ => hitem
  · rw [hout]
    exact h.nodup
  · intro message hmem
    exact (h.good message (hout ▸ hmem)).mono (by rw [hinners])
      (fun _ _ hentry => harrivals ▸ hentry) hknown
  · exact htold

theorem foldl_complete_frame (canonNumber : Nat) (waits : List BlockGlobalMessage) (q : Queue H) :
    (waits.foldl (complete canonNumber) q).pending = q.pending ∧
      (waits.foldl (complete canonNumber) q).known = q.known ∧
      (waits.foldl (complete canonNumber) q).reported = q.reported := by
  induction waits generalizing q with
  | nil => exact ⟨rfl, rfl, rfl⟩
  | cons wait waits ih => exact ih (q.complete canonNumber wait)

theorem Inv.completeAll {hash : H} (hknown : hash ∈ q.known)
    {batch : List (H × BlockGlobalMessage)} (hbatch : ∀ item ∈ batch, item.1 = hash)
    (h : Inv number (batch ++ items) q) :
    Inv number items ((batch.map Prod.snd).foldl (Queue.complete (number hash)) q) := by
  induction batch generalizing q with
  | nil => exact h
  | cons item batch ih =>
    rw [List.forall_mem_cons] at hbatch
    have hstep := Inv.complete h (hbatch.1.symm ▸ hknown)
    rw [hbatch.1] at hstep
    exact ih hknown hbatch.2 hstep

variable [DecidableEq H]

theorem Inv.report (h : Inv number q.pending q) (hash : H) :
    Inv number (q.report number hash).pending (q.report number hash) := by
  have hsplit : q.pending.Perm ((q.pending.filter fun entry => entry.1 = hash) ++
      q.pending.filter fun entry => entry.1 ≠ hash) := by
    have hperm := List.filter_append_perm (fun entry : H × BlockGlobalMessage =>
      decide (entry.1 = hash)) q.pending
    simpa using hperm.symm
  have hlearn := (h.perm hsplit).learn
    { q with pending := q.pending.filter fun entry => entry.1 ≠ hash, known := hash :: q.known }
    rfl rfl rfl rfl
    (fun item hitem => by
      obtain ⟨-, -, -, -, -, hreported⟩ := h.waits item (hsplit.mem_iff.mpr hitem)
      exact hreported)
    (fun x hx => List.mem_cons_of_mem _ hx) (fun x hx => List.mem_cons_of_mem _ (h.told x hx))
  have hdone := Inv.completeAll List.mem_cons_self
    (fun item hitem => by simpa using (List.mem_filter.mp hitem).2) hlearn
  obtain ⟨hpending, hknown, hreported⟩ := foldl_complete_frame (number hash)
    ((q.pending.filter fun entry => entry.1 = hash).map Prod.snd)
    { q with pending := q.pending.filter fun entry => entry.1 ≠ hash, known := hash :: q.known }
  have hitems : (q.report number hash).pending = q.pending.filter fun entry => entry.1 ≠ hash :=
    hpending
  rw [hitems]
  refine hdone.learn _ rfl rfl rfl rfl (fun item hitem hmem => ?_) (fun x hx => hx) fun x hx => ?_
  rotate_left
  · rcases List.mem_cons.mp hx with rfl | hx
    · exact hknown ▸ List.mem_cons_self
    · exact hdone.told x hx
  obtain ⟨-, -, -, -, -, hold⟩ := hdone.waits item hitem
  rcases List.mem_cons.mp hmem with heq | hmem
  · simpa [heq] using (List.mem_filter.mp hitem).2
  · exact hold hmem

omit [DecidableEq H] in
/-- A new message, with its waits or handed out at once. -/
theorem Inv.arrive (h : Inv number items q) (q' : Queue H) {blockNumber : H → Option Nat}
    (new : List (H × Nat))
    (hitems : items' = items ++ new.map fun item => (item.1, ⟨q.arrivals.length, item.2⟩))
    (harrivals : q'.arrivals = q.arrivals ++ [(input, blockNumber)])
    (hinners : ∀ id ≠ q.arrivals.length, q'.inners id = q.inners id)
    (hstrong : (q'.inners q.arrivals.length).strongCount = new.length)
    (hreported : q'.reported = q.reported) (hknown : ∀ hash ∈ q.known, hash ∈ q'.known)
    (hnew : ∀ item ∈ new, (item.2, item.1) ∈ input.targets ∧ blockNumber item.1 = none ∧
      item.1 ∉ q.reported)
    (hout : q'.out = q.out ∨ new = [] ∧ q'.out.Perm ((q.arrivals.length, input) :: q.out) ∧
      ∀ target ∈ input.targets, q'.Confirmed number target)
    (hfate : Fate number items' q' q.arrivals.length input) : Inv number items' q' := by
  have hstays : ∀ (i : Nat) entry, q.arrivals[i]? = some entry → q'.arrivals[i]? = some entry :=
    fun i entry hget => by
      rw [harrivals, List.getElem?_append_left (List.getElem?_eq_some_iff.mp hget).1, hget]
  have hself : q'.arrivals[q.arrivals.length]? = some (input, blockNumber) := by
    rw [harrivals, List.getElem?_concat_length]
  have hmemOut : ∀ message ∈ q.out, message ∈ q'.out := fun message hmem => by
    rcases hout with heq | ⟨-, hperm, -⟩
    · exact heq ▸ hmem
    · exact hperm.mem_iff.mpr (List.mem_cons_of_mem _ hmem)
  have hold : ∀ message ∈ q.out, message.1 ≠ q.arrivals.length := fun message hmem => by
    obtain ⟨-, ⟨bn, hget⟩, -⟩ := h.good message hmem
    exact (List.getElem?_eq_some_iff.mp hget).1.ne
  have hgood : ∀ message ∈ q.out, Handed number q' message := fun message hmem =>
    (h.good message hmem).mono (hinners _ (hold message hmem)) hstays hknown
  constructor
  · intro id
    rw [hitems, List.countP_append, List.countP_map]
    by_cases hid : id = q.arrivals.length
    · rw [hid, h.countP_next, hstrong, Nat.zero_add]
      exact (List.countP_eq_length.mpr fun _ _ => decide_eq_true rfl).symm
    · rw [hinners id hid, h.strong id, left_eq_add, List.countP_eq_zero]
      intro item _
      simpa using Ne.symm hid
  · intro item hitem
    rw [hreported]
    rcases List.mem_append.mp (hitems ▸ hitem) with hitem | hitem
    · obtain ⟨input', blockNumber', hget, hrest⟩ := h.waits item hitem
      exact ⟨input', blockNumber', hstays _ _ hget, hrest⟩
    · obtain ⟨wait, hwait, rfl⟩ := List.mem_map.mp hitem
      exact ⟨input, blockNumber, hself, hnew wait hwait⟩
  · intro id input' blockNumber' hget
    by_cases hid : id = q.arrivals.length
    · subst hid
      cases hself.symm.trans hget
      exact hfate
    · have hlt := (List.getElem?_eq_some_iff.mp hget).1
      rw [harrivals, List.length_append, List.length_singleton] at hlt
      rw [harrivals, List.getElem?_append_left (by omega)] at hget
      exact (h.fate id input' blockNumber' hget).mono (hinners id hid) hmemOut hknown
        fun item hitem _ => hitems ▸ List.mem_append_left _ hitem
  · rcases hout with heq | ⟨-, hperm, -⟩
    · rw [heq]
      exact h.nodup
    · rw [(hperm.map Prod.fst).nodup_iff, List.map_cons, List.nodup_cons]
      refine ⟨fun hmem => ?_, h.nodup⟩
      obtain ⟨message, hmem, heq⟩ := List.mem_map.mp hmem
      exact hold message hmem heq
  · intro message hmem
    rcases hout with heq | ⟨hnil, hperm, hconfirmed⟩
    · exact hgood message (heq ▸ hmem)
    · rcases List.mem_cons.mp (hperm.mem_iff.mp hmem) with rfl | hmem
      · exact ⟨by rw [hstrong, hnil]; rfl, ⟨blockNumber, hself⟩, hconfirmed⟩
      · exact hgood message hmem
  · intro hash hhash
    exact hknown hash (h.told hash (hreported ▸ hhash))

theorem Inv.incoming (h : Inv number q.pending q) (input : CommunicationIn H)
    {blockNumber : H → Option Nat}
    (htrue : ∀ hash n, blockNumber hash = some n → n = number hash)
    (hknown : ∀ hash ∈ q.known, blockNumber hash ≠ none) :
    Inv number (q.incoming input blockNumber).pending (q.incoming input blockNumber) := by
  have hspec := needsWaiting_spec htrue input
  have hlearned : ∀ target ∈ input.targets, blockNumber target.2 = some target.1 →
      target.2 ∈ (input.targets.map Prod.snd).filter (fun hash => (blockNumber hash).isSome) ++
        q.known ∧ number target.2 = target.1 := by
    intro target htarget hblock
    refine ⟨List.mem_append_left _ (List.mem_filter.mpr ⟨List.mem_map_of_mem htarget, ?_⟩),
      (htrue _ _ hblock).symm⟩
    rw [hblock]
    rfl
  have hnone : (q.inners q.arrivals.length).strongCount = 0 := (h.strong _).trans h.countP_next
  unfold Queue.incoming
  cases hwaiting : needsWaiting blockNumber input with
  | discard =>
    rw [hwaiting] at hspec
    exact h.arrive _ [] (by simp) rfl (fun _ _ => rfl) hnone rfl
      (fun _ hx => List.mem_append_right _ hx) nofun (.inl rfl)
      (.inr (.inl ⟨hspec, fun hpos => by dsimp only at hpos; omega⟩))
  | ready =>
    rw [hwaiting] at hspec
    exact h.arrive _ [] (by simp) rfl (fun _ _ => rfl) hnone rfl
      (fun _ hx => List.mem_append_right _ hx) nofun
      (.inr ⟨rfl, by simp [out],
        fun target htarget => hlearned target htarget (hspec target htarget)⟩)
      (.inl (by simp [out]))
  | wait items =>
    rw [hwaiting] at hspec
    obtain ⟨hne, hitems, htargets⟩ := hspec
    refine h.arrive _ items rfl rfl (fun id hid => Function.update_of_ne hid _ _)
      (by simp) rfl (fun _ hx => List.mem_append_right _ hx) (fun item hitem => ?_) (.inl rfl) ?_
    · obtain ⟨hunknown, hvote⟩ := hitems item hitem
      exact ⟨hvote, hunknown, fun hmem => hknown _ (h.told _ hmem) hunknown⟩
    · refine .inr (.inr ⟨?_, by simp, fun target htarget => ?_⟩)
      · simp [List.length_pos_iff, hne]
      · rcases htargets target htarget with hblock | hmem
        · exact .inl (hlearned target htarget hblock)
        · exact .inr (List.mem_append_right _ (List.mem_map.mpr ⟨_, hmem, rfl⟩))

omit [DecidableEq H] in
theorem inv_empty : Inv number [] ({} : Queue H) :=
  ⟨fun _ => rfl, nofun, nofun, List.nodup_nil, nofun, nofun⟩

theorem Inv.reportAll (h : Inv number q.pending q) (hashes : List H) :
    Inv number (hashes.foldl (Queue.report number) q).pending
      (hashes.foldl (Queue.report number) q) := by
  induction hashes generalizing q with
  | nil => exact h
  | cons hash hashes ih => exact ih (h.report hash)

omit [DecidableEq H] in
theorem Inv.pop (h : Inv number items q) {ready : List (Nat × CommunicationIn H)}
    (hready : q.ready = message :: ready) :
    Inv number items { q with ready, yielded := q.yielded ++ [message] } := by
  have hperm : q.out.Perm ({ q with ready, yielded := q.yielded ++ [message] } : Queue H).out := by
    rw [out, hready, out, List.cons_append, ← List.append_assoc]
    exact (List.perm_append_singleton _ _).symm
  constructor
  · exact h.strong
  · exact h.waits
  · intro id input blockNumber hget
    exact (h.fate id input blockNumber hget).imp_left (hperm.map Prod.fst).mem_iff.mp
  · exact (hperm.map Prod.fst).nodup_iff.mp h.nodup
  · intro message hmem
    exact h.good message (hperm.mem_iff.mpr hmem)
  · exact h.told

theorem Inv.step (h : Inv number q.pending q) (op : Op H) (htruthful : Truthful number q op) :
    ∃ q', q.step number op = some q' ∧ Inv number q'.pending q' := by
  cases op with
  | incoming input blockNumber =>
    exact ⟨_, rfl, h.incoming input htruthful.1 htruthful.2⟩
  | importNotification hash => exact ⟨_, rfl, h.report hash⟩
  | checkPending knownKeys => exact ⟨_, rfl, h.reportAll knownKeys⟩
  | popReady =>
    cases hready : q.ready with
    | nil => exact ⟨q, by rw [Queue.step, hready], h⟩
    | cons message ready => exact ⟨_, by rw [Queue.step, hready], h.pop hready⟩

omit [DecidableEq H] in
theorem Inv.delivered (h : Inv number items q) {id : Nat} {blockNumber : H → Option Nat}
    (hget : q.arrivals[id]? = some (input, blockNumber))
    (hright : ∀ target ∈ input.targets, number target.2 = target.1)
    (hreported : ∀ target ∈ input.targets, blockNumber target.2 ≠ none ∨ target.2 ∈ q.reported) :
    (id, input) ∈ q.out := by
  have hout : id ∈ q.out.map Prod.fst := by
    rcases h.fate id input blockNumber hget with hout | hwrong | ⟨hpos, -, -⟩
    · exact hout
    · obtain ⟨⟨target, htarget, hne⟩, -⟩ := hwrong
      exact absurd (hright target htarget) hne
    · rw [h.strong, List.countP_pos_iff] at hpos
      obtain ⟨item, hitem, hid⟩ := hpos
      obtain ⟨input', blockNumber', hget', hvote, hnone, hnot⟩ := h.waits item hitem
      rw [of_decide_eq_true hid, hget] at hget'
      cases hget'
      rcases hreported _ hvote with hknown | hmem
      · exact absurd hnone hknown
      · exact absurd hmem hnot
  obtain ⟨message, hmem, rfl⟩ := List.mem_map.mp hout
  obtain ⟨-, ⟨_, hget'⟩, -⟩ := h.good message hmem
  rw [hget] at hget'
  cases hget'
  exact hmem

/-- No message is yielded twice; one that is yielded has all its blocks known under the stated
numbers; and when the ready queue is empty, every message with the right numbers has been yielded
whose blocks were known or reported. -/
theorem delivered_once {number : H → Nat} {ops : List (Op H)}
    (htruthful : Run.Along (step number) (Truthful number) {} ops) :
    ∃ q, Run.exec (step number) {} ops = some q ∧ (q.yielded.map Prod.fst).Nodup ∧
      (∀ id input, (id, input) ∈ q.yielded →
        (∃ blockNumber, q.arrivals[id]? = some (input, blockNumber)) ∧
          ∀ n hash, (n, hash) ∈ input.targets → hash ∈ q.known ∧ number hash = n) ∧
      (q.ready = [] → ∀ id input blockNumber, q.arrivals[id]? = some (input, blockNumber) →
        (∀ n hash, (n, hash) ∈ input.targets →
          number hash = n ∧ (blockNumber hash ≠ none ∨ hash ∈ q.reported)) →
        (id, input) ∈ q.yielded) := by
  obtain ⟨q, hexec, hinv⟩ := Run.exec_total (fun q op h htruth => Inv.step h op htruth)
    inv_empty htruthful
  refine ⟨q, hexec, ?_, fun id input hmem => ?_, fun hready id input blockNumber hget hall => ?_⟩
  · have hnodup := hinv.nodup
    rw [out, List.map_append] at hnodup
    exact hnodup.of_append_right
  · obtain ⟨-, harrival, hconfirmed⟩ := hinv.good _ (List.mem_append_right _ hmem)
    exact ⟨harrival, fun n hash htarget => hconfirmed (n, hash) htarget⟩
  · have hmem := hinv.delivered hget (fun target htarget => (hall _ _ htarget).1)
      fun target htarget => (hall _ _ htarget).2
    rwa [out, hready, List.nil_append] at hmem

/-- A commit for blocks 7 and 8, and a catch-up with another number for block 8. -/
def twoMessages : List (Op Nat) :=
  [.incoming (.commit [(1, 7), (2, 8)]) fun _ => none,
    .incoming (.catchUp [(1, 7)] [(3, 8)]) fun _ => none,
    .importNotification 7, .popReady, .checkPending [8], .popReady]

theorem delivered_once_twoMessages :
    ∃ q, Run.exec (step fun hash => hash - 6) {} twoMessages = some q ∧
      q.yielded = [(0, .commit [(1, 7), (2, 8)])] ∧ (q.yielded.map Prod.fst).Nodup := by
  obtain ⟨q, hexec, hnodup, -⟩ := @delivered_once Nat _ (fun hash => hash - 6) twoMessages
    ⟨⟨nofun, nofun⟩, ⟨nofun, fun _ hmem => absurd hmem List.not_mem_nil⟩, trivial, trivial,
      And.intro trivial (And.intro trivial trivial)⟩
  cases hexec
  exact ⟨_, rfl, by decide, hnodup⟩

end Queue

end PolkadotSdk.Grandpa.UntilImported
