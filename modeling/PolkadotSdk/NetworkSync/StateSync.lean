import Mathlib
import PolkadotSdk.Lib.Entries
import PolkadotSdk.Lib.Run

/-! # State sync

A state is downloaded in parts. Each response brings key values of the top trie and of child
tries, and a cursor of one or two keys says where the next one starts. Without proofs, the
cursor is taken from the response; with proofs, from what was verified. `none` is a panic.
-/

namespace PolkadotSdk.NetworkSync

abbrev Bytes : Type := List UInt8

/-- `:child_storage:`. -/
def childStorageKeyPrefix : Bytes :=
  [58, 99, 104, 105, 108, 100, 95, 115, 116, 111, 114, 97, 103, 101, 58]

def isChildStorageKey (key : Bytes) : Bool := childStorageKeyPrefix.isPrefixOf key

/-! ## Messages -/

structure StateRequest where
  block : Bytes
  start : List Bytes
  noProof : Bool
  deriving DecidableEq, Repr

structure KeyValueStateEntry where
  stateRoot : Bytes
  entries : List (Bytes × Bytes)
  complete : Bool
  deriving DecidableEq, Repr

structure StateResponse where
  entries : List KeyValueStateEntry
  proof : Bytes
  deriving DecidableEq, Repr

/-- A key value state at any storage level; the top trie has an empty root. -/
structure KeyValueStorageLevel where
  stateRoot : Bytes
  parentStorageKeys : List Bytes
  keyValues : List (Bytes × Bytes)
  deriving DecidableEq, Repr

def maxNestedTrieDepth : Nat := 2

/-- `last[0] = key`, which panics on an empty cursor. -/
def setFirst (last : List Bytes) (key : Bytes) : Option (List Bytes) :=
  match last with
  | [] => none
  | _ :: rest => some (key :: rest)

def KeyValueStorageLevel.lastKey (level : KeyValueStorageLevel) : Option Bytes :=
  level.keyValues.getLast?.map Prod.fst

def topLast (states : List KeyValueStorageLevel) : Option Bytes :=
  states.head?.bind KeyValueStorageLevel.lastKey

def popChild (last : List Bytes) : List Bytes := if last.length = 2 then last.dropLast else last

def stoppedInTop (states : List KeyValueStorageLevel) (last : List Bytes) :
    Option (Bool × List Bytes) :=
  match topLast states, last with
  | some key, [] => some (true, [key])
  | some key, last => (setFirst (popChild last) key).map (true, ·)
  -- no change in top trie accesses: the end of a child trie
  | none, last => some (true, last.take 1)

def stoppedInChild (states : List KeyValueStorageLevel) (last : List Bytes) :
    Option (Bool × List Bytes) :=
  match states.getLast?.bind KeyValueStorageLevel.lastKey with
  | none => some (false, last)
  | some childLast =>
    match topLast states, last with
    | none, [] => some (false, [])
    | some key, [] => some (true, [key, childLast])
    | none, last => some (true, popChild last ++ [childLast])
    | some key, last => (setFirst last key).map fun last => (true, popChild last ++ [childLast])

def updateLastKey (states : List KeyValueStorageLevel) (stoppedAt : Nat) (last : List Bytes) :
    Option (Bool × List Bytes) :=
  if stoppedAt = 0 ∨ maxNestedTrieDepth < stoppedAt then some (false, last)
  else if stoppedAt = 1 then stoppedInTop states last
  else stoppedInChild states last

/-! ## The download -/

/-- What is known of each root: its key values, and the keys of the top trie that have it. -/
abbrev SyncedState : Type := List (Bytes × (List (Bytes × Bytes) × List Bytes))

structure Target where
  hash : Bytes
  stateRoot : Bytes
  deriving DecidableEq, Repr

structure StateSync where
  lastKey : List Bytes
  target : Target
  complete : Bool
  importedBytes : Nat
  skipProof : Bool
  state : SyncedState
  deriving DecidableEq, Repr

inductive ImportResult where
  | import (hash : Bytes) (state : List KeyValueStorageLevel)
  | continue
  | badResponse
  deriving DecidableEq, Repr

structure ProofProvider (Proof Error : Type) where
  decode : Bytes → Option Proof
  verifyRangeProof : Bytes → Proof → List Bytes →
    Except Error (List KeyValueStorageLevel × Nat)

namespace StateSync

def new (target : Target) (skipProof : Bool) : StateSync :=
  ⟨[], target, false, 0, skipProof, []⟩

def nextRequest (sync : StateSync) : StateRequest :=
  ⟨sync.target.hash, sync.lastKey, sync.skipProof⟩

def addBytes (count more : Nat) : Nat := (count + more) % 2 ^ 64

def isChildRoot (isTop : Bool) (keyValue : Bytes × Bytes) : Bool :=
  isTop && isChildStorageKey keyValue.1

def processStateKeyValues (sync : StateSync) (stateRoot : Bytes)
    (keyValues : List (Bytes × Bytes)) : StateSync :=
  let state := Entries.upsert sync.state stateRoot ([], []) id
  let entry := (Entries.get state stateRoot).getD ([], [])
  if 0 < entry.1.length ∧ 1 < entry.2.length then
    -- already imported child trie with same root
    { sync with state }
  else
    -- child roots are skipped, they are calculated again on import
    let kept := keyValues.filter fun keyValue => !isChildRoot stateRoot.isEmpty keyValue
    let childStorageRoots := keyValues.filter (isChildRoot stateRoot.isEmpty)
    let state := Entries.modify state stateRoot fun entry => (entry.1 ++ kept, entry.2)
    { sync with
      importedBytes := addBytes sync.importedBytes (kept.map (·.1.length)).sum
      state := childStorageRoots.foldl (fun state keyValue =>
        Entries.upsert state keyValue.2 ([], []) fun entry =>
          (entry.1, entry.2 ++ [keyValue.1])) state }

def processStateVerified (sync : StateSync) (values : List KeyValueStorageLevel) : StateSync :=
  values.foldl (fun sync level => sync.processStateKeyValues level.stateRoot level.keyValues) sync

/-- The position in the parent trie stays where the response is part of one child trie. -/
def startCursor (lastKey : List Bytes) (response : StateResponse) : Option (List Bytes) :=
  if lastKey.length = 2 then
    match response.entries with
    | [] => none
    | top :: _ => some (if top.entries.isEmpty then lastKey.dropLast else [])
  else some []

def processStateEntry (state : StateSync × Bool) (entry : KeyValueStateEntry) :
    StateSync × Bool :=
  let lastKey :=
    if entry.complete then state.1.lastKey
    else state.1.lastKey ++ (entry.entries.getLast?.map Prod.fst).toList
  ({ state.1 with lastKey }.processStateKeyValues entry.stateRoot entry.entries,
    state.2 && entry.complete)

def processStateUnverified (sync : StateSync) (response : StateResponse) :
    Option (StateSync × Bool) :=
  (startCursor sync.lastKey response).map fun lastKey =>
    response.entries.foldl processStateEntry ({ sync with lastKey }, true)

def importedState (state : SyncedState) : List KeyValueStorageLevel :=
  state.map fun entry => ⟨entry.1, entry.2.2, entry.2.1⟩

def finish (sync : StateSync) (complete : Bool) : ImportResult × StateSync :=
  if complete then
    (.import sync.target.hash (importedState sync.state),
      { sync with complete := true, state := [] })
  else (.continue, sync)

/-- The cursor after a verified response; it stays where it cannot be updated. -/
def verifiedCursor (lastKey : List Bytes) (values : List KeyValueStorageLevel) (completed : Nat) :
    Option (List Bytes) :=
  if completed = 0 then some lastKey else (updateLastKey values completed lastKey).map Prod.snd

variable {Proof Error : Type}

def «import» (client : ProofProvider Proof Error) (sync : StateSync) (response : StateResponse) :
    Option (ImportResult × StateSync) :=
  if response.entries.isEmpty ∧ response.proof.isEmpty then some (.badResponse, sync)
  else if !sync.skipProof ∧ response.proof.isEmpty then some (.badResponse, sync)
  else if !sync.skipProof then
    match client.decode response.proof with
    | none => some (.badResponse, sync)
    | some proof =>
      match client.verifyRangeProof sync.target.stateRoot proof sync.lastKey with
      | .error _ => some (.badResponse, sync)
      | .ok (values, completed) =>
        (verifiedCursor sync.lastKey values completed).map fun lastKey =>
          let sync := { sync with lastKey }.processStateVerified values
          { sync with
            importedBytes := addBytes sync.importedBytes response.proof.length }.finish
              (completed = 0)
  else
    (sync.processStateUnverified response).map fun (sync, complete) => sync.finish complete

def step (client : ProofProvider Proof Error) (sync : StateSync) (response : StateResponse) :
    Option StateSync :=
  (sync.import client response).map Prod.snd

/-! ## Responses of any peer -/

theorem finish_ne_badResponse (sync : StateSync) (complete : Bool) :
    (sync.finish complete).1 ≠ .badResponse := by
  cases complete <;> simp [finish]

theorem startCursor_isSome {lastKey : List Bytes} {response : StateResponse}
    (h : lastKey.length = 2 → response.entries ≠ []) :
    ∃ start, startCursor lastKey response = some start := by
  unfold startCursor
  split_ifs with hlength
  · cases hentries : response.entries with
    | nil => exact absurd hentries (h hlength)
    | cons top rest => exact ⟨_, rfl⟩
  · exact ⟨_, rfl⟩

end StateSync

theorem popChild_cons (key : Bytes) (rest : List Bytes) :
    ∃ popped, popChild (key :: rest) = key :: popped := by
  unfold popChild
  split_ifs with htwo
  · cases rest with
    | nil => simp at htwo
    | cons child rest => exact ⟨_, List.dropLast_cons_cons⟩
  · exact ⟨rest, rfl⟩

theorem stoppedInTop_isSome (states : List KeyValueStorageLevel) (last : List Bytes) :
    ∃ result, stoppedInTop states last = some result := by
  unfold stoppedInTop
  cases topLast states with
  | none => exact ⟨_, rfl⟩
  | some key =>
    cases last with
    | nil => exact ⟨_, rfl⟩
    | cons first rest =>
      obtain ⟨popped, hpopped⟩ := popChild_cons first rest
      simp [hpopped, setFirst]

theorem stoppedInChild_isSome (states : List KeyValueStorageLevel) (last : List Bytes) :
    ∃ result, stoppedInChild states last = some result := by
  unfold stoppedInChild
  cases states.getLast?.bind KeyValueStorageLevel.lastKey with
  | none => exact ⟨_, rfl⟩
  | some childLast => cases topLast states <;> cases last <;> exact ⟨_, rfl⟩

theorem updateLastKey_isSome (states : List KeyValueStorageLevel) (stoppedAt : Nat)
    (last : List Bytes) : ∃ result, updateLastKey states stoppedAt last = some result := by
  unfold updateLastKey
  split_ifs
  · exact ⟨_, rfl⟩
  · exact stoppedInTop_isSome states last
  · exact stoppedInChild_isSome states last

namespace StateSync

variable {Proof Error : Type}

theorem verifiedCursor_isSome (lastKey : List Bytes) (values : List KeyValueStorageLevel)
    (completed : Nat) : ∃ moved, verifiedCursor lastKey values completed = some moved := by
  obtain ⟨result, hresult⟩ := updateLastKey_isSome values completed lastKey
  unfold verifiedCursor
  split_ifs
  · exact ⟨_, rfl⟩
  · exact ⟨_, by rw [hresult]; rfl⟩

/-- Without proofs, inside a child trie, a response that carries a proof has a part. -/
def HasParts (sync : StateSync) (response : StateResponse) : Prop :=
  sync.skipProof = true → sync.lastKey.length = 2 → response.entries = [] → response.proof = []

instance (sync : StateSync) (response : StateResponse) : Decidable (HasParts sync response) :=
  inferInstanceAs (Decidable (_ → _ → _ → _))

/-- A response with parts is answered, and one that is refused changes nothing. -/
theorem import_answers (client : ProofProvider Proof Error) {sync : StateSync}
    {response : StateResponse} (h : HasParts sync response) :
    ∃ result after, sync.import client response = some (result, after) ∧
      (result = .badResponse → after = sync) := by
  unfold StateSync.import
  split_ifs with hempty hmissing hproof
  · exact ⟨_, _, rfl, fun _ => rfl⟩
  · exact ⟨_, _, rfl, fun _ => rfl⟩
  · cases client.decode response.proof with
    | none => exact ⟨_, _, rfl, fun _ => rfl⟩
    | some proof =>
      simp only
      cases client.verifyRangeProof sync.target.stateRoot proof sync.lastKey with
      | error _ => exact ⟨_, _, rfl, fun _ => rfl⟩
      | ok verified =>
        obtain ⟨values, completed⟩ := verified
        obtain ⟨moved, hmoved⟩ := verifiedCursor_isSome sync.lastKey values completed
        refine ⟨_, _, by simp only [hmoved]; rfl, ?_⟩
        exact fun hbad => absurd hbad (finish_ne_badResponse _ _)
  · have hskip : sync.skipProof = true := by simpa using hproof
    have hparts : sync.lastKey.length = 2 → response.entries ≠ [] := by
      intro htwo hnil
      exact hempty (by simp [hnil, h hskip htwo hnil])
    obtain ⟨start, hstart⟩ := startCursor_isSome hparts
    refine ⟨_, _, by simp only [processStateUnverified, hstart]; rfl, ?_⟩
    exact fun hbad => absurd hbad (finish_ne_badResponse _ _)

/-- Whatever peers answer, state sync goes on from each response, and a response that is
refused leaves the state and the cursor as they were, so that the same request is made again. -/
theorem imports_any_response (client : ProofProvider Proof Error) (start : StateSync)
    (responses : List StateResponse)
    (hparts : Run.Along (step client) HasParts start responses) :
    (∃ last, Run.exec (step client) start responses = some last) ∧
    ∀ earlier response rest, responses = earlier ++ response :: rest →
      ∃ before result after, Run.exec (step client) start earlier = some before ∧
        before.import client response = some (result, after) ∧
        (result = .badResponse → after = before ∧ after.nextRequest = before.nextRequest) := by
  have hstep : ∀ sync response, True → HasParts sync response →
      ∃ after, step client sync response = some after ∧ True := by
    intro sync response _ h
    obtain ⟨result, after, himport, _⟩ := import_answers client h
    exact ⟨after, by simp [step, himport], trivial⟩
  have htotal : ∀ ops, Run.Along (step client) HasParts start ops →
      ∃ last, Run.exec (step client) start ops = some last := fun ops hops =>
    (Run.exec_total hstep trivial hops).imp fun _ h => h.1
  refine ⟨htotal responses hparts, ?_⟩
  intro earlier response rest hsplit
  rw [hsplit] at hparts
  obtain ⟨before, hbefore⟩ := htotal earlier hparts.append_left
  obtain ⟨result, after, himport, hbad⟩ :=
    import_answers client (hparts.append_right hbefore).head
  exact ⟨before, result, after, hbefore, himport,
    fun h => ⟨hbad h, congrArg nextRequest (hbad h)⟩⟩

def noProofs : ProofProvider Bytes Unit := ⟨some, fun _ _ _ => .error ()⟩

def emptyTarget : Target := ⟨[], []⟩

/-- Two parts that both go on, which leaves a cursor inside a child trie. -/
def nestedResponse : StateResponse :=
  ⟨[⟨[], [([1], [2])], false⟩, ⟨[2], [([3], [4])], false⟩], []⟩

/-- The rest of that child trie, after a response that is refused. -/
theorem imports_any_response_nested :
    ∃ last, Run.exec (step noProofs) (new emptyTarget true)
      [nestedResponse, ⟨[], []⟩, ⟨[⟨[], [], true⟩, ⟨[2], [([5], [6])], true⟩], []⟩] = some last :=
  (imports_any_response noProofs (new emptyTarget true) _ (by decide)).1

/-- A proof that was not asked for, and nothing else, panics inside a child trie. -/
theorem import_panics_on_bare_proof :
    ∃ sync, Run.exec (step noProofs) (new emptyTarget true) [nestedResponse] = some sync ∧
      sync.import noProofs ⟨[], [0]⟩ = none :=
  ⟨_, rfl, rfl⟩

end StateSync

end PolkadotSdk.NetworkSync
