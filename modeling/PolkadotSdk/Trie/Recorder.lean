import Mathlib
import PolkadotSdk.Lib.MapTotal
import PolkadotSdk.Lib.MapTraversal
import PolkadotSdk.Lib.UndoLog

/-! # The proof recorder

`Recorder` collects the trie nodes that were accessed and, per storage root and key, how far an
access was recorded. Transactions keep the hashes of the nodes they added and the old states of
the keys they changed: a rollback takes them back, a commit hands them to the parent.
-/

namespace PolkadotSdk.Trie.Recording

open Std OrderedMap MapTraversal UndoLog

inductive RecordedForKey where
  | value
  | hash
  | none
  deriving DecidableEq, Repr

/-- What the trie reports to its recorder; `O` is a decoded node, `N` an encoded one. -/
inductive TrieAccess (H K N O : Type) where
  | nodeOwned (hash : H) (nodeOwned : O)
  | encodedNode (hash : H) (encodedNode : N)
  | value (hash : H) (value : N) (fullKey : K)
  | hash (fullKey : K)
  | nonExisting (fullKey : K)
  | inlineValue (fullKey : K)

structure Codec (N O : Type) where
  toEncoded : O → N
  encodedSize : N → Nat

/-- The old states of keys, `none` for a key not recorded before, and the nodes it added. -/
structure Transaction (H K : Type) [LinearOrder H] [LinearOrder K] where
  recordedKeys : ExtTreeMap (H ×ₗ K) (Option RecordedForKey) := ∅
  accessedNodes : ExtTreeSet H := ∅

structure Recorder (H K N : Type) [LinearOrder H] [LinearOrder K] where
  recordedKeys : ExtTreeMap (H ×ₗ K) RecordedForKey := ∅
  transactions : List (Transaction H K) := []
  accessedNodes : ExtTreeMap H N := ∅
  ignoredNodes : ExtTreeSet H := ∅
  encodedSizeEstimation : Nat := 0

variable {H K N O : Type} [LinearOrder H] [LinearOrder K]

instance lawfulEqOrd_lex : LawfulEqOrd (H ×ₗ K) where
  eq_of_compare := (compare_eq_iff_eq (α := H ×ₗ K)).mp

def withIgnoredNodes (ignoredNodes : ExtTreeSet H) : Recorder H K N := { ignoredNodes }

/-! ## Recording -/

def onLast (f : Transaction H K → Transaction H K) : List (Transaction H K) → List (Transaction H K)
  | [] => []
  | tx :: rest => f tx :: rest

def Transaction.addNode (hash : H) (tx : Transaction H K) : Transaction H K :=
  { tx with accessedNodes := tx.accessedNodes.insert hash }

/-- Keep the old state of a key, once per transaction. -/
def Transaction.keepKey (key : H ×ₗ K) (old : Option RecordedForKey) (tx : Transaction H K) :
    Transaction H K :=
  { tx with recordedKeys := tx.recordedKeys.insertIfNew key old }

namespace Recorder

def recordNode (encodedSize : N → Nat) (hash : H) (node : N) (s : Recorder H K N) :
    Recorder H K N :=
  match s.accessedNodes[hash]? with
  | some _ => s
  | none =>
    { s with
      accessedNodes := s.accessedNodes.insert hash node
      transactions := onLast (.addNode hash) s.transactions
      encodedSizeEstimation := s.encodedSizeEstimation + encodedSize node }

def setKey (key : H ×ₗ K) (access : RecordedForKey) (s : Recorder H K N) : Recorder H K N :=
  { s with
    recordedKeys := s.recordedKeys.insert key access
    transactions := onLast (.keepKey key s.recordedKeys[key]?) s.transactions }

/-- Only an access to the value changes what is recorded for a key already. -/
def updateRecordedKeys (storageRoot : H) (fullKey : K) (access : RecordedForKey)
    (s : Recorder H K N) : Recorder H K N :=
  match s.recordedKeys[toLex (storageRoot, fullKey)]? with
  | some _ => if access = .value then s.setKey (toLex (storageRoot, fullKey)) access else s
  | none => s.setKey (toLex (storageRoot, fullKey)) access

def record (codec : Codec N O) (storageRoot : H) (s : Recorder H K N) :
    TrieAccess H K N O → Recorder H K N
  | .nodeOwned hash nodeOwned =>
    if hash ∈ s.ignoredNodes then s
    else s.recordNode codec.encodedSize hash (codec.toEncoded nodeOwned)
  | .encodedNode hash encodedNode =>
    if hash ∈ s.ignoredNodes then s else s.recordNode codec.encodedSize hash encodedNode
  | .value hash value fullKey =>
    -- the value of an ignored node is not noted for its key either
    if hash ∈ s.ignoredNodes then s
    else (s.recordNode codec.encodedSize hash value).updateRecordedKeys storageRoot fullKey .value
  | .hash fullKey => s.updateRecordedKeys storageRoot fullKey .hash
  | .nonExisting fullKey => s.updateRecordedKeys storageRoot fullKey .value
  | .inlineValue fullKey => s.updateRecordedKeys storageRoot fullKey .value

def trieNodesRecordedForKey (s : Recorder H K N) (storageRoot : H) (key : K) : RecordedForKey :=
  s.recordedKeys[toLex (storageRoot, key)]?.getD .none

def estimateEncodedSize (s : Recorder H K N) : Nat := s.encodedSizeEstimation

/-! ## Transactions -/

def startTransaction (s : Recorder H K N) : Recorder H K N :=
  { s with transactions := {} :: s.transactions }

def removeNode (encodedSize : N → Nat) (s : Recorder H K N) (hash : H) : Recorder H K N :=
  match s.accessedNodes[hash]? with
  | some old =>
    { s with
      accessedNodes := s.accessedNodes.erase hash
      encodedSizeEstimation := s.encodedSizeEstimation - encodedSize old }
  | none => s

def restoreKeys (recordedKeys : ExtTreeMap (H ×ₗ K) RecordedForKey) (tx : Transaction H K) :
    ExtTreeMap (H ×ₗ K) RecordedForKey :=
  tx.recordedKeys.toList.foldl (fun keys entry => putOrErase keys entry.1 entry.2) recordedKeys

/-- `none` is the error that there was no transaction. -/
def rollbackTransaction (encodedSize : N → Nat) (s : Recorder H K N) : Option (Recorder H K N) :=
  match s.transactions with
  | [] => none
  | tx :: rest =>
    let s := tx.accessedNodes.toList.foldl (removeNode encodedSize) { s with transactions := rest }
    some { s with recordedKeys := restoreKeys s.recordedKeys tx }

end Recorder

/-- A committed transaction becomes part of its parent, whose own old states are older. -/
def Transaction.extend (parent tx : Transaction H K) : Transaction H K where
  accessedNodes := tx.accessedNodes.toList.foldl (·.insert ·) parent.accessedNodes
  recordedKeys := tx.recordedKeys.toList.foldl (fun keys entry => keys.insertIfNew entry.1 entry.2)
    parent.recordedKeys

namespace Recorder

def commitTransaction (s : Recorder H K N) : Option (Recorder H K N) :=
  match s.transactions with
  | [] => none
  | tx :: rest => some { s with transactions := onLast (·.extend tx) rest }

end Recorder

/-! ## Runs -/

inductive Op (H K N O : Type) where
  | record (storageRoot : H) (access : TrieAccess H K N O)
  | startTransaction
  | commitTransaction
  | rollbackTransaction

def Op.kind : Op H K N O → Kind
  | .record _ _ => .change
  | .startTransaction => .start
  | .commitTransaction => .commit
  | .rollbackTransaction => .rollback

/-- A refused commit or rollback changes nothing. -/
def Recorder.step (codec : Codec N O) (s : Recorder H K N) : Op H K N O → Recorder H K N
  | .record storageRoot access => s.record codec storageRoot access
  | .startTransaction => s.startTransaction
  | .commitTransaction => s.commitTransaction.getD s
  | .rollbackTransaction => (s.rollbackTransaction codec.encodedSize).getD s

def Recorder.run (codec : Codec N O) (s : Recorder H K N) (ops : List (Op H K N O)) :
    Recorder H K N :=
  ops.foldl (Recorder.step codec) s

/-! ## What the transactions keep -/

abbrev Lookups (H K N : Type) := (H → Option N) × (H ×ₗ K → Option RecordedForKey)

/-- A transaction only adds nodes, so none of those it logs was there before. -/
def Transaction.nodeLog (tx : Transaction H K) (hash : H) : Option (Option N) :=
  if hash ∈ tx.accessedNodes then some none else none

def Transaction.keyLog (tx : Transaction H K) (key : H ×ₗ K) : Option (Option RecordedForKey) :=
  tx.recordedKeys[key]?

def Transaction.undo (tx : Transaction H K) (lookups : Lookups H K N) : Lookups H K N :=
  (UndoLog.undo tx.nodeLog lookups.1, UndoLog.undo tx.keyLog lookups.2)

namespace Recorder

def shown (s : Recorder H K N) : Lookups H K N :=
  (fun hash => s.accessedNodes[hash]?, fun key => s.recordedKeys[key]?)

def saved (s : Recorder H K N) : List (Lookups H K N) :=
  snapshots Transaction.undo s.shown s.transactions

end Recorder

theorem snapshots_onLast {f : Transaction H K → Transaction H K} {lookups lookups' : Lookups H K N}
    (h : ∀ tx : Transaction H K, (f tx).undo lookups' = tx.undo lookups)
    (txs : List (Transaction H K)) :
    snapshots Transaction.undo lookups' (onLast f txs) = snapshots Transaction.undo lookups txs := by
  cases txs with
  | nil => rfl
  | cons tx rest => exact snapshots_write (h tx) rest

namespace Recorder

/-- Recording adds a node, sets a key, or does both. -/
theorem record_rule {codec : Codec N O} {P : Recorder H K N → Prop}
    (hnode : ∀ s hash node, P s → P (s.recordNode codec.encodedSize hash node))
    (hkey : ∀ s key access, P s → P (s.setKey key access)) {s : Recorder H K N} (h : P s)
    (storageRoot : H) (access : TrieAccess H K N O) : P (s.record codec storageRoot access) := by
  have hkeys : ∀ s fullKey access, P s → P (s.updateRecordedKeys storageRoot fullKey access) := by
    intro s fullKey access hs
    unfold updateRecordedKeys
    split
    · split
      · exact hkey s _ access hs
      · exact hs
    · exact hkey s _ access hs
  have hignored : ∀ (hash : H) (s' : Recorder H K N), P s' →
      P (if hash ∈ s.ignoredNodes then s else s') := by
    intro hash s' hs'
    split
    · exact h
    · exact hs'
  cases access with
  | nodeOwned hash nodeOwned => exact hignored hash _ (hnode s hash _ h)
  | encodedNode hash encodedNode => exact hignored hash _ (hnode s hash _ h)
  | value hash value fullKey => exact hignored hash _ (hkeys _ fullKey _ (hnode s hash _ h))
  | hash fullKey => exact hkeys s fullKey _ h
  | nonExisting fullKey => exact hkeys s fullKey _ h
  | inlineValue fullKey => exact hkeys s fullKey _ h

theorem saved_recordNode (encodedSize : N → Nat) (hash : H) (node : N) (s : Recorder H K N) :
    (s.recordNode encodedSize hash node).saved = s.saved := by
  unfold recordNode
  split
  · rfl
  · rename_i hnone
    apply snapshots_onLast
    intro tx
    refine Prod.ext (undo_of_write hash ?_ ?_) rfl
    · intro other hne
      simp [shown, OrderedMap.getElem?_insert, hne.symm]
    · intro other
      by_cases heq : other = hash
      · subst heq
        by_cases hmem : other ∈ tx.accessedNodes <;>
          simp [Transaction.nodeLog, Transaction.addNode, shown, hnone, hmem]
      · simp [Transaction.nodeLog, Transaction.addNode, heq, Ne.symm heq]

theorem saved_setKey (key : H ×ₗ K) (access : RecordedForKey) (s : Recorder H K N) :
    (s.setKey key access).saved = s.saved := by
  apply snapshots_onLast
  intro tx
  refine Prod.ext rfl (undo_of_write key ?_ ?_)
  · intro other hne
    simp [shown, setKey, OrderedMap.getElem?_insert, hne.symm]
  · intro other
    rw [Transaction.keyLog, Transaction.keepKey, OrderedMap.getElem?_insertIfNew, Transaction.keyLog]
    by_cases heq : other = key
    · subst heq
      cases tx.recordedKeys[other]? <;> simp [shown]
    · simp [Transaction.keyLog, heq, Ne.symm heq]

theorem saved_record (codec : Codec N O) (storageRoot : H) (s : Recorder H K N)
    (access : TrieAccess H K N O) : (s.record codec storageRoot access).saved = s.saved :=
  record_rule (P := fun s' => s'.saved = s.saved)
    (fun s' hash node h => (saved_recordNode codec.encodedSize hash node s').trans h)
    (fun s' key access h => (saved_setKey key access s').trans h) rfl storageRoot access

end Recorder

theorem Transaction.undo_extend (parent tx : Transaction H K) (lookups : Lookups H K N) :
    (parent.extend tx).undo lookups = parent.undo (tx.undo lookups) := by
  have hnodes : ((parent.extend tx).nodeLog : H → Option (Option N)) =
      merge parent.nodeLog tx.nodeLog := by
    funext hash
    have hmem : hash ∈ (parent.extend tx).accessedNodes ↔
        hash ∈ parent.accessedNodes ∨ hash ∈ tx.accessedNodes := by
      rw [Transaction.extend, OrderedMap.mem_insertAll, ExtTreeSet.mem_toList]
    by_cases hparent : hash ∈ parent.accessedNodes <;>
      simp [merge, Transaction.nodeLog, hmem, hparent]
  have hkeys : (parent.extend tx).keyLog = merge parent.keyLog tx.keyLog := by
    funext key
    rw [Transaction.keyLog, Transaction.extend, merge, Transaction.keyLog, Transaction.keyLog,
      getElem?_foldl_toList (g := fun old value => some (old.getD value))]
    · cases parent.recordedKeys[key]? <;> cases tx.recordedKeys[key]? <;> rfl
    · intro keys entry
      rw [OrderedMap.getElem?_insertIfNew, if_pos rfl]
    · intro keys entry other hne
      rw [OrderedMap.getElem?_insertIfNew, if_neg hne.symm]
  exact Prod.ext (by rw [undo, hnodes, undo_merge]; rfl) (by rw [undo, hkeys, undo_merge]; rfl)

namespace Recorder

theorem saved_commitTransaction {s s' : Recorder H K N} (h : s.commitTransaction = some s') :
    s'.shown = s.shown ∧ s'.saved = s.saved.tail := by
  unfold commitTransaction at h
  split at h
  · cases h
  · rename_i tx rest htxs
    cases h
    refine ⟨rfl, ?_⟩
    unfold saved
    rw [htxs]
    cases rest with
    | nil => rfl
    | cons parent rest =>
      rw [snapshots_commit (Transaction.undo_extend parent tx s.shown)]
      rfl

/-! ## Rolling back -/

theorem removeNode_accessedNodes (encodedSize : N → Nat) (s : Recorder H K N) (hash : H) :
    (removeNode encodedSize s hash).accessedNodes = s.accessedNodes.erase hash := by
  unfold removeNode
  split
  · rfl
  · exact (erase_of_none ‹_›).symm

theorem removeNode_others (encodedSize : N → Nat) (s : Recorder H K N) (hash : H) :
    (removeNode encodedSize s hash).recordedKeys = s.recordedKeys ∧
      (removeNode encodedSize s hash).transactions = s.transactions := by
  unfold removeNode
  split
  · exact ⟨rfl, rfl⟩
  · exact ⟨rfl, rfl⟩

theorem removeNodes_spec (encodedSize : N → Nat) (hashes : List H) (s : Recorder H K N) :
    (hashes.foldl (removeNode encodedSize) s).accessedNodes =
        hashes.foldl (·.erase ·) s.accessedNodes ∧
      (hashes.foldl (removeNode encodedSize) s).recordedKeys = s.recordedKeys ∧
      (hashes.foldl (removeNode encodedSize) s).transactions = s.transactions := by
  induction hashes generalizing s with
  | nil => exact ⟨rfl, rfl, rfl⟩
  | cons hash hashes ih =>
    obtain ⟨hnodes, hkeys, htxs⟩ := ih (removeNode encodedSize s hash)
    rw [removeNode_accessedNodes] at hnodes
    rw [(removeNode_others encodedSize s hash).1] at hkeys
    rw [(removeNode_others encodedSize s hash).2] at htxs
    exact ⟨hnodes, hkeys, htxs⟩

theorem getElem?_restoreKeys (recordedKeys : ExtTreeMap (H ×ₗ K) RecordedForKey)
    (tx : Transaction H K) (key : H ×ₗ K) :
    (restoreKeys recordedKeys tx)[key]? = (tx.keyLog key).getD recordedKeys[key]? := by
  have hget := getElem?_foldl_toList (g := fun _ old => old)
    (fun keys entry => getElem?_putOrErase_self keys entry.1 entry.2)
    (fun keys entry other => getElem?_putOrErase_other keys entry.2) tx.recordedKeys recordedKeys key
  rw [restoreKeys, hget, Transaction.keyLog]
  cases tx.recordedKeys[key]? <;> rfl

variable {encodedSize : N → Nat}

theorem rollbackTransaction_spec {s : Recorder H K N} {tx : Transaction H K}
    {rest : List (Transaction H K)} (h : s.transactions = tx :: rest) :
    ∃ s', s.rollbackTransaction encodedSize = some s' ∧ s'.shown = tx.undo s.shown ∧
      s'.transactions = rest := by
  obtain ⟨hnodes, hkeys, hrest⟩ := removeNodes_spec encodedSize tx.accessedNodes.toList
    { s with transactions := rest }
  rw [rollbackTransaction, h]
  refine ⟨_, rfl, Prod.ext (funext fun hash => ?_) (funext fun key => ?_), hrest⟩
  · have hget := OrderedMap.getElem?_eraseAll tx.accessedNodes.toList s.accessedNodes hash
    rw [← hnodes] at hget
    refine hget.trans ?_
    by_cases hmem : hash ∈ tx.accessedNodes <;>
      simp [Transaction.undo, UndoLog.undo, Transaction.nodeLog, shown, hmem]
  · refine (getElem?_restoreKeys _ tx key).trans ?_
    rw [hkeys]
    rfl

theorem saved_rollbackTransaction {s s' : Recorder H K N}
    (h : s.rollbackTransaction encodedSize = some s') :
    s'.saved = s.saved.tail ∧ ∀ old ∈ s.saved.head?, s'.shown = old := by
  cases htxs : s.transactions with
  | nil => simp [rollbackTransaction, htxs] at h
  | cons tx rest =>
    obtain ⟨s'', hroll, hshown, hrest⟩ := rollbackTransaction_spec htxs
    obtain rfl : s'' = s' := Option.some.inj (hroll.symm.trans h)
    have hsaved : s.saved = tx.undo s.shown :: s''.saved := by
      rw [saved, saved, htxs, hrest, hshown]
      rfl
    rw [hsaved]
    exact ⟨rfl, fun old hold => hshown.trans (Option.mem_some_iff.mp hold)⟩

theorem commitTransaction_eq_none {s : Recorder H K N} :
    s.commitTransaction = none ↔ s.saved = [] := by
  unfold commitTransaction saved
  cases s.transactions <;> simp [snapshots]

theorem rollbackTransaction_eq_none {s : Recorder H K N} :
    s.rollbackTransaction encodedSize = none ↔ s.saved = [] := by
  unfold rollbackTransaction saved
  cases s.transactions <;> simp [snapshots]

end Recorder

def journal (codec : Codec N O) : Journal (Recorder H K N) (Op H K N O) (Lookups H K N) where
  step := Recorder.step codec
  kind := Op.kind
  shown := Recorder.shown
  saved := Recorder.saved
  change s op hop := by
    cases op with
    | record storageRoot access => exact s.saved_record codec storageRoot access
    | _ => cases hop
  start s op hop := by
    cases op with
    | startTransaction =>
      refine ⟨rfl, snapshots_start (Prod.ext (funext fun hash => ?_) (funext fun key => ?_)) _⟩
      · simp [Transaction.undo, UndoLog.undo, Transaction.nodeLog, Recorder.shown]
      · simp [Transaction.undo, UndoLog.undo, Transaction.keyLog, Recorder.shown]
    | _ => cases hop
  commit s op hop := by
    cases op with
    | commitTransaction =>
      cases hcommit : s.commitTransaction with
      | none =>
        rw [Recorder.step, hcommit, Option.getD_none,
          Recorder.commitTransaction_eq_none.mp hcommit]
        exact ⟨rfl, rfl⟩
      | some s' =>
        rw [Recorder.step, hcommit]
        exact Recorder.saved_commitTransaction hcommit
    | _ => cases hop
  rollback s op hop := by
    cases op with
    | rollbackTransaction =>
      cases hroll : s.rollbackTransaction codec.encodedSize with
      | none =>
        rw [Recorder.step, hroll, Option.getD_none,
          Recorder.rollbackTransaction_eq_none.mp hroll]
        exact ⟨rfl, by simp⟩
      | some s' =>
        rw [Recorder.step, hroll]
        exact Recorder.saved_rollbackTransaction hroll
    | _ => cases hop

/-! ## The size estimation -/

namespace Recorder

/-- The estimation is the sum of the sizes of the accessed nodes. -/
def Sized (encodedSize : N → Nat) (s : Recorder H K N) : Prop :=
  s.encodedSizeEstimation = total (fun _ node => encodedSize node) s.accessedNodes

variable {encodedSize : N → Nat} {s : Recorder H K N}

theorem Sized.recordNode (h : s.Sized encodedSize) (hash : H) (node : N) :
    (s.recordNode encodedSize hash node).Sized encodedSize := by
  unfold Recorder.recordNode
  split
  · exact h
  · unfold Sized
    rw [total_insert_of_none ‹_›, ← h, Nat.add_comm]

theorem Sized.removeNode (h : s.Sized encodedSize) (hash : H) :
    (Recorder.removeNode encodedSize s hash).Sized encodedSize := by
  unfold Recorder.removeNode
  split
  · rename_i hget
    have htotal := total_erase_of_some (f := fun _ node => encodedSize node) hget
    unfold Sized at h ⊢
    simp only
    omega
  · exact h

theorem Sized.removeNodes (h : s.Sized encodedSize) (hashes : List H) :
    (hashes.foldl (Recorder.removeNode encodedSize) s).Sized encodedSize := by
  induction hashes generalizing s with
  | nil => exact h
  | cons hash hashes ih => exact ih (h.removeNode hash)

theorem Sized.commitTransaction {s s' : Recorder H K N} (h : s.Sized encodedSize)
    (hcommit : s.commitTransaction = some s') : s'.Sized encodedSize := by
  unfold Recorder.commitTransaction at hcommit
  split at hcommit
  · cases hcommit
  · cases hcommit
    exact h

theorem Sized.rollbackTransaction {s s' : Recorder H K N} (h : s.Sized encodedSize)
    (hroll : s.rollbackTransaction encodedSize = some s') :
    s'.Sized encodedSize := by
  unfold Recorder.rollbackTransaction at hroll
  split at hroll
  · cases hroll
  · rename_i tx rest _
    cases hroll
    exact Sized.removeNodes (s := { s with transactions := rest }) h tx.accessedNodes.toList

theorem Sized.step {codec : Codec N O} {s : Recorder H K N} (h : s.Sized codec.encodedSize)
    (op : Op H K N O) : (s.step codec op).Sized codec.encodedSize := by
  cases op with
  | record storageRoot access =>
    exact record_rule (fun _ hash node hs => hs.recordNode hash node) (fun _ _ _ hs => hs) h
      storageRoot access
  | startTransaction => exact h
  | commitTransaction =>
    unfold Recorder.step
    cases hcommit : s.commitTransaction with
    | none => exact h
    | some s' => exact h.commitTransaction hcommit
  | rollbackTransaction =>
    unfold Recorder.step
    cases hroll : s.rollbackTransaction codec.encodedSize with
    | none => exact h
    | some s' => exact h.rollbackTransaction hroll

theorem Sized.run {codec : Codec N O} (h : s.Sized codec.encodedSize) (ops : List (Op H K N O)) :
    (s.run codec ops).Sized codec.encodedSize := by
  induction ops generalizing s with
  | nil => exact h
  | cons op ops ih => exact ih (h.step op)

/-- Two recorders that hold the same nodes and give the same answers. -/
structure SameRecording (s s' : Recorder H K N) : Prop where
  accessedNodes : s'.accessedNodes = s.accessedNodes
  recorded : ∀ storageRoot key,
    s'.trieNodesRecordedForKey storageRoot key = s.trieNodesRecordedForKey storageRoot key
  size : s'.estimateEncodedSize = s.estimateEncodedSize

theorem sameRecording_of_shown {s s' : Recorder H K N} (hs : s.Sized encodedSize)
    (hs' : s'.Sized encodedSize) (h : s'.shown = s.shown) :
    SameRecording s s' := by
  have hnodes : s'.accessedNodes = s.accessedNodes :=
    ExtTreeMap.ext_getElem? fun hash => congrFun (congrArg Prod.fst h) hash
  refine ⟨hnodes, fun storageRoot key => ?_, ?_⟩
  · have hkey := congrFun (congrArg Prod.snd h) (toLex (storageRoot, key))
    exact congrArg (Option.getD · .none) hkey
  · rw [estimateEncodedSize, estimateEncodedSize, hs, hs', hnodes]

/-- The estimation is the sum of the accessed nodes' sizes; closing a transaction after any properly
nested operations by a rollback restores the recording at its start, and by a commit keeps the
recording. -/
theorem transactions_exact (codec : Codec N O) (ignoredNodes : ExtTreeSet H)
    (ops : List (Op H K N O)) :
    let s := (withIgnoredNodes ignoredNodes : Recorder H K N).run codec ops
    s.estimateEncodedSize = total (fun _ node => codec.encodedSize node) s.accessedNodes ∧
    ∀ body, Nested Op.kind body →
      let inner := s.startTransaction.run codec body
      (∃ s', inner.rollbackTransaction codec.encodedSize = some s' ∧ SameRecording s s') ∧
      ∃ s', inner.commitTransaction = some s' ∧ SameRecording inner s' := by
  intro s
  have hinitial : (withIgnoredNodes ignoredNodes : Recorder H K N).Sized codec.encodedSize := rfl
  have hs : s.Sized codec.encodedSize := hinitial.run ops
  refine ⟨hs, fun body hbody => ?_⟩
  intro inner
  have hinner : inner.Sized codec.encodedSize := Sized.run (s := s.startTransaction) hs body
  -- the operations since the start leave what it saved on top of the stack
  have hsaved : inner.saved = s.shown :: s.saved :=
    ((journal codec).saved_run_of_nested hbody s.startTransaction).trans
      ((journal codec).start s .startTransaction rfl).2
  have hopen : inner.saved ≠ [] := by simp [hsaved]
  constructor
  · obtain ⟨s', hroll⟩ := Option.ne_none_iff_exists'.mp
      (mt (rollbackTransaction_eq_none (s := inner)).mp hopen)
    have hshown := (saved_rollbackTransaction hroll).2 s.shown (by rw [hsaved]; rfl)
    exact ⟨s', hroll, sameRecording_of_shown hs (hinner.rollbackTransaction hroll) hshown⟩
  · obtain ⟨s', hcommit⟩ := Option.ne_none_iff_exists'.mp (mt commitTransaction_eq_none.mp hopen)
    exact ⟨s', hcommit, sameRecording_of_shown hinner (hinner.commitTransaction hcommit)
      (saved_commitTransaction hcommit).1⟩

/-- A value that an inner, committed transaction upgrades to is taken back with the outer one. -/
theorem transactions_exact_upgrade :
    let codec : Codec Nat Nat := ⟨id, fun node => node + 1⟩
    let s := (withIgnoredNodes ∅ : Recorder Nat Nat Nat).run codec [.record 0 (.hash 7)]
    let inner := s.startTransaction.run codec
      [.record 0 (.encodedNode 1 5), .startTransaction, .record 0 (.value 2 4 7),
        .commitTransaction]
    ∃ s', inner.rollbackTransaction codec.encodedSize = some s' ∧ SameRecording s s' :=
  ((transactions_exact ⟨id, fun node => node + 1⟩ ∅ [.record 0 (.hash 7)]).2 _
    (.change rfl (@Nested.block _ _ .startTransaction .commitTransaction
      [.record 0 (.value 2 4 7)] [] rfl (.inl rfl) (.change rfl .nil) .nil))).1

end Recorder

/-! ## Draining and resetting -/

namespace Recorder

def toStorageProof [LinearOrder N] (s : Recorder H K N) : ExtTreeSet N :=
  .ofList (s.accessedNodes.toList.map Prod.snd)

/-- The inner state is replaced by the default one, which ignores no node. -/
def takeInner (s : Recorder H K N) : Recorder H K N :=
  { s with recordedKeys := ∅, transactions := [], accessedNodes := ∅, ignoredNodes := ∅ }

/-- The proof, and what the clones are left with: the counter is not part of the inner state. -/
def drainStorageProof [LinearOrder N] (s : Recorder H K N) : ExtTreeSet N × Recorder H K N :=
  (s.toStorageProof, s.takeInner)

def reset (s : Recorder H K N) : Recorder H K N := { s.takeInner with encodedSizeEstimation := 0 }

def observe [LinearOrder N] (s : Recorder H K N) :
    ExtTreeSet N × ExtTreeMap (H ×ₗ K) RecordedForKey × Nat :=
  (s.toStorageProof, s.recordedKeys, s.estimateEncodedSize)

def ignoring (ignoredNodes : ExtTreeSet H) (s : Recorder H K N) : Recorder H K N :=
  { s with ignoredNodes }

end Recorder

def TrieAccess.node : TrieAccess H K N O → Option H
  | .nodeOwned node _ => some node
  | .encodedNode node _ => some node
  | .value node _ _ => some node
  | .hash _ => none
  | .nonExisting _ => none
  | .inlineValue _ => none

def Op.Avoids (nodes : ExtTreeSet H) : Op H K N O → Prop
  | .record _ access => ∀ hash ∈ access.node, hash ∉ nodes
  | _ => True

namespace Recorder

@[simp] theorem ignoredNodes_ignoring (ignoredNodes : ExtTreeSet H) (s : Recorder H K N) :
    (ignoring ignoredNodes s).ignoredNodes = ignoredNodes :=
  rfl

theorem recordNode_ignoring (encodedSize : N → Nat) (hash : H) (node : N) (s : Recorder H K N)
    (ignoredNodes : ExtTreeSet H) :
    (ignoring ignoredNodes s).recordNode encodedSize hash node =
      ignoring ignoredNodes (s.recordNode encodedSize hash node) := by
  unfold recordNode ignoring
  cases s.accessedNodes[hash]? <;> rfl

theorem updateRecordedKeys_ignoring (storageRoot : H) (fullKey : K) (access : RecordedForKey)
    (s : Recorder H K N) (ignoredNodes : ExtTreeSet H) :
    (ignoring ignoredNodes s).updateRecordedKeys storageRoot fullKey access =
      ignoring ignoredNodes (s.updateRecordedKeys storageRoot fullKey access) := by
  unfold updateRecordedKeys ignoring
  cases s.recordedKeys[toLex (storageRoot, fullKey)]? with
  | none => rfl
  | some old => cases access <;> rfl

theorem removeNode_ignoring (encodedSize : N → Nat) (s : Recorder H K N) (hash : H)
    (ignoredNodes : ExtTreeSet H) :
    (ignoring ignoredNodes s).removeNode encodedSize hash =
      ignoring ignoredNodes (s.removeNode encodedSize hash) := by
  unfold removeNode ignoring
  cases s.accessedNodes[hash]? <;> rfl

variable {ignoredNodes : ExtTreeSet H}

theorem record_ignoring {codec : Codec N O} (s : Recorder H K N) (storageRoot : H)
    {access : TrieAccess H K N O} (hold : ∀ hash ∈ access.node, hash ∉ s.ignoredNodes)
    (hnew : ∀ hash ∈ access.node, hash ∉ ignoredNodes) :
    (ignoring ignoredNodes s).record codec storageRoot access =
      ignoring ignoredNodes (s.record codec storageRoot access) := by
  cases access with
  | nodeOwned hash nodeOwned =>
    rw [record, record, ignoredNodes_ignoring, if_neg (hnew hash rfl), if_neg (hold hash rfl),
      recordNode_ignoring]
  | encodedNode hash encodedNode =>
    rw [record, record, ignoredNodes_ignoring, if_neg (hnew hash rfl), if_neg (hold hash rfl),
      recordNode_ignoring]
  | value hash value fullKey =>
    rw [record, record, ignoredNodes_ignoring, if_neg (hnew hash rfl), if_neg (hold hash rfl),
      recordNode_ignoring, updateRecordedKeys_ignoring]
  | hash fullKey => exact updateRecordedKeys_ignoring storageRoot fullKey .hash s ignoredNodes
  | nonExisting fullKey =>
    exact updateRecordedKeys_ignoring storageRoot fullKey .value s ignoredNodes
  | inlineValue fullKey =>
    exact updateRecordedKeys_ignoring storageRoot fullKey .value s ignoredNodes

theorem removeNodes_ignoring (encodedSize : N → Nat) (hashes : List H) (s : Recorder H K N)
    (ignoredNodes : ExtTreeSet H) :
    hashes.foldl (removeNode encodedSize) (ignoring ignoredNodes s) =
      ignoring ignoredNodes (hashes.foldl (removeNode encodedSize) s) := by
  induction hashes generalizing s with
  | nil => rfl
  | cons hash hashes ih => rw [List.foldl_cons, removeNode_ignoring, ih, List.foldl_cons]

theorem step_ignoring (codec : Codec N O) (s : Recorder H K N) {op : Op H K N O}
    (hold : op.Avoids s.ignoredNodes) (hnew : op.Avoids ignoredNodes) :
    (ignoring ignoredNodes s).step codec op = ignoring ignoredNodes (s.step codec op) := by
  cases op with
  | record storageRoot access => exact record_ignoring s storageRoot hold hnew
  | startTransaction => rfl
  | commitTransaction =>
    cases htxs : s.transactions <;> simp [step, commitTransaction, ignoring, htxs]
  | rollbackTransaction =>
    cases htxs : s.transactions with
    | nil => simp [step, rollbackTransaction, ignoring, htxs]
    | cons tx rest =>
      have hnodes := removeNodes_ignoring codec.encodedSize tx.accessedNodes.toList
        { s with transactions := rest } ignoredNodes
      simp only [step, rollbackTransaction, ignoring, htxs, Option.getD_some] at hnodes ⊢
      rw [hnodes]

theorem step_ignoredNodes (codec : Codec N O) (s : Recorder H K N) (op : Op H K N O) :
    (s.step codec op).ignoredNodes = s.ignoredNodes := by
  cases op with
  | record storageRoot access =>
    exact record_rule (P := fun s' => s'.ignoredNodes = s.ignoredNodes)
      (fun s' hash node hs => by
        unfold recordNode
        cases s'.accessedNodes[hash]? <;> exact hs)
      (fun _ _ _ hs => hs) rfl storageRoot access
  | startTransaction => rfl
  | commitTransaction => cases htxs : s.transactions <;> simp [step, commitTransaction, htxs]
  | rollbackTransaction =>
    cases htxs : s.transactions with
    | nil => simp [step, rollbackTransaction, htxs]
    | cons tx rest =>
      -- removing nodes commutes with setting the ignored nodes to what they are
      have hnodes := removeNodes_ignoring codec.encodedSize tx.accessedNodes.toList
        { s with transactions := rest } s.ignoredNodes
      simp only [step, rollbackTransaction, htxs, Option.getD_some]
      exact (congrArg (·.ignoredNodes) hnodes :)

theorem run_ignoring {codec : Codec N O} {ops : List (Op H K N O)}
    (h : ∀ op ∈ ops, op.Avoids ignoredNodes) {s : Recorder H K N} (hs : s.ignoredNodes = ∅) :
    (ignoring ignoredNodes s).run codec ops = ignoring ignoredNodes (s.run codec ops) := by
  induction ops generalizing s with
  | nil => rfl
  | cons op ops ih =>
    have hold : op.Avoids s.ignoredNodes := by
      rw [hs]
      cases op <;> simp [Op.Avoids]
    have hstep := step_ignoring codec s hold (h op List.mem_cons_self)
    have hnext : (s.step codec op).ignoredNodes = ∅ := (step_ignoredNodes codec s op).trans hs
    calc (ignoring ignoredNodes s).run codec (op :: ops)
        = ((ignoring ignoredNodes s).step codec op).run codec ops := rfl
      _ = (ignoring ignoredNodes (s.step codec op)).run codec ops := by rw [hstep]
      _ = ignoring ignoredNodes (s.run codec (op :: ops)) :=
          ih (fun op hop => h op (List.mem_cons_of_mem _ hop)) hnext

/-- As long as no node is reported that was to be ignored, a recorder that was reset is like a new
one, and so is one that was drained while the estimation was 0. -/
theorem cleared_like_fresh [LinearOrder N] (codec : Codec N O) (ignoredNodes : ExtTreeSet H)
    (history ops : List (Op H K N O)) (hops : ∀ op ∈ ops, op.Avoids ignoredNodes) :
    let fresh : Recorder H K N := withIgnoredNodes ignoredNodes
    let s := fresh.run codec history
    observe (s.reset.run codec ops) = observe (fresh.run codec ops) ∧
      (s.estimateEncodedSize = 0 →
        observe (s.drainStorageProof.2.run codec ops) = observe (fresh.run codec ops)) := by
  intro fresh s
  have hfresh : observe (fresh.run codec ops) =
      observe (({} : Recorder H K N).run codec ops) := by
    rw [show fresh = ignoring ignoredNodes {} from rfl, run_ignoring hops rfl]
    rfl
  constructor
  · rw [hfresh]
    rfl
  · intro hzero
    have hdrained : s.drainStorageProof.2 = {} := by
      rw [drainStorageProof, takeInner, show s.encodedSizeEstimation = 0 from hzero]
    rw [hfresh, hdrained]

/-- Node 2 is to be ignored; its own bytes are its size. -/
theorem cleared_like_fresh_twice :
    let codec : Codec Nat Nat := ⟨id, id⟩
    let ignoredNodes := (∅ : ExtTreeSet Nat).insert 2
    let fresh : Recorder Nat Nat Nat := withIgnoredNodes ignoredNodes
    let history := [Op.startTransaction, .record 0 (.encodedNode 3 9), .rollbackTransaction]
    let ops := [Op.record 0 (.encodedNode 3 9)]
    let s := fresh.run codec history
    observe (s.reset.run codec ops) = observe (fresh.run codec ops) ∧
      observe (s.drainStorageProof.2.run codec ops) = observe (fresh.run codec ops) := by
  intro codec ignoredNodes fresh history ops s
  have hops : ∀ op ∈ ops, op.Avoids ignoredNodes := by
    simp [ops, Op.Avoids, TrieAccess.node, ignoredNodes]
  have h := cleared_like_fresh codec ignoredNodes history ops hops
  exact ⟨h.1, h.2 rfl⟩

/-- After a reset node 2 is recorded, and the estimation outlives the drained proof. -/
theorem cleared_forgets_ignored :
    let codec : Codec Nat Nat := ⟨id, id⟩
    let fresh : Recorder Nat Nat Nat := withIgnoredNodes ((∅ : ExtTreeSet Nat).insert 2)
    let ignored := [Op.record 0 (.encodedNode 2 9)]
    let s := fresh.run codec [Op.record 0 (.encodedNode 3 9)]
    (fresh.run codec ignored).toStorageProof.toList = [] ∧
      (s.reset.run codec ignored).toStorageProof.toList = [9] ∧
      fresh.estimateEncodedSize = 0 ∧ s.drainStorageProof.2.estimateEncodedSize = 9 := by
  decide

end Recorder

end PolkadotSdk.Trie.Recording
