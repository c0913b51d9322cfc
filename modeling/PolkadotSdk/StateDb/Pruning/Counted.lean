import PolkadotSdk.StateDb.Pruning.DbBacked
import PolkadotSdk.StateDb.Pruning.KeySet

/-! # Pruning over a database that counts references

The database-backed queue and the in-memory queue are driven with the same calls. They
agree on the window whatever the blocks change. On what is left in the two databases
they agree if the blocks form a chain: a reference count is the number of times a key
came to life in the kept states, so a block must not insert a key its parent's state
already has.
-/

namespace PolkadotSdk.StateDb

open Std Retention DeathRowQueue

variable {H K : Type} [LinearOrder K]

def applyCounts (counts : K → Nat) (data : ChangeSet K DBValue) (key : K) : Nat :=
  counts key + (data.inserted.map (·.1)).count key - data.deleted.count key

structure TwinRun (H K : Type) [LinearOrder K] where
  mem : KeySetRun H K
  window : RefWindow H K
  metaDb : MetaDb H K
  counts : K → Nat
  noted : Nat → Option (PruningRecord H K)

namespace TwinRun

/-- The capacity the cache of a queue gets for a window size. -/
def capacityFor (windowSize : Nat) : Nat := max 1 (min windowSize defaultMaxBlockConstraint)

def initial (state : Finset K) (windowSize : Nat) : TwinRun H K where
  mem := .initial state
  window := ⟨.dbBacked [] (capacityFor windowSize) none, 0⟩
  metaDb := .empty
  counts key := if key ∈ state then 1 else 0
  noted _ := none

def notedAfter (noted : Nat → Option (PruningRecord H K)) :
    WindowOp H K → Nat → Option (PruningRecord H K)
  | .noteCanonical hash number _ deleted => Function.update noted number (some ⟨hash, [], deleted⟩)
  | .pruneOne => noted

def step (s : TwinRun H K) (op : WindowOp H K) : Option (TwinRun H K) :=
  match s.mem.step op, s.window.call s.metaDb op with
  | some mem, some (.ok (), window, commit) =>
    some ⟨mem, window, s.metaDb.apply commit.metaChanges, applyCounts s.counts commit.data,
      notedAfter s.noted op⟩
  | some mem, some (.error _, window, _) => some { s with mem, window }
  | _, _ => none

/-! ## Agreement on the window -/

/-- The two queues hold the same blocks, from the same one on. -/
structure Agree (s : TwinRun H K) (rows : List (DeathRow H K)) (index : ExtTreeMap K Nat)
    (records : List (PruningRecord H K)) : Prop where
  mem_queue : s.mem.window.queue = .mem rows index
  sound : IndexSound s.mem.window.base rows index
  base_eq : s.window.base = s.mem.window.base
  backed : Backed s.window s.metaDb records
  hashes : rows.map (·.hash) = records.map (·.hash)
  noted : ∀ i, s.noted (s.window.base + i) = records[i]?

namespace Agree

variable {s : TwinRun H K} {rows : List (DeathRow H K)} {index : ExtTreeMap K Nat}
variable {records : List (PruningRecord H K)}

theorem length_eq (h : Agree s rows index records) : rows.length = records.length := by
  simpa using congrArg List.length h.hashes

theorem mem_windowSize (h : Agree s rows index records) :
    s.mem.window.windowSize = records.length := by
  rw [RefWindow.windowSize_of_mem h.mem_queue, h.length_eq]

end Agree

variable (state : Finset K) (windowSize : Nat)

theorem agree_initial :
    Agree (initial state windowSize : TwinRun H K) [] ∅ [] where
  mem_queue := rfl
  sound := by
    intro key block h
    simp at h
  base_eq := rfl
  backed := ⟨⟨[], capacityFor windowSize, none, rfl,
    ⟨List.prefix_rfl, by unfold capacityFor; omega⟩, rfl, rfl⟩, fun i => rfl⟩
  hashes := rfl
  noted := fun i => rfl

theorem step_mem {s t : TwinRun H K} {op : WindowOp H K} (h : s.step op = some t) :
    s.mem.step op = some t.mem := by
  unfold step at h
  split at h
  · rename_i mem _ _ hmem _
    cases h
    exact hmem
  · rename_i mem _ _ _ hmem _
    cases h
    exact hmem
  · cases h

section Agree

variable {s : TwinRun H K} {rows : List (DeathRow H K)} {index : ExtTreeMap K Nat}
variable {records : List (PruningRecord H K)} (h : Agree s rows index records)
include h

theorem note_rejected (hash : H) {number : Nat} (inserted : List (K × DBValue)) (deleted : List K)
    (haccept : RefWindow.acceptBase s.window.base records.length number = none) :
    s.step (.noteCanonical hash number inserted deleted) = some s := by
  have hcall := RefWindow.call_rejected s.metaDb s.window hash inserted deleted
    (h.backed.windowSize_eq ▸ haccept)
  have hmem := KeySetRun.note_rejected hash inserted deleted
    (h.mem_windowSize ▸ h.base_eq ▸ haccept)
  simp [step, hmem, hcall]

theorem note_accepted (hash : H) {number base' : Nat} (inserted : List (K × DBValue))
    (deleted : List K)
    (haccept : RefWindow.acceptBase s.window.base records.length number = some base') :
    ∃ t rows' index', s.step (.noteCanonical hash number inserted deleted) = some t ∧
      Agree t rows' index' (records ++ [⟨hash, [], deleted⟩]) ∧
      t.counts = applyCounts s.counts ⟨inserted, []⟩ := by
  obtain ⟨queue, hcall, hbacked⟩ := h.backed.accepted hash inserted deleted haccept
  rw [h.base_eq, ← h.length_eq] at haccept
  obtain ⟨hnumber, hbase⟩ := RefWindow.acceptBase_eq_some haccept
  obtain ⟨rows', index', himport, hsound, hhash, _⟩ := importMem_spec
    (h.sound.rebase hbase) number ⟨hash, inserted.map (·.1), deleted⟩
  have hmem := RefWindow.call_accepted_mem s.mem.metaDb h.mem_queue hash inserted deleted
    haccept himport
  refine ⟨_, rows' ++ [_], index', by simp only [step, KeySetRun.step, hmem, hcall]; rfl,
    ⟨rfl, hsound, rfl, hbacked, ?_, ?_⟩, rfl⟩
  · simp [hhash, h.hashes, PruningRecord.toDeathRow]
  · intro i
    rw [h.length_eq] at hnumber hbase
    have hold : s.noted (base' + i) = records[i]? := by
      rcases hbase with rfl | ⟨hzero, hnil⟩
      · rw [← h.base_eq, h.noted]
      · obtain rfl := List.length_eq_zero_iff.mp hnil
        have hnone := h.noted (base' + i)
        rw [h.base_eq, hzero, Nat.zero_add] at hnone
        simpa using hnone
    simp only [notedAfter, Function.update_apply, hnumber]
    by_cases heq : i = records.length
    · simp [heq]
    · rw [if_neg (by omega), hold]
      rcases Nat.lt_or_ge i records.length with hlt | hge
      · rw [List.getElem?_append_left hlt]
      · rw [List.getElem?_eq_none (by omega), List.getElem?_eq_none]
        simp only [List.length_append, List.length_singleton]
        omega

end Agree

variable {s : TwinRun H K} {rows : List (DeathRow H K)} {index : ExtTreeMap K Nat}

theorem prune_nil (h : Agree s rows index []) :
    ∃ t, s.step .pruneOne = some t ∧ Agree t rows index [] ∧ t.mem = s.mem ∧
      t.counts = s.counts := by
  obtain ⟨queue, hcall, hbacked⟩ := h.backed.prune_nil .empty
  have hmem : s.mem.step .pruneOne = some s.mem := by
    obtain rfl := List.length_eq_zero_iff.mp h.length_eq
    exact KeySetRun.prune_nil h.mem_queue
  refine ⟨{ s with window.queue := queue }, by simp only [step, hmem, RefWindow.call, hcall], ?_,
    rfl, rfl⟩
  exact ⟨h.mem_queue, h.sound, h.base_eq, hbacked, h.hashes, h.noted⟩

variable {records : List (PruningRecord H K)}

theorem prune_cons {record : PruningRecord H K} (h : Agree s rows index (record :: records)) :
    ∃ t rows' index', s.step .pruneOne = some t ∧ Agree t rows' index' records ∧
      t.counts = applyCounts s.counts ⟨[], record.toDeathRow.deleted.toList⟩ := by
  obtain ⟨queue, hcall, hbacked⟩ := h.backed.prune_cons .empty
  cases rows with
  | nil =>
    have hlength := h.length_eq
    simp at hlength
  | cons row rows =>
    have hmem := KeySetRun.prune_cons h.mem_queue
    refine ⟨_, rows, row.deleted.toList.foldl (·.erase ·) index,
      by simp only [step, hmem, RefWindow.call, hcall]; rfl, ?_, rfl⟩
    refine ⟨rfl, h.sound.popFront, ?_, hbacked, ?_, ?_⟩
    · exact congrArg (· + 1) h.base_eq
    · have hhashes := h.hashes
      rw [List.map_cons, List.map_cons, List.cons.injEq] at hhashes
      exact hhashes.2
    · intro i
      have hnoted := h.noted (i + 1)
      simpa [notedAfter, Nat.add_assoc, Nat.add_comm 1 i] using hnoted

/-- Where the cache has the row of a block, both windows tell the same about it. -/
theorem haveBlock_agree [DecidableEq H] (h : Agree s rows index records) (hash : H) (number : Nat) :
    ∃ answer, s.window.haveBlock hash number = some answer ∧
      (answer ≠ .maybe → s.mem.window.haveBlock hash number = some answer) := by
  obtain ⟨cache, cacheCapacity, last, hqueue, hcache, _⟩ := h.backed.queue
  simp only [RefWindow.haveBlock, RefWindow.isEmpty, h.backed.windowSize_eq, h.mem_windowSize,
    h.base_eq, hqueue, h.mem_queue]
  split
  · exact ⟨.no, rfl, fun _ => rfl⟩
  · cases hrow : cache[number - s.mem.window.base]? with
    | none => exact ⟨.maybe, by simp [DeathRowQueue.haveBlock, hrow], fun hne => absurd rfl hne⟩
    | some row =>
      refine ⟨.ofBool (row.hash = hash), by simp [DeathRowQueue.haveBlock, hrow], fun _ => ?_⟩
      have hrecord : (records.map (·.toDeathRow))[number - s.mem.window.base]? = some row := by
        obtain ⟨hlt, rfl⟩ := List.getElem?_eq_some_iff.mp hrow
        exact List.prefix_iff_getElem?.mp hcache.initial _ hlt
      have hhash : (rows.map (·.hash))[number - s.mem.window.base]? = some row.hash := by
        rw [h.hashes]
        rw [List.getElem?_map, Option.map_eq_some_iff] at hrecord ⊢
        obtain ⟨record, hget, rfl⟩ := hrecord
        exact ⟨record, hget, rfl⟩
      rw [List.getElem?_map, Option.map_eq_some_iff] at hhash
      obtain ⟨memRow, hget, heq⟩ := hhash
      simp [DeathRowQueue.haveBlock, hget, heq]

/-! ## Reference counts -/

/-- The block extends the chain and inserts, once, only keys its parent's state lacks. -/
def Strict (s : TwinRun H K) : WindowOp H K → Prop
  | .noteCanonical hash number inserted deleted =>
    s.mem.Extends (.noteCanonical hash number inserted deleted) ∧
      (((s.mem.window.call s.mem.metaDb (.noteCanonical hash number inserted deleted)).any
        fun result => result.1.isOk) = true →
      (inserted.map (·.1)).Nodup ∧ Disjoint (insertedKeys inserted) s.mem.chain.newest)
  | .pruneOne => True

instance decidableStrict (s : TwinRun H K) : (op : WindowOp H K) → Decidable (s.Strict op)
  | .noteCanonical .. => inferInstanceAs (Decidable (_ ∧ (_ → _)))
  | .pruneOne => instDecidableTrue

/-- A key has a reference for every time it came to life in the kept states, and the
records say where it dies. -/
structure Counted (s : TwinRun H K) (records : List (PruningRecord H K)) : Prop where
  inv : s.mem.Inv
  counts : ∀ key, s.counts key = lifetimes key (KeySetRun.keptSets s.mem.chain s.mem.window.base)
  drops : records.map (fun record => { key | key ∈ record.deleted }) =
    drops (KeySetRun.keptSets s.mem.chain s.mem.window.base)

theorem counted_initial :
    Counted (initial state windowSize : TwinRun H K) [] where
  inv := KeySetRun.initial_inv state
  counts key := by
    simp [initial, KeySetRun.initial, KeySetRun.keptSets, CanonicalChain.kept, lifetimes]
  drops := rfl

theorem note_counted {s t : TwinRun H K} (h : Agree s rows index records)
    (hcounted : Counted s records) {hash : H} {number base' : Nat} {inserted : List (K × DBValue)}
    {deleted : List K}
    (haccept : RefWindow.acceptBase s.window.base records.length number = some base')
    (hstrict : s.Strict (.noteCanonical hash number inserted deleted))
    (hstep : s.step (.noteCanonical hash number inserted deleted) = some t)
    (hcounts : t.counts = applyCounts s.counts ⟨inserted, []⟩) :
    Counted t (records ++ [⟨hash, [], deleted⟩]) := by
  rw [h.base_eq, ← h.length_eq] at haccept
  have hok := RefWindow.call_isOk_of_accept s.mem.metaDb h.mem_queue h.sound hash inserted deleted
    haccept
  obtain ⟨hdisjoint, hdeleted⟩ := hstrict.1 hok
  obtain ⟨hnodup, hfresh⟩ := hstrict.2 hok
  rw [← RefWindow.windowSize_of_mem h.mem_queue] at haccept
  obtain ⟨mem, hmem, hinv, hkept⟩ :=
    KeySetRun.note_accepted hcounted.inv hash inserted deleted haccept hstrict.1
  obtain rfl : mem = t.mem := Option.some.inj (hmem.symm.trans (step_mem hstep))
  obtain ⟨_, _, _, hexact, _⟩ := hcounted.inv
  obtain ⟨older, holder⟩ := hexact.kept_eq
  have hsets : KeySetRun.keptSets s.mem.chain s.mem.window.base =
      older.map (fun state => { key | key ∈ state }) ++ [{ key | key ∈ s.mem.chain.newest }] := by
    simp [KeySetRun.keptSets, holder]
  refine ⟨hinv, fun key => ?_, ?_⟩
  · -- the block starts a life for exactly the keys it inserts
    have hnew : key ∈ { key | key ∈ (s.mem.chain.newest ∪ insertedKeys inserted) \
        deleted.toFinset } \ { key | key ∈ s.mem.chain.newest } ↔ key ∈ inserted.map (·.1) := by
      have h1 : key ∈ insertedKeys inserted → key ∉ s.mem.chain.newest :=
        fun hkey => Finset.disjoint_left.mp hfresh hkey
      have h2 : key ∈ insertedKeys inserted → key ∉ deleted.toFinset :=
        fun hkey => Finset.disjoint_left.mp hdisjoint hkey
      simp only [insertedKeys, List.mem_toFinset] at h1 h2
      simp only [Set.mem_sdiff, Set.mem_ofPred_eq, Finset.mem_sdiff, Finset.mem_union,
        insertedKeys, List.mem_toFinset]
      tauto
    rw [hcounts, hkept, hsets, List.append_assoc, List.singleton_append, lifetimes_concat,
      ← hsets, ← hcounted.counts, applyCounts, hnodup.count]
    simp only [hnew, List.count_nil, Nat.sub_zero]
  · have hlast : { key | key ∈ deleted } = { key | key ∈ s.mem.chain.newest } \
        { key | key ∈ (s.mem.chain.newest ∪ insertedKeys inserted) \ deleted.toFinset } := by
      ext key
      have hsub : key ∈ deleted → key ∈ s.mem.chain.newest := fun hdel =>
        hdeleted (by simpa using hdel)
      simp only [Set.mem_sdiff, Set.mem_ofPred_eq, Finset.mem_sdiff, Finset.mem_union,
        List.mem_toFinset]
      tauto
    rw [hkept, hsets, List.append_assoc, List.singleton_append, drops_concat, ← hsets,
      ← hcounted.drops, List.map_append, List.map_singleton, hlast]

theorem prune_counted {s t : TwinRun H K} {record : PruningRecord H K}
    (h : Agree s rows index (record :: records)) (hcounted : Counted s (record :: records))
    (hstep : s.step .pruneOne = some t)
    (hcounts : t.counts = applyCounts s.counts ⟨[], record.toDeathRow.deleted.toList⟩) :
    Counted t records := by
  obtain ⟨memRows, memIndex, hqueue, hexact, hdatabase⟩ := hcounted.inv
  obtain ⟨mem, hmem, hinv⟩ := KeySetRun.prune_inv ⟨memRows, memIndex, hqueue, hexact, hdatabase⟩
  obtain rfl : mem = t.mem := Option.some.inj (hmem.symm.trans (step_mem hstep))
  have hkept : KeySetRun.keptSets t.mem.chain t.mem.window.base =
      (KeySetRun.keptSets s.mem.chain s.mem.window.base).tail := by
    rw [← KeySetRun.keptSets_succ hexact.first_le]
    cases rows with
    | nil =>
      have hlength := h.length_eq
      simp at hlength
    | cons row rows =>
      have ht := (KeySetRun.prune_cons h.mem_queue).symm.trans hmem
      rw [← Option.some.inj ht]
  have hdrops := hcounted.drops.symm
  refine ⟨hinv, fun key => ?_, ?_⟩
  · have hcount : record.toDeathRow.deleted.toList.count key =
        if key ∈ { key | key ∈ record.deleted } then 1 else 0 := by
      rw [(OrderedMap.toList_nodup _).count]
      simp
    rw [hcounts, applyCounts, hcounted.counts, lifetimes_tail key hdrops, hkept, hcount]
    by_cases hdel : key ∈ record.deleted <;> simp [hdel]
  · rw [hkept, drops_tail hdrops]

/-! ## Runs -/

theorem step_agree (s : TwinRun H K) (op : WindowOp H K) (h : Agree s rows index records) :
    ∃ t rows' index' records', s.step op = some t ∧ Agree t rows' index' records' ∧
      (Counted s records → s.Strict op → Counted t records') := by
  cases op with
  | noteCanonical hash number inserted deleted =>
    cases haccept : RefWindow.acceptBase s.window.base records.length number with
    | none =>
      exact ⟨s, rows, index, records, note_rejected h hash inserted deleted haccept, h,
        fun hcounted _ => hcounted⟩
    | some base' =>
      obtain ⟨t, rows', index', hstep, hagree, hcounts⟩ :=
        note_accepted h hash inserted deleted haccept
      exact ⟨t, rows', index', _, hstep, hagree, fun hcounted hstrict =>
        note_counted h hcounted haccept hstrict hstep hcounts⟩
  | pruneOne =>
    cases records with
    | nil =>
      obtain ⟨t, hstep, hagree, hmem, hcounts⟩ := prune_nil h
      refine ⟨t, rows, index, [], hstep, hagree, fun hcounted _ => ?_⟩
      exact ⟨hmem ▸ hcounted.inv, fun key => by rw [hcounts, hmem, hcounted.counts],
        by rw [hmem, hcounted.drops]⟩
    | cons record records =>
      obtain ⟨t, rows', index', hstep, hagree, hcounts⟩ := prune_cons h
      exact ⟨t, rows', index', records, hstep, hagree, fun hcounted _ =>
        prune_counted h hcounted hstep hcounts⟩

theorem exec_agree (ops : List (WindowOp H K)) :
    ∃ s, Run.exec step (initial state windowSize) ops = some s ∧
      ∃ rows index records, Agree s rows index records := by
  refine Run.exec_total (P := fun _ _ => True) (fun s op hinv _ => ?_)
    ⟨[], ∅, [], agree_initial state windowSize⟩ (.of_forall (fun _ _ => trivial) _ _)
  obtain ⟨rows, index, records, h⟩ := hinv
  obtain ⟨t, rows', index', records', hstep, hagree, _⟩ := step_agree s op h
  exact ⟨t, hstep, rows', index', records', hagree⟩

theorem exec_counted {state : Finset K} {windowSize : Nat} {ops : List (WindowOp H K)}
    (hstrict : Run.Along step Strict (initial state windowSize) ops) :
    ∃ s, Run.exec step (initial state windowSize) ops = some s ∧
      ∃ rows index records, Agree s rows index records ∧ Counted s records := by
  refine Run.exec_total (fun s op hinv hop => ?_)
    ⟨[], ∅, [], agree_initial state windowSize, counted_initial state windowSize⟩ hstrict
  obtain ⟨rows, index, records, h, hcounted⟩ := hinv
  obtain ⟨t, rows', index', records', hstep, hagree, hcounted'⟩ := step_agree s op h
  exact ⟨t, hstep, rows', index', records', hagree, hcounted' hcounted hop⟩

theorem Counted.pos_iff (h : Counted s records) (key : K) :
    0 < s.counts key ↔ key ∈ s.mem.database := by
  obtain ⟨_, _, _, _, hdatabase⟩ := h.inv
  rw [h.counts, lifetimes_pos_iff, ← hdatabase]
  rfl

/-- What pruning a block does to a window in agreement. -/
theorem Agree.pruneOne_eq (h : Agree s rows index records) :
    match s.window.pruneOne s.metaDb .empty with
    | (.error e, window, commit) =>
      s.window.windowSize = 0 ∧ e = .blockUnavailable ∧ window.base = s.window.base ∧
        commit = .empty
    | (.ok (), window, commit) => ∃ record, s.noted s.window.base = some record ∧
        window.base = s.window.base + 1 ∧
        commit = ⟨⟨[], record.toDeathRow.deleted.toList⟩,
          ⟨[(.lastPruned, .lastPruned s.window.base)], [.pruningJournal s.window.base]⟩⟩ := by
  cases records with
  | nil =>
    obtain ⟨queue, hprune, _⟩ := h.backed.prune_nil .empty
    rw [hprune]
    exact ⟨h.backed.windowSize_eq, rfl, rfl, rfl⟩
  | cons record records =>
    obtain ⟨queue, hprune, _⟩ := h.backed.prune_cons .empty
    rw [hprune]
    exact ⟨record, h.noted 0, rfl, rfl⟩

/-- The database-backed window over a counting database does what the in-memory window
over a plain set of keys does. The key sets agree if every block inserts, once, keys its
parent's state lacks. -/
theorem dbBacked_refines_mem [DecidableEq H] (state : Finset K) (windowSize : Nat)
    (ops : List (WindowOp H K)) :
    ∃ s, Run.exec step (initial state windowSize) ops = some s ∧
      s.window.base = s.mem.window.base ∧ s.window.windowSize = s.mem.window.windowSize ∧
      (∀ hash number, ∃ answer, s.window.haveBlock hash number = some answer ∧
        (answer ≠ .maybe → s.mem.window.haveBlock hash number = some answer)) ∧
      (match s.window.pruneOne s.metaDb .empty with
        | (.error e, window, commit) =>
          s.window.windowSize = 0 ∧ e = .blockUnavailable ∧ window.base = s.window.base ∧
            commit = .empty
        | (.ok (), window, commit) => ∃ record, s.noted s.window.base = some record ∧
            window.base = s.window.base + 1 ∧
            commit = ⟨⟨[], record.toDeathRow.deleted.toList⟩,
              ⟨[(.lastPruned, .lastPruned s.window.base)],
                [.pruningJournal s.window.base]⟩⟩) ∧
      (Run.Along step Strict (initial state windowSize) ops →
        ∀ key, 0 < s.counts key ↔ key ∈ s.mem.database) := by
  obtain ⟨s, hexec, rows, index, records, h⟩ := exec_agree state windowSize ops
  refine ⟨s, hexec, h.base_eq, h.backed.windowSize_eq.trans h.mem_windowSize.symm,
    haveBlock_agree h, h.pruneOne_eq, fun hstrict key => ?_⟩
  obtain ⟨t, hexec', _, _, _, _, hcounted⟩ := exec_counted hstrict
  obtain rfl : s = t := Option.some.inj (hexec.symm.trans hexec')
  exact hcounted.pos_iff key

theorem dbBacked_refines_mem_deletedTwice :
    Run.Along step Strict (initial {1} 1) KeySetRun.deletedTwice ∧
      ∃ s, Run.exec step (initial {1} 1) KeySetRun.deletedTwice = some s ∧
        s.window.windowSize = s.mem.window.windowSize ∧
        ∀ key, 0 < s.counts key ↔ key ∈ s.mem.database := by
  have hstrict : Run.Along step Strict (initial {1} 1) KeySetRun.deletedTwice := by
    decide +kernel
  obtain ⟨s, hexec, _, hsize, _, _, hcounts⟩ :=
    dbBacked_refines_mem {1} 1 KeySetRun.deletedTwice
  exact ⟨hstrict, s, hexec, hsize, hcounts hstrict⟩

def insertedTwice : List (WindowOp Nat Nat) :=
  [.noteCanonical 100 0 [(1, [])] [], .noteCanonical 101 1 [(1, [])] [],
    .noteCanonical 102 2 [] [1], .pruneOne, .pruneOne, .pruneOne]

theorem insertedTwice_keeps_key :
    ∃ s, Run.exec step (initial ∅ 2) insertedTwice = some s ∧
      0 < s.counts 1 ∧ 1 ∉ s.mem.database := by
  have hany : (Run.exec step (initial ∅ 2) insertedTwice).any
      (fun s => decide (0 < s.counts 1 ∧ 1 ∉ s.mem.database)) = true := by decide +kernel
  obtain ⟨s, hexec, hs⟩ := (Option.any_eq_true _ _).mp hany
  exact ⟨s, hexec, of_decide_eq_true hs⟩

end TwinRun

end PolkadotSdk.StateDb
