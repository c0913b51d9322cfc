import PolkadotSdk.StateDb.Pruning.Model

/-! # The database-backed queue

The journals hold one record for each block of the window and none after it. The cache
is an initial part of the window; whatever it lacks is read from the journals, so the
queue always pops the row of the first block of the window.
-/

namespace PolkadotSdk.StateDb

open Std DeathRowQueue

variable {H K : Type} [LinearOrder K]

/-! ## Journals -/

/-- The journals from `base` on are those of the given blocks, and no more. -/
def Journaled (db : MetaDb H K) (base : Nat) (records : List (PruningRecord H K)) : Prop :=
  ∀ i, db (.pruningJournal (base + i)) = (records[i]?).map .pruningJournal

namespace Journaled

variable {db : MetaDb H K} {base : Nat} {records : List (PruningRecord H K)}

section

variable (h : Journaled db base records)
include h

omit [LinearOrder K] in
theorem read (i : Nat) : db.readPruningJournal (base + i) = .ok records[i]? := by
  unfold MetaDb.readPruningJournal
  rw [h i]
  cases records[i]? <;> rfl

omit [LinearOrder K] in
/-- Other metadata, and journals before the window, do not matter. -/
theorem congr {db' : MetaDb H K}
    (hsame : ∀ i, db' (.pruningJournal (base + i)) = db (.pruningJournal (base + i))) :
    Journaled db' base records := fun i => (hsame i).trans (h i)

omit [LinearOrder K] in
/-- The window of a database without journals can start anywhere. -/
theorem rebase {base' : Nat}
    (hbase : base' = base ∨ base = 0 ∧ records.length = 0) : Journaled db base' records := by
  rcases hbase with rfl | ⟨rfl, hnil⟩
  · exact h
  · obtain rfl := List.length_eq_zero_iff.mp hnil
    intro i
    simpa using h (base' + i)

omit [LinearOrder K] in
theorem concat (record : PruningRecord H K) :
    Journaled (Function.update db (.pruningJournal (base + records.length))
      (some (.pruningJournal record))) base (records ++ [record]) := by
  intro i
  by_cases heq : i = records.length
  · simp [heq]
  · have hne : MetaKey.pruningJournal (base + i) ≠ .pruningJournal (base + records.length) := by
      simpa using heq
    rw [Function.update_of_ne hne, h i]
    rcases Nat.lt_or_ge i records.length with hlt | hge
    · rw [List.getElem?_append_left hlt]
    · rw [List.getElem?_eq_none (by omega), List.getElem?_eq_none]
      simp only [List.length_append, List.length_singleton]
      omega

end

omit [LinearOrder K] in
theorem tail {record : PruningRecord H K} (h : Journaled db base (record :: records)) :
    Journaled (Function.update db (.pruningJournal base) none) (base + 1) records := by
  intro i
  have hne : MetaKey.pruningJournal (base + 1 + i) ≠ .pruningJournal base := by
    intro heq
    injection heq
    omega
  rw [Function.update_of_ne hne, Nat.add_assoc, Nat.add_comm 1 i, h (i + 1)]
  simp

end Journaled

/-! ## The cache -/

/-- The cache is an initial part of the window and can hold at least one row. -/
structure CacheOf (records : List (PruningRecord H K)) (cache : List (DeathRow H K))
    (cacheCapacity : Nat) : Prop where
  initial : cache <+: records.map PruningRecord.toDeathRow
  room : 0 < cacheCapacity

variable {db : MetaDb H K} {base : Nat} {records : List (PruningRecord H K)}
variable {cache : List (DeathRow H K)} {cacheCapacity : Nat} {last : Option Nat}

theorem loadRows_eq (h : Journaled db base records) (cache : List (DeathRow H K))
    (i remaining : Nat) :
    loadRows db cache (base + i) remaining =
      (.ok (), cache ++ ((records.drop i).take remaining).map PruningRecord.toDeathRow) := by
  induction remaining generalizing cache i with
  | zero => simp [loadRows]
  | succ remaining ih =>
    rw [loadRows, h.read i]
    cases hrecord : records[i]? with
    | none =>
      have hle : records.length ≤ i := List.getElem?_eq_none_iff.mp hrecord
      simp [List.drop_eq_nil_of_le hle]
    | some record =>
      obtain ⟨hlt, rfl⟩ := List.getElem?_eq_some_iff.mp hrecord
      have hrest := ih (cache ++ [records[i].toDeathRow]) (i + 1)
      rw [List.append_assoc] at hrest
      rw [List.drop_eq_getElem_cons hlt, List.take_succ_cons, List.map_cons]
      exact hrest

theorem loadBatch_nil (h : Journaled db base records) (cacheCapacity : Nat) :
    loadBatchFromDb db [] base cacheCapacity =
      (.ok (), (records.take cacheCapacity).map PruningRecord.toDeathRow) := by
  have hload := loadRows_eq h [] 0 cacheCapacity
  simpa [loadBatchFromDb] using hload

theorem fillCache_spec {stored : List (PruningRecord H K)} (h : Journaled db base stored)
    (hstored : stored <+: records) (hcache : CacheOf records cache cacheCapacity) :
    ∃ cache', fillCache db cache base cacheCapacity = (.ok (), cache') ∧
      CacheOf records cache' cacheCapacity ∧ (cache' = [] → stored = []) := by
  unfold fillCache
  cases cache with
  | nil =>
    refine ⟨_, loadBatch_nil h cacheCapacity, ⟨?_, hcache.room⟩, ?_⟩
    · rw [List.map_take]
      exact (List.take_prefix _ _).trans (hstored.map _)
    · intro hnil
      have hroom := hcache.room
      simpa [Nat.pos_iff_ne_zero.mp hroom] using hnil
  | cons row cache => exact ⟨row :: cache, rfl, hcache, by simp⟩

theorem popFront_nil (h : Journaled db base []) (hcache : CacheOf ([] : List (PruningRecord H K))
    cache cacheCapacity) (last : Option Nat) :
    popFront db (.dbBacked cache cacheCapacity last) base =
      (.ok none, .dbBacked [] cacheCapacity last) := by
  obtain ⟨cache', hfill, hcache', _⟩ := fillCache_spec h List.prefix_rfl hcache
  obtain rfl : cache' = [] := List.prefix_nil.mp hcache'.initial
  simp [popFront, hfill]

theorem popFront_spec {stored : List (PruningRecord H K)} (h : Journaled db base stored)
    (hstored : stored <+: records) (hcache : CacheOf records cache cacheCapacity)
    (last : Option Nat) :
    (popFront db (.dbBacked cache cacheCapacity last) base =
        (.ok none, .dbBacked [] cacheCapacity last) ∧ stored = []) ∨
      ∃ record rest cache', records = record :: rest ∧
        popFront db (.dbBacked cache cacheCapacity last) base =
          (.ok (some record.toDeathRow), .dbBacked cache' cacheCapacity last) ∧
        CacheOf rest cache' cacheCapacity := by
  obtain ⟨filled, hfill, hfilled, hne⟩ := fillCache_spec h hstored hcache
  cases filled with
  | nil => exact .inl ⟨by simp [popFront, hfill], hne rfl⟩
  | cons row cache' =>
    cases records with
    | nil => simpa using hfilled.initial
    | cons record rest =>
      obtain ⟨rfl, hrest⟩ : row = record.toDeathRow ∧
          cache' <+: rest.map PruningRecord.toDeathRow := by
        simpa [List.cons_prefix_cons] using hfilled.initial
      exact .inr ⟨record, rest, cache', rfl, by simp [popFront, hfill], hrest, hcache.room⟩

theorem popFront_cons {record : PruningRecord H K} (h : Journaled db base (record :: records))
    (hcache : CacheOf (record :: records) cache cacheCapacity) (last : Option Nat) :
    ∃ cache', popFront db (.dbBacked cache cacheCapacity last) base =
        (.ok (some record.toDeathRow), .dbBacked cache' cacheCapacity last) ∧
      CacheOf records cache' cacheCapacity := by
  rcases popFront_spec h List.prefix_rfl hcache last with ⟨_, hnil⟩ | ⟨_, _, cache', heq, hpop, hrest⟩
  · cases hnil
  · cases heq
    exact ⟨cache', hpop, hrest⟩

theorem importBlock_dbBacked (base : Nat) (hcache : CacheOf records cache cacheCapacity)
    (last : Option Nat) (record : PruningRecord H K) :
    ∃ cache', importBlock (.dbBacked cache cacheCapacity last) base (base + records.length) record =
        some (.dbBacked cache' cacheCapacity (some (base + records.length))) ∧
      CacheOf (records ++ [record]) cache' cacheCapacity := by
  obtain ⟨rest, hrest⟩ := hcache.initial
  by_cases hreach : base + records.length = base + cache.length ∧ cache.length < cacheCapacity
  · refine ⟨cache ++ [record.toDeathRow], by simp only [importBlock, if_pos hreach],
      ⟨?_, hcache.room⟩⟩
    have hlen := congrArg List.length hrest
    have hnil : rest = [] := by
      apply List.length_eq_zero_iff.mp
      simp only [List.length_append, List.length_map] at hlen
      omega
    rw [hnil, List.append_nil] at hrest
    have hall : cache ++ [record.toDeathRow] = (records ++ [record]).map PruningRecord.toDeathRow := by
      rw [hrest, List.map_append, List.map_singleton]
    exact hall ▸ List.prefix_rfl
  · refine ⟨cache, by simp only [importBlock, if_neg hreach], ⟨?_, hcache.room⟩⟩
    rw [List.map_append]
    exact hcache.initial.trans (List.prefix_append _ _)

/-! ## Calls -/

def LastOf (base : Nat) (records : List (PruningRecord H K)) : Option Nat → Prop
  | none => base = 0 ∧ records = []
  | some last => last + 1 = base + records.length

theorem LastOf.len_eq {last : Option Nat} (h : LastOf base records last)
    (cache : List (DeathRow H K)) (cacheCapacity : Nat) :
    (DeathRowQueue.dbBacked cache cacheCapacity last).len base = records.length := by
  cases last with
  | none => simp [DeathRowQueue.len, h.2]
  | some last =>
    simp only [LastOf] at h
    simp only [DeathRowQueue.len, Option.elim_some]
    omega

omit [LinearOrder K] in
theorem LastOf.tail {record : PruningRecord H K} {last : Option Nat}
    (h : LastOf base (record :: records) last) : LastOf (base + 1) records last := by
  cases last with
  | none => simp [LastOf] at h
  | some last =>
    simp only [LastOf, List.length_cons] at h ⊢
    omega

structure Backed (window : RefWindow H K) (db : MetaDb H K)
    (records : List (PruningRecord H K)) : Prop where
  queue : ∃ cache cacheCapacity last, window.queue = .dbBacked cache cacheCapacity last ∧
    CacheOf records cache cacheCapacity ∧ LastOf window.base records last
  journaled : Journaled db window.base records

omit [LinearOrder K] in
theorem Journaled.accepted {base' : Nat} (h : Journaled db base records)
    (hbase : base' = base ∨ base = 0 ∧ records.length = 0) (record : PruningRecord H K) :
    Journaled (db.apply ⟨RefWindow.acceptedMeta base base' (base' + records.length) record, []⟩)
      base' (records ++ [record]) := by
  refine ((h.rebase hbase).concat record).congr fun i => ?_
  rw [MetaDb.apply_eq, if_neg (by simp)]
  simp only [RefWindow.acceptedMeta, MetaDb.insertAll_append, MetaDb.insertAll_singleton]
  split
  · rfl
  · simp only [MetaDb.insertAll_singleton, Function.update_apply]
    simp

omit [LinearOrder K] in
theorem Journaled.pruned {record : PruningRecord H K} (h : Journaled db base (record :: records)) :
    Journaled (db.apply ⟨[(.lastPruned, .lastPruned base)], [.pruningJournal base]⟩) (base + 1)
      records := by
  refine h.tail.congr fun i => ?_
  rw [MetaDb.apply_eq]
  have hne : MetaKey.pruningJournal (base + 1 + i) ≠ .pruningJournal base := by
    intro heq
    injection heq
    omega
  rw [if_neg (by simpa using hne), Function.update_of_ne hne]
  simp

namespace Backed

variable {window : RefWindow H K}

theorem windowSize_eq (h : Backed window db records) : window.windowSize = records.length := by
  obtain ⟨cache, cacheCapacity, last, hqueue, _, hlast⟩ := h.queue
  rw [RefWindow.windowSize, hqueue]
  exact hlast.len_eq cache cacheCapacity

theorem accepted (h : Backed window db records) (hash : H) (inserted : List (K × DBValue))
    (deleted : List K) {number base' : Nat}
    (haccept : RefWindow.acceptBase window.base records.length number = some base') :
    ∃ queue, window.call db (.noteCanonical hash number inserted deleted) =
        some (.ok (), ⟨queue, base'⟩, ⟨⟨inserted, []⟩,
          ⟨RefWindow.acceptedMeta window.base base' number ⟨hash, [], deleted⟩, []⟩⟩) ∧
      Backed ⟨queue, base'⟩
        (db.apply ⟨RefWindow.acceptedMeta window.base base' number ⟨hash, [], deleted⟩, []⟩)
        (records ++ [⟨hash, [], deleted⟩]) := by
  obtain ⟨cache, cacheCapacity, last, hqueue, hcache, hlast⟩ := h.queue
  obtain ⟨hnumber, hbase⟩ := RefWindow.acceptBase_eq_some haccept
  have hrecord : window.recordOf hash ⟨inserted, deleted⟩ = ⟨hash, [], deleted⟩ := by
    simp [RefWindow.recordOf, RefWindow.recordedInsertions, hqueue]
  obtain ⟨cache', himport, hcache'⟩ := importBlock_dbBacked base' hcache last ⟨hash, [], deleted⟩
  rw [← h.windowSize_eq] at haccept
  rw [← hnumber, ← hqueue, ← hrecord] at himport
  have hcall := RefWindow.call_accepted db window hash inserted deleted haccept himport
  rw [hrecord] at hcall
  refine ⟨_, hcall, ⟨_, _, _, rfl, hcache', ?_⟩, ?_⟩
  · simp only [LastOf, List.length_append, List.length_singleton]
    omega
  · rw [hnumber]
    exact h.journaled.accepted hbase _

theorem prune_nil (h : Backed window db []) (commit : CommitSet H K) :
    ∃ queue, window.pruneOne db commit =
        (.error .blockUnavailable, { window with queue }, commit) ∧
      Backed { window with queue } db [] := by
  obtain ⟨cache, cacheCapacity, last, hqueue, hcache, hlast⟩ := h.queue
  refine ⟨.dbBacked [] cacheCapacity last, ?_, ⟨_, _, _, rfl, ⟨List.prefix_rfl, hcache.room⟩, hlast⟩,
    h.journaled⟩
  rw [RefWindow.pruneOne, hqueue, popFront_nil h.journaled hcache last]

theorem prune_cons {record : PruningRecord H K} (h : Backed window db (record :: records))
    (commit : CommitSet H K) :
    ∃ queue, window.pruneOne db commit = (.ok (), ⟨queue, window.base + 1⟩,
        ⟨⟨commit.data.inserted, commit.data.deleted ++ record.toDeathRow.deleted.toList⟩,
          ⟨commit.metaChanges.inserted ++ [(.lastPruned, .lastPruned window.base)],
            commit.metaChanges.deleted ++ [.pruningJournal window.base]⟩⟩) ∧
      Backed ⟨queue, window.base + 1⟩
        (db.apply ⟨[(.lastPruned, .lastPruned window.base)], [.pruningJournal window.base]⟩)
        records := by
  obtain ⟨cache, cacheCapacity, last, hqueue, hcache, hlast⟩ := h.queue
  obtain ⟨cache', hpop, hcache'⟩ := popFront_cons h.journaled hcache last
  refine ⟨.dbBacked cache' cacheCapacity last, ?_, ⟨_, _, _, rfl, hcache', hlast.tail⟩, ?_⟩
  · rw [RefWindow.pruneOne, hqueue, hpop]
  · exact h.journaled.pruned

end Backed

end PolkadotSdk.StateDb
