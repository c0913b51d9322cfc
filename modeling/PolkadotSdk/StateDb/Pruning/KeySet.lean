import Mathlib
import PolkadotSdk.Lib.Retention
import PolkadotSdk.Lib.Run
import PolkadotSdk.StateDb.Pruning.DeathRows

/-! # Pruning over a plain set of keys

The in-memory queue drives a database without reference counts. The canonical chain
is a sequence of states, each one made from its parent by insertions and deletions.
The database always holds what the states from the last pruned block on need.
-/

namespace PolkadotSdk.StateDb

open Std Retention DeathRowQueue

variable {H K : Type} [LinearOrder K]

/-! ## Databases of keys -/

def insertedKeys (inserted : List (K × DBValue)) : Finset K := (inserted.map (·.1)).toFinset

def applyKeys (database : Finset K) (data : ChangeSet K DBValue) : Finset K :=
  (database ∪ insertedKeys data.inserted) \ data.deleted.toFinset

/-- The states of the canonical chain, from that of the parent of block `first` on. -/
structure CanonicalChain (K : Type) where
  first : Nat
  states : List (Finset K)

namespace CanonicalChain

def newest (chain : CanonicalChain K) : Finset K := chain.states.getLastD ∅

def add (chain : CanonicalChain K) (number : Nat) (inserted : List (K × DBValue))
    (deleted : List K) : CanonicalChain K where
  first := if chain.states.length = 1 then number else chain.first
  states := chain.states ++
    [(chain.newest ∪ insertedKeys inserted) \ deleted.toFinset]

def after (chain : CanonicalChain K) : WindowOp H K → CanonicalChain K
  | .noteCanonical _ number inserted deleted => chain.add number inserted deleted
  | .pruneOne => chain

def kept (chain : CanonicalChain K) (base : Nat) : List (Finset K) :=
  chain.states.drop (base - chain.first)

end CanonicalChain

structure KeySetRun (H K : Type) [LinearOrder K] where
  window : RefWindow H K
  metaDb : MetaDb H K
  database : Finset K
  chain : CanonicalChain K

namespace KeySetRun

def initial (state : Finset K) : KeySetRun H K :=
  ⟨⟨.mem [] ∅, 0⟩, .empty, state, ⟨0, [state]⟩⟩

def step (s : KeySetRun H K) (op : WindowOp H K) : Option (KeySetRun H K) :=
  match s.window.call s.metaDb op with
  | none => none
  | some (.error _, window, _) => some { s with window }
  | some (.ok (), window, commit) =>
    some ⟨window, s.metaDb.apply commit.metaChanges, applyKeys s.database commit.data,
      s.chain.after op⟩

/-- A block added to the chain deletes only what its parent's state has, and does not
insert what it deletes. -/
def Extends (s : KeySetRun H K) : WindowOp H K → Prop
  | .noteCanonical hash number inserted deleted =>
    ((s.window.call s.metaDb (.noteCanonical hash number inserted deleted)).any
      fun result => result.1.isOk) = true →
    Disjoint (insertedKeys inserted) deleted.toFinset ∧ deleted.toFinset ⊆ s.chain.newest
  | .pruneOne => True

instance decidableExtends (s : KeySetRun H K) : (op : WindowOp H K) → Decidable (s.Extends op)
  | .noteCanonical .. => inferInstanceAs (Decidable (_ → _))
  | .pruneOne => instDecidableTrue

/-! ## The invariant -/

def keptSets (chain : CanonicalChain K) (base : Nat) : List (Set K) :=
  (chain.kept base).map fun state : Finset K => { key | key ∈ state }

/-- The rows hold exactly what dies with each kept state, and the index finds it. -/
structure RowsExact (chain : CanonicalChain K) (base : Nat) (rows : List (DeathRow H K))
    (index : ExtTreeMap K Nat) : Prop where
  sound : IndexSound base rows index
  complete : IndexComplete base rows index
  first_le : chain.first ≤ base
  numbers : base + rows.length + 1 = chain.first + chain.states.length
  deaths : rows.map (fun row => { key | key ∈ row.deleted }) = deaths (keptSets chain base)

/-- The database holds what the kept states need. -/
def Inv (s : KeySetRun H K) : Prop :=
  ∃ rows index, s.window.queue = .mem rows index ∧ RowsExact s.chain s.window.base rows index ∧
    { key | key ∈ s.database } = needed (keptSets s.chain s.window.base)

theorem initial_inv (state : Finset K) : Inv (initial state : KeySetRun H K) := by
  refine ⟨[], ∅, rfl, ⟨?_, ?_, ?_, ?_, ?_⟩, ?_⟩
  · intro key block h
    simp at h
  · intro key i row h
    simp at h
  · simp [initial]
  · simp [initial]
  · simp [initial, keptSets, CanonicalChain.kept, Retention.deaths]
  · ext key
    simp [initial, keptSets, CanonicalChain.kept]

variable {chain : CanonicalChain K}

omit [LinearOrder K] in
theorem keptSets_succ {base : Nat} (h : chain.first ≤ base) :
    keptSets chain (base + 1) = (keptSets chain base).tail := by
  have hdrop : base + 1 - chain.first = base - chain.first + 1 := by omega
  rw [keptSets, keptSets, ← List.map_tail, CanonicalChain.kept, CanonicalChain.kept,
    List.tail_drop, hdrop]

namespace RowsExact

variable {chain : CanonicalChain K} {base : Nat} {rows : List (DeathRow H K)}
variable {index : ExtTreeMap K Nat}

section

variable (h : RowsExact chain base rows index)
include h

theorem kept_length : (chain.kept base).length = rows.length + 1 := by
  have hfirst := h.first_le
  have hnumbers := h.numbers
  simp only [CanonicalChain.kept, List.length_drop]
  omega

theorem kept_eq : ∃ older, chain.kept base = older ++ [chain.newest] := by
  have hne : chain.kept base ≠ [] := by
    have hlength := h.kept_length
    intro hnil
    simp [hnil] at hlength
  refine ⟨(chain.kept base).dropLast, ?_⟩
  have hlast : chain.newest = (chain.kept base).getLast hne := by
    have hstates : chain.states ≠ [] := by
      intro hnil
      simp [CanonicalChain.kept, hnil] at hne
    rw [CanonicalChain.newest, List.getLastD_eq_getLast?, List.getLast?_eq_some_getLast hstates]
    simp [CanonicalChain.kept, List.getLast_drop]
  rw [hlast, List.dropLast_concat_getLast]

theorem not_mem_newest {row : DeathRow H K} {key : K}
    (hrow : row ∈ rows) (hkey : key ∈ row.deleted) : key ∉ chain.newest := by
  obtain ⟨older, hkept⟩ := h.kept_eq
  have hd : { key | key ∈ row.deleted } ∈ Retention.deaths (keptSets chain base) := by
    rw [← h.deaths]
    exact List.mem_map.mpr ⟨row, hrow, rfl⟩
  rw [keptSets, hkept, List.map_append, List.map_singleton] at hd
  have hnot := Retention.not_mem_newest hd (show key ∈ { key | key ∈ row.deleted } from hkey)
  simpa using hnot

theorem rebase (hbase : base = 0) (hrows : rows = [])
    (number : Nat) : RowsExact { chain with first := number } number rows index ∧
      chain.states.length = 1 ∧
      keptSets { chain with first := number } number = keptSets chain base := by
  subst hbase hrows
  have hfirst := h.first_le
  have hnumbers := h.numbers
  have hkept : keptSets { chain with first := number } number = keptSets chain 0 := by
    simp [keptSets, CanonicalChain.kept]
  refine ⟨⟨?_, ?_, Nat.le_refl _, ?_, ?_⟩, ?_, hkept⟩
  · intro key block hkey
    obtain ⟨i, row, _, hrow, _⟩ := h.sound key block hkey
    simp at hrow
  · intro key i row hrow
    simp at hrow
  · simp only [List.length_nil] at hnumbers ⊢
    omega
  · rw [hkept]
    exact h.deaths
  · simp only [List.length_nil] at hnumbers
    omega

theorem add (hash : H) (number : Nat)
    (inserted : List (K × DBValue)) (deleted : List K)
    (hfirst : chain.states.length = 1 → number = chain.first)
    (hdisjoint : Disjoint (insertedKeys inserted) deleted.toFinset)
    (hdeleted : deleted.toFinset ⊆ chain.newest) :
    ∃ rows' index', importBlock (.mem rows index) base number
        ⟨hash, inserted.map (·.1), deleted⟩ = some (.mem rows' index') ∧
      RowsExact (chain.add number inserted deleted) base rows' index' ∧
      keptSets (chain.add number inserted deleted) base = keptSets chain base ++
        [{ key | key ∈ (chain.newest ∪ insertedKeys inserted) \ deleted.toFinset }] := by
  let record : PruningRecord H K := ⟨hash, inserted.map (·.1), deleted⟩
  let next : Finset K := (chain.newest ∪ insertedKeys inserted) \ deleted.toFinset
  have hfirst' : (chain.add number inserted deleted).first = chain.first := by
    simp only [CanonicalChain.add]
    split
    · rename_i hone
      exact hfirst hone
    · rfl
  have hkept : keptSets (chain.add number inserted deleted) base =
      keptSets chain base ++ [{ key | key ∈ next }] := by
    have hle : base - chain.first ≤ chain.states.length := by
      have h1 := h.first_le
      have h2 := h.numbers
      omega
    simp only [keptSets, CanonicalChain.kept, hfirst']
    simp only [CanonicalChain.add, List.drop_append_of_le_length hle, List.map_append,
      List.map_cons, List.map_nil]
    rfl
  -- what the new state needs of a row is what the block inserts again
  have hrow : ∀ row ∈ rows, { key | key ∈ (withoutKeys record.inserted row).deleted } =
      { key | key ∈ row.deleted } \ { key | key ∈ next } := by
    intro row hrow
    ext key
    simp only [Set.mem_ofPred_eq, Set.mem_sdiff, mem_withoutKeys]
    refine and_congr_right fun hkey => not_congr ?_
    have hnewest := h.not_mem_newest hrow hkey
    have hboth : key ∈ inserted.map (·.1) → key ∉ deleted := by
      intro hins hdel
      exact Finset.disjoint_left.mp hdisjoint (by simpa [insertedKeys] using hins)
        (by simpa using hdel)
    simp only [next, insertedKeys, Finset.mem_sdiff, Finset.mem_union, List.mem_toFinset, hnewest,
      false_or]
    exact ⟨fun hins => ⟨hins, hboth hins⟩, fun hins => hins.1⟩
  have hlast : { key | key ∈ record.toDeathRow.deleted } =
      { key | key ∈ chain.newest } \ { key | key ∈ next } := by
    ext key
    have hsub : key ∈ deleted → key ∈ chain.newest := fun hdel => hdeleted (by simpa using hdel)
    simp only [Set.mem_ofPred_eq, Set.mem_sdiff, mem_toDeathRow, record, next, Finset.mem_sdiff,
      Finset.mem_union, List.mem_toFinset]
    tauto
  have hfresh : FreshDeletions rows record := by
    intro key hdel _ row hrow hkey
    exact h.not_mem_newest hrow hkey (hdeleted (by simpa using hdel))
  obtain ⟨rows', index', himport, hsound, _, hcomplete⟩ := importMem_spec h.sound number record
  obtain ⟨rfl, hcomplete⟩ := hcomplete h.complete
  refine ⟨_, index', himport, ⟨hsound, hcomplete hfresh, ?_, ?_, ?_⟩, hkept⟩
  · rw [hfirst']
    exact h.first_le
  · have hnumbers := h.numbers
    simp only [hfirst', List.length_append, List.length_map, List.length_singleton]
    simp only [CanonicalChain.add, List.length_append, List.length_singleton]
    omega
  · obtain ⟨older, holder⟩ := h.kept_eq
    have hsets : keptSets chain base =
        older.map (fun state => { key | key ∈ state }) ++ [{ key | key ∈ chain.newest }] := by
      simp [keptSets, holder]
    rw [hkept, hsets, List.append_assoc, List.singleton_append, deaths_concat, ← hsets, ← h.deaths,
      List.map_append, List.map_map, List.map_map, List.map_singleton, hlast]
    congr 1
    exact List.map_congr_left hrow

end

theorem popFront {row : DeathRow H K} (h : RowsExact chain base (row :: rows) index) :
    RowsExact chain (base + 1) rows (row.deleted.toList.foldl (·.erase ·) index) ∧
      needed (keptSets chain (base + 1)) =
        needed (keptSets chain base) \ { key | key ∈ row.deleted } := by
  have hfirst := h.first_le
  have hnumbers := h.numbers
  have htail := keptSets_succ hfirst
  obtain ⟨oldest, rest, hkept⟩ : ∃ oldest rest, keptSets chain base = oldest :: rest := by
    apply List.exists_cons_of_ne_nil
    intro hnil
    have hlength := h.kept_length
    simp only [keptSets, List.map_eq_nil_iff] at hnil
    simp [hnil] at hlength
  have hdeaths := h.deaths
  rw [hkept, List.map_cons] at hdeaths
  cases rest with
  | nil => simp [Retention.deaths] at hdeaths
  | cons second rest =>
    rw [Retention.deaths, List.cons.injEq] at hdeaths
    rw [hkept, List.tail_cons] at htail
    refine ⟨⟨h.sound.popFront, h.complete.popFront, by omega, ?_, ?_⟩, ?_⟩
    · simp only [List.length_cons] at hnumbers
      omega
    · rw [htail]
      exact hdeaths.2
    · rw [htail, hkept, hdeaths.1, needed_sdiff_death]

end RowsExact

/-! ## Steps and runs -/

variable {index : ExtTreeMap K Nat}

theorem RowsExact.accept {base base' number : Nat} {rows : List (DeathRow H K)}
    (h : RowsExact chain base rows index) (hbase : base' = base ∨ base = 0 ∧ rows.length = 0)
    (hnumber : number = base' + rows.length) :
    ∃ first, RowsExact { chain with first } base' rows index ∧
      keptSets { chain with first } base' = keptSets chain base ∧
      (chain.states.length = 1 → number = first) ∧
      (chain.states.length ≠ 1 → first = chain.first) := by
  have hfirst := h.first_le
  have hnumbers := h.numbers
  rcases hbase with rfl | ⟨hzero, hempty⟩
  · exact ⟨chain.first, h, rfl, by omega, fun _ => rfl⟩
  · obtain ⟨hexact, hone, hkept⟩ := h.rebase hzero (List.length_eq_zero_iff.mp hempty) base'
    exact ⟨base', hexact, hkept, by omega, fun hne => absurd hone hne⟩

theorem mem_needed_add {sets : List (Set K)} {inserted : List (K × DBValue)} {deleted : List K}
    (hnewest : { key | key ∈ chain.newest } ∈ sets)
    (hdisjoint : Disjoint (insertedKeys inserted) deleted.toFinset) (key : K) :
    key ∈ needed (sets ++
        [{ key | key ∈ (chain.newest ∪ insertedKeys inserted) \ deleted.toFinset }]) ↔
      key ∈ needed sets ∨ key ∈ insertedKeys inserted := by
  rw [mem_needed_append]
  constructor
  · rintro (hold | ⟨next, hnext, hkey⟩)
    · exact .inl hold
    · obtain rfl := List.mem_singleton.mp hnext
      simp only [Set.mem_ofPred_eq, Finset.mem_sdiff, Finset.mem_union] at hkey
      rcases hkey.1 with hkey | hkey
      · exact .inl ⟨_, hnewest, hkey⟩
      · exact .inr hkey
  · rintro (hold | hins)
    · exact .inl hold
    · refine .inr ⟨_, List.mem_singleton_self _, ?_⟩
      simp only [Set.mem_ofPred_eq, Finset.mem_sdiff, Finset.mem_union]
      exact ⟨.inr hins, Finset.disjoint_left.mp hdisjoint hins⟩

variable {s : KeySetRun H K}

theorem note_rejected (hash : H) {number : Nat} (inserted : List (K × DBValue)) (deleted : List K)
    (haccept : RefWindow.acceptBase s.window.base s.window.windowSize number = none) :
    s.step (.noteCanonical hash number inserted deleted) = some s := by
  have hcall := RefWindow.call_rejected s.metaDb s.window hash inserted deleted haccept
  simp [step, hcall]

theorem note_accepted (hinv : Inv s) (hash : H) {number base' : Nat}
    (inserted : List (K × DBValue)) (deleted : List K)
    (haccept : RefWindow.acceptBase s.window.base s.window.windowSize number = some base')
    (hextends : s.Extends (.noteCanonical hash number inserted deleted)) :
    ∃ t, s.step (.noteCanonical hash number inserted deleted) = some t ∧ Inv t ∧
      keptSets t.chain t.window.base = keptSets s.chain s.window.base ++
        [{ key | key ∈ (s.chain.newest ∪ insertedKeys inserted) \ deleted.toFinset }] := by
  obtain ⟨rows, index, hqueue, hexact, hdatabase⟩ := hinv
  rw [RefWindow.windowSize_of_mem hqueue] at haccept
  obtain ⟨hdisjoint, hdeleted⟩ := hextends
    (RefWindow.call_isOk_of_accept s.metaDb hqueue hexact.sound hash inserted deleted haccept)
  obtain ⟨hnumber, hbase⟩ := RefWindow.acceptBase_eq_some haccept
  obtain ⟨first, hexact', hkept, hone, hmany⟩ := hexact.accept hbase hnumber
  have hadd : ({ s.chain with first } : CanonicalChain K).add number inserted deleted =
      s.chain.add number inserted deleted := by
    by_cases hlen : s.chain.states.length = 1
    · simp [CanonicalChain.add, CanonicalChain.newest, hlen]
    · simp [CanonicalChain.add, CanonicalChain.newest, hlen, hmany hlen]
  obtain ⟨rows', index', himport, hexact'', hkept'⟩ :=
    hexact'.add hash number inserted deleted hone hdisjoint hdeleted
  have hcall :=
    RefWindow.call_accepted_mem s.metaDb hqueue hash inserted deleted haccept himport
  rw [hadd] at hexact'' hkept'
  rw [hkept] at hkept'
  refine ⟨⟨⟨.mem rows' index', base'⟩, _, applyKeys s.database ⟨inserted, []⟩,
    s.chain.add number inserted deleted⟩, by simp only [step, hcall]; rfl,
    ⟨rows', index', rfl, hexact'', ?_⟩, hkept'⟩
  obtain ⟨older, holder⟩ := hexact.kept_eq
  have hnewest : { key | key ∈ s.chain.newest } ∈ keptSets s.chain s.window.base := by
    simp [keptSets, holder]
  ext key
  rw [hkept']
  refine Iff.trans ?_ (mem_needed_add hnewest hdisjoint key).symm
  rw [← hdatabase]
  simp [applyKeys]

theorem prune_nil (hqueue : s.window.queue = .mem [] index) : s.step .pruneOne = some s := by
  obtain ⟨⟨queue, base⟩, metaDb, database, chain⟩ := s
  obtain rfl : queue = .mem [] index := hqueue
  rfl

theorem prune_cons {row : DeathRow H K} {rows : List (DeathRow H K)}
    (hqueue : s.window.queue = .mem (row :: rows) index) :
    s.step .pruneOne = some
      ⟨⟨.mem rows (row.deleted.toList.foldl (·.erase ·) index), s.window.base + 1⟩,
        s.metaDb.apply ⟨[(.lastPruned, .lastPruned s.window.base)],
          [.pruningJournal s.window.base]⟩,
        applyKeys s.database ⟨[], row.deleted.toList⟩, s.chain⟩ := by
  simp [step, RefWindow.call, RefWindow.pruneOne, DeathRowQueue.popFront, hqueue,
    CommitSet.empty, CanonicalChain.after]

theorem prune_inv (hinv : Inv s) : ∃ t, s.step .pruneOne = some t ∧ Inv t := by
  obtain ⟨rows, index, hqueue, hexact, hdatabase⟩ := hinv
  cases rows with
  | nil => exact ⟨s, prune_nil hqueue, [], index, hqueue, hexact, hdatabase⟩
  | cons row rows =>
    obtain ⟨hexact', hneeded⟩ := hexact.popFront
    refine ⟨_, prune_cons hqueue, rows, _, rfl, hexact', ?_⟩
    rw [hneeded, ← hdatabase]
    ext key
    simp [applyKeys, insertedKeys]

theorem step_inv (s : KeySetRun H K) (op : WindowOp H K) (hinv : Inv s)
    (hextends : s.Extends op) : ∃ t, s.step op = some t ∧ Inv t := by
  cases op with
  | noteCanonical hash number inserted deleted =>
    cases haccept : RefWindow.acceptBase s.window.base s.window.windowSize number with
    | none => exact ⟨s, note_rejected hash inserted deleted haccept, hinv⟩
    | some base' =>
      obtain ⟨t, hstep, hinv', _⟩ :=
        note_accepted hinv hash inserted deleted haccept hextends
      exact ⟨t, hstep, hinv'⟩
  | pruneOne => exact prune_inv hinv

/-- After every run over a canonical chain the database is the union of the states from
the one before block `base` to the newest one. -/
theorem database_eq_needed (state : Finset K) (ops : List (WindowOp H K))
    (hextends : Run.Along step Extends (initial state : KeySetRun H K) ops) :
    ∃ s, Run.exec step (initial state : KeySetRun H K) ops = some s ∧
      s.chain.first ≤ s.window.base ∧
      s.window.base + s.window.windowSize + 1 = s.chain.first + s.chain.states.length ∧
      ∀ key, key ∈ s.database ↔
        ∃ kept ∈ s.chain.states.drop (s.window.base - s.chain.first), key ∈ kept := by
  obtain ⟨s, hexec, rows, index, hqueue, hexact, hdatabase⟩ :=
    Run.exec_total step_inv (initial_inv state) hextends
  refine ⟨s, hexec, hexact.first_le, ?_, fun key => ?_⟩
  · rw [RefWindow.windowSize_of_mem hqueue]
    exact hexact.numbers
  · have hkey : key ∈ s.database ↔ key ∈ needed (keptSets s.chain s.window.base) :=
      Set.ext_iff.mp hdatabase key
    rw [hkey, mem_needed, keptSets]
    constructor
    · rintro ⟨_, hset, hmem⟩
      obtain ⟨kept, hkept, rfl⟩ := List.mem_map.mp hset
      exact ⟨kept, hkept, hmem⟩
    · rintro ⟨kept, hkept, hmem⟩
      exact ⟨_, List.mem_map.mpr ⟨kept, hkept, rfl⟩, hmem⟩

def deletedTwice : List (WindowOp Nat Nat) :=
  [.noteCanonical 105 5 [(2, [])] [1], .noteCanonical 106 6 [(1, [])] [2], .pruneOne,
    .noteCanonical 107 7 [(3, [])] [1], .noteCanonical 109 9 [] [], .pruneOne]

theorem database_eq_needed_deletedTwice :
    Run.Along step Extends (initial {1}) deletedTwice ∧
      ∃ s, Run.exec step (initial {1}) deletedTwice = some s ∧ s.chain.first ≤ s.window.base ∧
        s.window.base + s.window.windowSize + 1 = s.chain.first + s.chain.states.length ∧
        ∀ key, key ∈ s.database ↔
          ∃ kept ∈ s.chain.states.drop (s.window.base - s.chain.first), key ∈ kept :=
  have hextends : Run.Along step Extends (initial {1}) deletedTwice := by decide +kernel
  ⟨hextends, database_eq_needed {1} deletedTwice hextends⟩

end KeySetRun

end PolkadotSdk.StateDb
