import PolkadotSdk.StateDb.Pruning.Model

/-! # The index of the in-memory death rows

The index is sound if it only points at rows that hold the key, which is all that
keeps the queue from panicking. It is complete if it finds every key on a row; a key
deleted twice without being inserted in between breaks that.
-/

namespace PolkadotSdk.StateDb

open Std OrderedMap

variable {H K : Type} [LinearOrder K]

namespace DeathRowQueue

variable {base : Nat} {rows : List (DeathRow H K)} {index : ExtTreeMap K Nat}

/-- The index points only at rows that hold the key. -/
def IndexSound (base : Nat) (rows : List (DeathRow H K)) (index : ExtTreeMap K Nat) : Prop :=
  ∀ (key : K) block, index[key]? = some block →
    ∃ i row, block = base + i ∧ rows[i]? = some row ∧ key ∈ row.deleted

/-- The index finds every key on a row. -/
def IndexComplete (base : Nat) (rows : List (DeathRow H K)) (index : ExtTreeMap K Nat) : Prop :=
  ∀ (key : K) i row, rows[i]? = some row → key ∈ row.deleted → index[key]? = some (base + i)

def withoutKeys (keys : List K) (row : DeathRow H K) : DeathRow H K :=
  { row with deleted := keys.foldl (·.erase ·) row.deleted }

@[simp] theorem mem_withoutKeys {keys : List K} {row : DeathRow H K} {key : K} :
    key ∈ (withoutKeys keys row).deleted ↔ key ∈ row.deleted ∧ key ∉ keys :=
  mem_eraseAll keys row.deleted key

@[simp] theorem withoutKeys_hash (keys : List K) (row : DeathRow H K) :
    (withoutKeys keys row).hash = row.hash := rfl

@[simp] theorem mem_toDeathRow {record : PruningRecord H K} {key : K} :
    key ∈ record.toDeathRow.deleted ↔ key ∈ record.deleted := by
  simp [PruningRecord.toDeathRow]

theorem withoutKeys_of_disjoint {keys : List K} {row : DeathRow H K}
    (h : ∀ key ∈ keys, key ∉ row.deleted) : withoutKeys keys row = row := by
  have hdeleted : (withoutKeys keys row).deleted = row.deleted := by
    apply ExtTreeSet.ext_mem
    intro key
    rw [mem_withoutKeys]
    exact ⟨fun hmem => hmem.1, fun hmem => ⟨hmem, fun hkey => h key hkey hmem⟩⟩
  exact congrArg (DeathRow.mk row.hash) hdeleted

theorem IndexSound.rebase {base' : Nat} (h : IndexSound base rows index)
    (hbase : base' = base ∨ base = 0 ∧ rows.length = 0) : IndexSound base' rows index := by
  rcases hbase with rfl | ⟨_, hnil⟩
  · exact h
  · obtain rfl := List.length_eq_zero_iff.mp hnil
    intro key block hkey
    obtain ⟨i, row, _, hrow, _⟩ := h key block hkey
    simp at hrow

/-! ## Inserting keys again -/

/-- One key inserted again: with a sound index there is no panic, with a complete one
the key leaves every row. -/
theorem removeReinserted_spec (hsound : IndexSound base rows index) (key : K) :
    ∃ rows', removeReinserted base (rows, index) key = some (rows', index.erase key) ∧
      IndexSound base rows' (index.erase key) ∧ rows'.map (·.hash) = rows.map (·.hash) ∧
      (IndexComplete base rows index → rows' = rows.map (withoutKeys [key])) := by
  cases hget : index[key]? with
  | none =>
    have herase : index.erase key = index := erase_of_none hget
    refine ⟨rows, by simp [removeReinserted, hget, herase], by rwa [herase], rfl, ?_⟩
    intro hcomplete
    have hid : ∀ row ∈ rows, withoutKeys [key] row = row := by
      intro row hrow
      apply withoutKeys_of_disjoint
      intro k hk hmem
      obtain rfl := List.mem_singleton.mp hk
      obtain ⟨i, hi⟩ := List.getElem?_of_mem hrow
      simp [hcomplete k i row hi hmem] at hget
    rw [List.map_congr_left hid, List.map_id']
  | some block =>
    obtain ⟨i, row, rfl, hrow, hmem⟩ := hsound key block hget
    have hset : rows[i]? = some row := hrow
    refine ⟨rows.set i (withoutKeys [key] row), ?_, ?_, ?_, ?_⟩
    · simp [removeReinserted, hget, hset, withoutKeys]
    · intro k block hk
      obtain ⟨hne, hk⟩ := OrderedMap.of_erase hk
      obtain ⟨j, row', rfl, hrow', hmem'⟩ := hsound k block hk
      by_cases hij : i = j
      · subst hij
        obtain rfl : row = row' := by simpa [hset] using hrow'
        have hlt : i < rows.length := (List.getElem?_eq_some_iff.mp hset).1
        refine ⟨i, withoutKeys [key] row, rfl, by simp [hlt], ?_⟩
        rw [mem_withoutKeys]
        refine ⟨hmem', ?_⟩
        intro hk'
        exact hne (List.mem_singleton.mp hk').symm
      · exact ⟨j, row', rfl, by simpa [List.getElem?_set, hij] using hrow', hmem'⟩
    · obtain ⟨hlt, heq⟩ := List.getElem?_eq_some_iff.mp hset
      apply List.ext_getElem?
      intro j
      rw [List.getElem?_map, List.getElem?_set, List.getElem?_map]
      by_cases hij : i = j
      · subst hij
        simp [hlt, heq]
      · simp [hij]
    · intro hcomplete
      apply List.ext_getElem?
      intro j
      rw [List.getElem?_map, List.getElem?_set]
      by_cases hij : i = j
      · subst hij
        have hlt : i < rows.length := (List.getElem?_eq_some_iff.mp hset).1
        rw [if_pos rfl, if_pos hlt, hset, Option.map_some]
      · cases hj : rows[j]? with
        | none => simp [hij]
        | some row' =>
          have hid : withoutKeys [key] row' = row' := by
            apply withoutKeys_of_disjoint
            intro k hk hmem'
            obtain rfl := List.mem_singleton.mp hk
            have hblock := hcomplete k j row' hj hmem'
            rw [hget] at hblock
            exact hij (by simpa using hblock)
          simp [hij, hid]

theorem IndexComplete.erase (h : IndexComplete base rows index) (keys : List K) :
    IndexComplete base (rows.map (withoutKeys keys)) (keys.foldl (·.erase ·) index) := by
  intro key i row hrow hmem
  rw [List.getElem?_map, Option.map_eq_some_iff] at hrow
  obtain ⟨before, hbefore, rfl⟩ := hrow
  rw [mem_withoutKeys] at hmem
  rw [getElem?_eraseAll, if_neg hmem.2]
  exact h key i before hbefore hmem.1

theorem withoutKeys_cons (key : K) (keys : List K) (rows : List (DeathRow H K)) :
    (rows.map (withoutKeys [key])).map (withoutKeys keys) =
      rows.map (withoutKeys (key :: keys)) := by
  simp [withoutKeys]

theorem removeAllReinserted_spec (hsound : IndexSound base rows index) (keys : List K) :
    ∃ rows', keys.foldlM (removeReinserted base) (rows, index) =
        some (rows', keys.foldl (·.erase ·) index) ∧
      IndexSound base rows' (keys.foldl (·.erase ·) index) ∧
      rows'.map (·.hash) = rows.map (·.hash) ∧
      (IndexComplete base rows index → rows' = rows.map (withoutKeys keys)) := by
  induction keys generalizing rows index with
  | nil =>
    refine ⟨rows, rfl, hsound, rfl, fun _ => ?_⟩
    have hid : ∀ row ∈ rows, withoutKeys ([] : List K) row = row := fun _ _ => rfl
    rw [List.map_congr_left hid, List.map_id']
  | cons key keys ih =>
    obtain ⟨mid, hmid, hsound', hhash, hrows⟩ := removeReinserted_spec hsound key
    obtain ⟨rows', hfold, hsound'', hhash', hrows'⟩ := ih hsound'
    refine ⟨rows', ?_, hsound'', hhash'.trans hhash, fun hcomplete => ?_⟩
    · rw [List.foldlM_cons, hmid]
      exact hfold
    · have hmidEq := hrows hcomplete
      subst hmidEq
      rw [hrows' (hcomplete.erase [key]), withoutKeys_cons]

/-! ## Adding and pruning a block -/

/-- No key the block deletes is still on a row, apart from those it inserts itself. -/
def FreshDeletions (rows : List (DeathRow H K)) (record : PruningRecord H K) : Prop :=
  ∀ key ∈ record.deleted, key ∉ record.inserted → ∀ row ∈ rows, key ∉ row.deleted

theorem importMem_spec (hsound : IndexSound base rows index) (num : Nat)
    (record : PruningRecord H K) :
    ∃ rows' index', importBlock (.mem rows index) base num record =
        some (.mem (rows' ++ [record.toDeathRow]) index') ∧
      IndexSound base (rows' ++ [record.toDeathRow]) index' ∧
      rows'.map (·.hash) = rows.map (·.hash) ∧
      (IndexComplete base rows index → rows' = rows.map (withoutKeys record.inserted) ∧
        (FreshDeletions rows record →
          IndexComplete base (rows' ++ [record.toDeathRow]) index')) := by
  obtain ⟨rows', hfold, hsound', hhash, hrows⟩ := removeAllReinserted_spec hsound record.inserted
  refine ⟨rows', _, by simp only [importBlock, hfold]; rfl, ?_, hhash,
    fun hcomplete => ⟨hrows hcomplete, fun hfresh => ?_⟩⟩
  · intro key block hkey
    rw [getElem?_insertAll] at hkey
    split at hkey
    · rename_i hmem
      obtain rfl : base + rows'.length = block := by simpa using hkey
      exact ⟨rows'.length, record.toDeathRow, rfl, by simp, by simpa using hmem⟩
    · obtain ⟨i, row, rfl, hrow, hmem⟩ := hsound' key block hkey
      have hlt : i < rows'.length := (List.getElem?_eq_some_iff.mp hrow).1
      exact ⟨i, row, rfl, by rw [List.getElem?_append_left hlt, hrow], hmem⟩
  · intro key i row hrow hmem
    rw [getElem?_insertAll]
    rcases Nat.lt_or_ge i rows'.length with hlt | hge
    · rw [List.getElem?_append_left hlt, hrows hcomplete] at hrow
      have hindex := hcomplete.erase record.inserted key i row hrow hmem
      rw [List.getElem?_map, Option.map_eq_some_iff] at hrow
      obtain ⟨before, hbefore, rfl⟩ := hrow
      rw [mem_withoutKeys] at hmem
      have hnot : key ∉ record.deleted := fun hdel =>
        hfresh key hdel hmem.2 before (List.mem_of_getElem? hbefore) hmem.1
      rw [if_neg hnot]
      exact hindex
    · have hlen : i < (rows' ++ [record.toDeathRow]).length :=
        (List.getElem?_eq_some_iff.mp hrow).1
      obtain rfl : i = rows'.length := by
        simp only [List.length_append, List.length_singleton] at hlen
        omega
      obtain rfl : record.toDeathRow = row := by simpa using hrow
      rw [if_pos (by simpa using hmem)]

theorem IndexSound.popFront {row : DeathRow H K} (h : IndexSound base (row :: rows) index) :
    IndexSound (base + 1) rows (row.deleted.toList.foldl (·.erase ·) index) := by
  intro key block hkey
  rw [getElem?_eraseAll] at hkey
  split at hkey
  · cases hkey
  · rename_i hnot
    obtain ⟨i, row', rfl, hrow', hmem⟩ := h key block hkey
    cases i with
    | zero =>
      obtain rfl : row = row' := by simpa using hrow'
      exact absurd (by simpa using hmem) hnot
    | succ i => exact ⟨i, row', by omega, by simpa using hrow', hmem⟩

theorem IndexComplete.popFront {row : DeathRow H K} (h : IndexComplete base (row :: rows) index) :
    IndexComplete (base + 1) rows (row.deleted.toList.foldl (·.erase ·) index) := by
  intro key i row' hrow' hmem
  have hlater : index[key]? = some (base + (i + 1)) := h key (i + 1) row' (by simpa using hrow') hmem
  have hnot : key ∉ row.deleted.toList := by
    intro hfront
    -- the index names one row only
    have hfirst := h key 0 row rfl (by simpa using hfront)
    rw [hlater] at hfirst
    simp at hfirst
  rw [getElem?_eraseAll, if_neg hnot, hlater]
  congr 1
  omega

end DeathRowQueue

namespace RefWindow

open DeathRowQueue

variable {window : RefWindow H K} {rows : List (DeathRow H K)} {index : ExtTreeMap K Nat}

theorem windowSize_of_mem (h : window.queue = .mem rows index) :
    window.windowSize = rows.length := by
  simp [windowSize, h, DeathRowQueue.len]

theorem call_accepted_mem (db : MetaDb H K) (hqueue : window.queue = .mem rows index) (hash : H)
    (inserted : List (K × DBValue)) (deleted : List K) {number base' : Nat}
    {queue : DeathRowQueue H K} (haccept : acceptBase window.base rows.length number = some base')
    (himport : importBlock (.mem rows index) base' number
      ⟨hash, inserted.map (·.1), deleted⟩ = some queue) :
    window.call db (.noteCanonical hash number inserted deleted) =
      some (.ok (), ⟨queue, base'⟩, ⟨⟨inserted, []⟩,
        ⟨acceptedMeta window.base base' number ⟨hash, inserted.map (·.1), deleted⟩, []⟩⟩) := by
  have hrecord : window.recordOf hash ⟨inserted, deleted⟩ =
      ⟨hash, inserted.map (·.1), deleted⟩ := by
    simp [recordOf, recordedInsertions, hqueue]
  rw [← windowSize_of_mem hqueue] at haccept
  rw [← hqueue, ← hrecord] at himport
  have hcall := call_accepted db window hash inserted deleted haccept himport
  rwa [hrecord] at hcall

theorem call_isOk_of_accept (db : MetaDb H K) (hqueue : window.queue = .mem rows index)
    (hsound : IndexSound window.base rows index) (hash : H) (inserted : List (K × DBValue))
    (deleted : List K) {number base' : Nat}
    (haccept : acceptBase window.base rows.length number = some base') :
    ((window.call db (.noteCanonical hash number inserted deleted)).any
      fun result => result.1.isOk) = true := by
  obtain ⟨_, hbase⟩ := acceptBase_eq_some haccept
  obtain ⟨rows', index', himport, _⟩ := importMem_spec (hsound.rebase hbase) number
    ⟨hash, inserted.map (·.1), deleted⟩
  simp [call_accepted_mem db hqueue hash inserted deleted haccept himport, Except.isOk,
    Except.toBool]

end RefWindow

end PolkadotSdk.StateDb
