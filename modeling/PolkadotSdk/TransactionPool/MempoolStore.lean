import Mathlib
import PolkadotSdk.Lib.MapTotal

/-! # The store of the mempool

`SizeTrackedStore` keeps its items by key and, a second time, by priority, timestamp and key, and
counts their number and bytes beside the maps. A new item may take the place of the worst ones.
-/

namespace PolkadotSdk.TransactionPool.Mempool

open Std OrderedMap

/-! ## The two maps -/

structure Traits (A B V : Type) where
  priority : V → A
  timestamp : V → B
  size : V → Nat

structure SortKey (A B K : Type) where
  priority : A
  timestamp : B
  key : K

namespace SortKey

variable {A B K V : Type}

def new (traits : Traits A B V) (key : K) (item : V) : SortKey A B K :=
  ⟨traits.priority item, traits.timestamp item, key⟩

def lex (s : SortKey A B K) : A ×ₗ B ×ₗ K := toLex (s.priority, toLex (s.timestamp, s.key))

theorem lex_injective : Function.Injective (lex : SortKey A B K → A ×ₗ B ×ₗ K) := by
  rintro ⟨p, t, k⟩ ⟨p', t', k'⟩ h
  simpa [lex] using h

instance [LinearOrder A] [LinearOrder B] [LinearOrder K] : LinearOrder (SortKey A B K) :=
  LinearOrder.lift' lex lex_injective

end SortKey

structure IndexedStorage (A B K V : Type) [LinearOrder A] [LinearOrder B] [LinearOrder K] where
  itemsByHashes : ExtTreeMap K V := ∅
  itemsByPriority : ExtTreeMap (SortKey A B K) V := ∅

variable {A B K V : Type} [LinearOrder A] [LinearOrder B] [LinearOrder K]

namespace IndexedStorage

variable (traits : Traits A B V)

def insert (s : IndexedStorage A B K V) (key : K) (val : V) : IndexedStorage A B K V × Option V :=
  let r := s.itemsByHashes[key]?
  let itemsByPriority := r.elim s.itemsByPriority fun removed =>
    s.itemsByPriority.erase (.new traits key removed)
  (⟨s.itemsByHashes.insert key val, itemsByPriority.insert (.new traits key val) val⟩, r)

def remove (s : IndexedStorage A B K V) (key : K) : IndexedStorage A B K V × Option V :=
  match s.itemsByHashes[key]? with
  | some r => (⟨s.itemsByHashes.erase key, s.itemsByPriority.erase (.new traits key r)⟩, some r)
  | none => (s, none)

/-- The sort key of the item is read before and after the change. -/
def updateItem (s : IndexedStorage A B K V) (key : K) (f : V → V) :
    Option (IndexedStorage A B K V) :=
  s.itemsByHashes[key]?.map fun item =>
    let oldKey := SortKey.new traits key item
    let newKey := SortKey.new traits key (f item)
    { itemsByHashes := s.itemsByHashes.insert key (f item)
      itemsByPriority :=
        if oldKey ≠ newKey then (s.itemsByPriority.erase oldKey).insert newKey (f item)
        else s.itemsByPriority }

/-- Go through the items from the worst one on until there is room; `none` when one of them is
better than the new item. -/
def selectWorst (freeBytes : Nat) (item : V) :
    List (SortKey A B K × V) → Nat → List K → Option (Nat × List K)
  | [], totalSizeRemoved, toBeRemoved => some (totalSizeRemoved, toBeRemoved)
  | (worst, worstItem) :: rest, totalSizeRemoved, toBeRemoved =>
    if traits.priority item < worst.priority then none
    else if worst.priority = traits.priority item ∧ worst.timestamp < traits.timestamp item then
      none
    else
      let totalSizeRemoved := totalSizeRemoved + traits.size worstItem
      let toBeRemoved := toBeRemoved ++ [worst.key]
      if freeBytes + totalSizeRemoved ≥ traits.size item then some (totalSizeRemoved, toBeRemoved)
      else selectWorst freeBytes item rest totalSizeRemoved toBeRemoved

/-- The storage, the keys of the removed items and their size; nothing is inserted without the
keys. -/
def tryInsertWithReplacement (s : IndexedStorage A B K V) (freeBytes : Nat) (key : K) (item : V) :
    IndexedStorage A B K V × Option (List K) × Nat :=
  if traits.size item = 0 then (s, none, 0)
  else if s.itemsByHashes.contains key then (s, none, 0)
  else
    match selectWorst traits freeBytes item s.itemsByPriority.toList 0 [] with
    | none => (s, none, 0)
    | some (totalSizeRemoved, toBeRemoved) =>
      if traits.size item > freeBytes + totalSizeRemoved then (s, none, 0)
      else
        (toBeRemoved.foldl (fun s worst => (s.remove traits worst).1) (s.insert traits key item).1,
          some toBeRemoved, totalSizeRemoved)

end IndexedStorage

/-! ## The store -/

@[ext]
structure SizeTrackedStore (A B K V : Type) [LinearOrder A] [LinearOrder B] [LinearOrder K] where
  index : IndexedStorage A B K V := {}
  bytes : Int := 0
  length : Int := 0

namespace SizeTrackedStore

variable (traits : Traits A B V)

def insert (s : SizeTrackedStore A B K V) (key : K) (val : V) :
    SizeTrackedStore A B K V × Option V :=
  let r := s.index.insert traits key val
  let bytes := s.bytes + traits.size val
  let length := s.length + 1
  match r.2 with
  | some oldVal => (⟨r.1, bytes - traits.size oldVal, length - 1⟩, some oldVal)
  | none => (⟨r.1, bytes, length⟩, none)

def remove (s : SizeTrackedStore A B K V) (key : K) : SizeTrackedStore A B K V × Option V :=
  let r := s.index.remove traits key
  match r.2 with
  | some val => (⟨r.1, s.bytes - traits.size val, s.length - 1⟩, some val)
  | none => ({ s with index := r.1 }, none)

/-- `none` is an underflow of `maxTotalBytes - currentBytes`. -/
def tryInsertWithReplacement (s : SizeTrackedStore A B K V) (maxTotalBytes : Nat) (key : K)
    (item : V) : Option (SizeTrackedStore A B K V × Option (List K)) :=
  let currentBytes := (max s.bytes 0).toNat
  if maxTotalBytes < currentBytes then none
  else
    let (index, removedKeys, removedBytes) :=
      s.index.tryInsertWithReplacement traits (maxTotalBytes - currentBytes) key item
    match removedKeys with
    | some removedKeys =>
      let delta : Int := traits.size item - removedBytes
      some (⟨index, s.bytes + delta, s.length - removedKeys.length + 1⟩, some removedKeys)
    | none => some ({ s with index }, none)

def updateItem (s : SizeTrackedStore A B K V) (key : K) (f : V → V) :
    Option (SizeTrackedStore A B K V) :=
  (s.index.updateItem traits key f).map fun index => { s with index }

end SizeTrackedStore

/-! ## The items of the mempool -/

structure MempoolTxPriority where
  priority : Option Nat
  deriving DecidableEq, Repr

namespace MempoolTxPriority

/-- An unknown priority is above all others. -/
def rank (a : MempoolTxPriority) : WithTop Nat :=
  match a.priority with
  | some priority => (priority : WithTop Nat)
  | none => ⊤

theorem rank_injective : Function.Injective rank := by
  rintro ⟨_ | x⟩ ⟨_ | y⟩ h
  · rfl
  · exact absurd h WithTop.top_ne_coe
  · exact absurd h WithTop.coe_ne_top
  · exact congrArg (MempoolTxPriority.mk ∘ some) (WithTop.coe_injective h)

instance : LinearOrder MempoolTxPriority := LinearOrder.lift' rank rank_injective

end MempoolTxPriority

/-- A transaction, which the pool stores behind a pointer that no other key holds. -/
structure TxInMemPool (X : Type) where
  watched : Bool
  tx : X
  bytes : Nat
  timestamp : WithBot Nat
  validatedAt : Nat
  priority : Option Nat

namespace TxInMemPool

variable {X : Type}

def traits : Traits MempoolTxPriority (WithBot Nat) (TxInMemPool X) where
  priority tx := ⟨tx.priority⟩
  timestamp tx := tx.timestamp
  size tx := tx.bytes

def setPriority (priority : Nat) (tx : TxInMemPool X) : TxInMemPool X :=
  { tx with priority := some priority }

end TxInMemPool

/-! ## The two maps agree -/

namespace IndexedStorage

/-- Every item is stored by priority under its own sort key, and nothing else is. -/
def Indexed (traits : Traits A B V) (s : IndexedStorage A B K V) : Prop :=
  ∀ sortKey : SortKey A B K, s.itemsByPriority[sortKey]? =
    s.itemsByHashes[sortKey.key]?.filter fun item => sortKey = .new traits sortKey.key item

variable {traits : Traits A B V} {s : IndexedStorage A B K V}

theorem Indexed.of_change (h : Indexed traits s) {s' : IndexedStorage A B K V} (key : K)
    (value : Option V)
    (hhashes : ∀ other : K, s'.itemsByHashes[other]? =
      if key = other then value else s.itemsByHashes[other]?)
    (hpriority : ∀ sortKey : SortKey A B K, s'.itemsByPriority[sortKey]? =
      if key = sortKey.key then value.filter fun item => sortKey = .new traits key item
      else s.itemsByPriority[sortKey]?) : Indexed traits s' := by
  intro sortKey
  rw [hpriority, hhashes]
  by_cases heq : key = sortKey.key
  · rw [if_pos heq, if_pos heq, heq]
  · rw [if_neg heq, if_neg heq, h sortKey]

theorem Indexed.getElem?_erase (h : Indexed traits s) (key : K) (sortKey : SortKey A B K) :
    (s.itemsByHashes[key]?.elim s.itemsByPriority fun old =>
        s.itemsByPriority.erase (.new traits key old))[sortKey]? =
      if key = sortKey.key then none else s.itemsByPriority[sortKey]? := by
  have hsort := h sortKey
  by_cases heq : key = sortKey.key
  · subst heq
    rw [if_pos rfl]
    cases hold : s.itemsByHashes[sortKey.key]? with
    | none => simpa [hold] using hsort
    | some old =>
      rw [Option.elim_some, OrderedMap.getElem?_erase, hsort, hold]
      by_cases hkey : sortKey = .new traits sortKey.key old
      · rw [if_pos hkey.symm]
      · rw [if_neg (Ne.symm hkey), Option.filter_some_neg (by simpa using hkey)]
  · rw [if_neg heq]
    cases s.itemsByHashes[key]? with
    | none => rfl
    | some old =>
      rw [Option.elim_some, OrderedMap.getElem?_erase, if_neg]
      rintro rfl
      exact heq rfl

theorem Indexed.insert (h : Indexed traits s) (key : K) (val : V) :
    Indexed traits (s.insert traits key val).1 := by
  apply h.of_change key (some val)
  · intro other
    exact OrderedMap.getElem?_insert s.itemsByHashes key other val
  · intro sortKey
    rw [IndexedStorage.insert, OrderedMap.getElem?_insert, h.getElem?_erase]
    by_cases heq : sortKey = .new traits key val
    · rw [if_pos heq.symm, if_pos (by rw [heq]; rfl), Option.filter_some_pos (by simpa using heq)]
    · rw [if_neg (Ne.symm heq), Option.filter_some_neg (by simpa using heq)]

theorem remove_itemsByHashes (key : K) :
    (s.remove traits key).1.itemsByHashes = s.itemsByHashes.erase key := by
  unfold IndexedStorage.remove
  split
  · rfl
  · exact (erase_of_none ‹_›).symm

theorem Indexed.remove (h : Indexed traits s) (key : K) :
    Indexed traits (s.remove traits key).1 := by
  apply h.of_change key none
  · intro other
    rw [remove_itemsByHashes, OrderedMap.getElem?_erase]
  · intro sortKey
    rw [Option.filter_none, ← h.getElem?_erase, IndexedStorage.remove]
    cases s.itemsByHashes[key]? <;> rfl

end IndexedStorage

/-- A change of an item's priority and nothing else. -/
structure ChangesPriority (traits : Traits A B V) (f : V → V) : Prop where
  timestamp : ∀ item, traits.timestamp (f item) = traits.timestamp item
  size : ∀ item, traits.size (f item) = traits.size item
  same : ∀ item, traits.priority (f item) = traits.priority item → f item = item

theorem TxInMemPool.changesPriority {X : Type} (priority : Nat) :
    ChangesPriority traits (setPriority (X := X) priority) where
  timestamp _ := rfl
  size _ := rfl
  same tx h := by
    have hpriority : some priority = tx.priority := congrArg MempoolTxPriority.priority h
    rw [setPriority, hpriority]

namespace IndexedStorage

variable {traits : Traits A B V} {s : IndexedStorage A B K V}

theorem Indexed.updateItem (h : Indexed traits s) {key : K} {f : V → V}
    (hf : ChangesPriority traits f) {s' : IndexedStorage A B K V}
    (hupdate : s.updateItem traits key f = some s') : Indexed traits s' := by
  obtain ⟨item, hitem, rfl⟩ := Option.map_eq_some_iff.mp hupdate
  by_cases hkey : SortKey.new traits key item = SortKey.new traits key (f item)
  · have hsame : f item = item := hf.same item (congrArg SortKey.priority hkey).symm
    rw [hsame, insert_self hitem]
    simpa using h
  · have hinsert := h.insert key (f item)
    rw [IndexedStorage.insert, hitem] at hinsert
    simpa [hkey] using hinsert

end IndexedStorage

/-! ## The counters -/

namespace SizeTrackedStore

variable {traits : Traits A B V} {s : SizeTrackedStore A B K V}

/-- The two maps agree, and the counters count their items. -/
structure Tracked (traits : Traits A B V) (s : SizeTrackedStore A B K V) : Prop where
  indexed : s.index.Indexed traits
  length : s.length = s.index.itemsByHashes.size
  bytes : s.bytes = total (fun _ item => traits.size item) s.index.itemsByHashes

theorem tracked_default : Tracked traits ({} : SizeTrackedStore A B K V) where
  indexed sortKey := by simp
  length := by simp
  bytes := by simp

theorem Tracked.insert (h : Tracked traits s) (key : K) (val : V) :
    Tracked traits (s.insert traits key val).1 := by
  have hindexed := h.indexed.insert key val
  have hbytes := h.bytes
  have hlength := h.length
  unfold SizeTrackedStore.insert
  cases hold : s.index.itemsByHashes[key]? with
  | none =>
    have htotal := total_insert_of_none (f := fun _ item => traits.size item) hold val
    have hsize := size_insert_of_none hold val
    simp only [IndexedStorage.insert, hold] at hindexed ⊢
    exact ⟨hindexed, by dsimp only; omega, by dsimp only; omega⟩
  | some old =>
    have htotal := total_insert_of_some (f := fun _ item => traits.size item) hold val
    have hsize := size_insert_of_some hold val
    simp only [IndexedStorage.insert, hold] at hindexed ⊢
    exact ⟨hindexed, by dsimp only; omega, by dsimp only; omega⟩

theorem Tracked.remove (h : Tracked traits s) (key : K) :
    Tracked traits (s.remove traits key).1 := by
  have hindexed := h.indexed.remove key
  have hbytes := h.bytes
  have hlength := h.length
  unfold SizeTrackedStore.remove
  cases hold : s.index.itemsByHashes[key]? with
  | none =>
    simp only [IndexedStorage.remove, hold] at hindexed ⊢
    exact ⟨hindexed, hlength, hbytes⟩
  | some old =>
    have htotal := total_erase_of_some (f := fun _ item => traits.size item) hold
    have hsize := size_erase_of_some hold
    simp only [IndexedStorage.remove, hold] at hindexed ⊢
    exact ⟨hindexed, by dsimp only; omega, by dsimp only; omega⟩

theorem Tracked.updateItem (h : Tracked traits s) {key : K} {f : V → V}
    (hf : ChangesPriority traits f) {s' : SizeTrackedStore A B K V}
    (hupdate : s.updateItem traits key f = some s') :
    Tracked traits s' ∧ s'.bytes = s.bytes := by
  obtain ⟨index, hindex, rfl⟩ := Option.map_eq_some_iff.mp hupdate
  refine ⟨⟨h.indexed.updateItem hf hindex, ?_, ?_⟩, rfl⟩
  all_goals obtain ⟨item, hitem, rfl⟩ := Option.map_eq_some_iff.mp hindex
  · exact h.length.trans (by rw [size_insert_of_some hitem])
  · have htotal := total_insert_of_some (f := fun _ item => traits.size item) hitem (f item)
    have hbytes := h.bytes
    have hsize := hf.size item
    dsimp only
    omega

end SizeTrackedStore

/-! ## Replacing the worst items -/

namespace IndexedStorage

variable {traits : Traits A B V}

omit [LinearOrder K] in
/-- A first part of the entries, none of which has a higher priority than the new item. -/
theorem selectWorst_spec {freeBytes : Nat} {item : V} {entries : List (SortKey A B K × V)}
    {total total' : Nat} {removed removed' : List K}
    (h : selectWorst traits freeBytes item entries total removed = some (total', removed')) :
    ∃ evicted kept, entries = evicted ++ kept ∧
      removed' = removed ++ evicted.map (·.1.key) ∧
      total' = total + (evicted.map fun entry => traits.size entry.2).sum ∧
      ∀ entry ∈ evicted, entry.1.priority ≤ traits.priority item := by
  induction entries generalizing total removed with
  | nil =>
    cases h
    exact ⟨[], [], by simp⟩
  | cons entry rest ih =>
    obtain ⟨worst, worstItem⟩ := entry
    unfold selectWorst at h
    split at h
    · cases h
    · rename_i hbelow
      have hworst : worst.priority ≤ traits.priority item := le_of_not_gt hbelow
      split at h
      · cases h
      · dsimp only at h
        split at h
        · cases h
          exact ⟨[(worst, worstItem)], rest, rfl, by simp, by simp, by simpa using hworst⟩
        · obtain ⟨evicted, kept, rfl, rfl, rfl, hevicted⟩ := ih h
          refine ⟨(worst, worstItem) :: evicted, kept, rfl, by simp, by simp [Nat.add_assoc], ?_⟩
          simpa using And.intro hworst hevicted

end IndexedStorage

namespace SizeTrackedStore

variable {traits : Traits A B V}

def removeAll (traits : Traits A B V) (s : SizeTrackedStore A B K V) (keys : List K) :
    SizeTrackedStore A B K V :=
  keys.foldl (fun s key => (s.remove traits key).1) s

theorem Tracked.removeAll {s : SizeTrackedStore A B K V} (h : Tracked traits s) (keys : List K) :
    Tracked traits (s.removeAll traits keys) := by
  induction keys generalizing s with
  | nil => exact h
  | cons key keys ih => exact ih (h.remove key)

theorem remove_index (s : SizeTrackedStore A B K V) (key : K) :
    (s.remove traits key).1.index = (s.index.remove traits key).1 := by
  unfold SizeTrackedStore.remove
  dsimp only
  split <;> rfl

theorem removeAll_index (s : SizeTrackedStore A B K V) (keys : List K) :
    (s.removeAll traits keys).index =
      keys.foldl (fun s key => (s.remove traits key).1) s.index := by
  induction keys generalizing s with
  | nil => rfl
  | cons key keys ih => exact (ih _).trans (by rw [remove_index]; rfl)

theorem removeAll_itemsByHashes (s : SizeTrackedStore A B K V) (keys : List K) :
    (s.removeAll traits keys).index.itemsByHashes =
      keys.foldl (·.erase ·) s.index.itemsByHashes := by
  induction keys generalizing s with
  | nil => rfl
  | cons key keys ih =>
    refine (ih _).trans ?_
    rw [remove_index, IndexedStorage.remove_itemsByHashes]
    rfl

theorem removeAll_counters (traits : Traits A B V) {s : SizeTrackedStore A B K V}
    {entries : List (SortKey A B K × V)}
    (hdistinct : (entries.map (·.1.key)).Nodup)
    (hstored : ∀ entry ∈ entries, s.index.itemsByHashes[entry.1.key]? = some entry.2) :
    (s.removeAll traits (entries.map (·.1.key))).bytes =
        s.bytes - (entries.map fun entry => traits.size entry.2).sum ∧
      (s.removeAll traits (entries.map (·.1.key))).length = s.length - entries.length := by
  induction entries generalizing s with
  | nil => simp [removeAll]
  | cons entry entries ih =>
    obtain ⟨hnot, hdistinct⟩ := List.nodup_cons.mp hdistinct
    have hentry := hstored entry (by simp)
    have hremove : s.remove traits entry.1.key =
        (⟨(s.index.remove traits entry.1.key).1, s.bytes - traits.size entry.2, s.length - 1⟩,
          some entry.2) := by
      simp [SizeTrackedStore.remove, IndexedStorage.remove, hentry]
    have hrest : ∀ other ∈ entries,
        (s.remove traits entry.1.key).1.index.itemsByHashes[other.1.key]? = some other.2 := by
      intro other hother
      have hne : entry.1.key ≠ other.1.key :=
        fun heq => hnot (List.mem_map.mpr ⟨other, hother, heq.symm⟩)
      rw [remove_index, IndexedStorage.remove_itemsByHashes, OrderedMap.getElem?_erase,
        if_neg hne]
      exact hstored other (List.mem_cons_of_mem entry hother)
    obtain ⟨hbytes, hlength⟩ := ih hdistinct hrest
    rw [hremove] at hbytes hlength
    have hfirst : s.removeAll traits ((entry :: entries).map (·.1.key)) =
        (s.remove traits entry.1.key).1.removeAll traits (entries.map (·.1.key)) := rfl
    rw [hfirst, hremove, hbytes, hlength, List.map_cons, List.sum_cons, List.length_cons]
    constructor
    · push_cast
      ring
    · push_cast
      ring

/-- The item takes the place of a first part of the others, none of higher priority. -/
structure Replaced (traits : Traits A B V) (s : SizeTrackedStore A B K V) (key : K) (item : V)
    (removed : List K) (s' : SizeTrackedStore A B K V) : Prop where
  evicted : ∃ evicted kept, s.index.itemsByPriority.toList = evicted ++ kept ∧
    removed = evicted.map (·.1.key) ∧
    (∀ worst ∈ evicted, ∀ better ∈ kept, worst.1 < better.1) ∧
    ∀ worst ∈ evicted, traits.priority worst.2 ≤ traits.priority item
  items : ∀ other, s'.index.itemsByHashes[other]? =
    if key = other then some item
    else if other ∈ removed then none else s.index.itemsByHashes[other]?

end SizeTrackedStore

namespace IndexedStorage

variable {traits : Traits A B V} {s : IndexedStorage A B K V}

theorem Indexed.of_mem (h : Indexed traits s) {entry : SortKey A B K × V}
    (hmem : entry ∈ s.itemsByPriority.toList) :
    s.itemsByHashes[entry.1.key]? = some entry.2 ∧ entry.1 = .new traits entry.1.key entry.2 := by
  have hget := ExtTreeMap.mem_toList_iff_getElem?_eq_some.mp hmem
  rw [h entry.1] at hget
  obtain ⟨hitem, hkey⟩ := Option.filter_eq_some_iff.mp hget
  exact ⟨hitem, of_decide_eq_true hkey⟩

theorem Indexed.keys_nodup (h : Indexed traits s) :
    (s.itemsByPriority.toList.map (·.1.key)).Nodup := by
  rw [List.nodup_iff_pairwise_ne, List.pairwise_map]
  refine s.itemsByPriority.distinct_keys_toList.imp_of_mem fun {a b} ha hb hne heq => hne ?_
  obtain ⟨hitem, hkey⟩ := h.of_mem ha
  obtain ⟨hitem', hkey'⟩ := h.of_mem hb
  have hval : a.2 = b.2 := Option.some.inj (by rw [← hitem, heq, hitem'])
  rw [Std.compare_eq_iff_eq, hkey, hkey', heq, hval]

theorem Indexed.perm (h : Indexed traits s) :
    (s.itemsByPriority.toList.map fun entry => (entry.1.key, entry.2)).Perm
      s.itemsByHashes.toList := by
  have hnodup : (s.itemsByPriority.toList.map fun entry => (entry.1.key, entry.2)).Nodup := by
    apply List.Nodup.of_map Prod.fst
    rw [List.map_map]
    exact h.keys_nodup
  rw [List.perm_ext_iff_of_nodup hnodup (toList_nodup_entries _)]
  intro pair
  rw [ExtTreeMap.mem_toList_iff_getElem?_eq_some, List.mem_map]
  constructor
  · rintro ⟨entry, hmem, rfl⟩
    exact (h.of_mem hmem).1
  · intro hget
    refine ⟨(.new traits pair.1 pair.2, pair.2), ?_, rfl⟩
    rw [OrderedMap.mem_toList_iff, h]
    exact Option.filter_eq_some_iff.mpr ⟨hget, by simp [SortKey.new]⟩

theorem tryInsertWithReplacement_cases (traits : Traits A B V) (s : IndexedStorage A B K V)
    (freeBytes : Nat) (key : K) (item : V) :
    s.tryInsertWithReplacement traits freeBytes key item = (s, none, 0) ∨
    ∃ evicted kept, s.itemsByPriority.toList = evicted ++ kept ∧ s.itemsByHashes[key]? = none ∧
      (∀ entry ∈ evicted, entry.1.priority ≤ traits.priority item) ∧
      traits.size item ≤ freeBytes + (evicted.map fun entry => traits.size entry.2).sum ∧
      s.tryInsertWithReplacement traits freeBytes key item =
        ((evicted.map (·.1.key)).foldl (fun s worst => (s.remove traits worst).1)
            (s.insert traits key item).1,
          some (evicted.map (·.1.key)), (evicted.map fun entry => traits.size entry.2).sum) := by
  unfold IndexedStorage.tryInsertWithReplacement
  split
  · exact .inl rfl
  · split
    · exact .inl rfl
    · rename_i hfresh
      split
      · exact .inl rfl
      · rename_i totalSizeRemoved toBeRemoved hselect
        split
        · exact .inl rfl
        · rename_i hroom
          obtain ⟨evicted, kept, hentries, hremoved, htotal, hpriority⟩ := selectWorst_spec hselect
          rw [List.nil_append] at hremoved
          rw [Nat.zero_add] at htotal
          subst hremoved htotal
          have hnone : s.itemsByHashes[key]? = none := by
            cases hget : s.itemsByHashes[key]? with
            | none => rfl
            | some old => exact absurd (contains_of_some hget) hfresh
          exact .inr ⟨evicted, kept, hentries, hnone, hpriority, Nat.le_of_not_gt hroom, rfl⟩

theorem ordered (s : IndexedStorage A B K V) :
    s.itemsByPriority.toList.Pairwise fun a b => a.1 < b.1 :=
  s.itemsByPriority.ordered_keys_toList.imp compare_lt_iff_lt.mp

end IndexedStorage

namespace SizeTrackedStore

variable {traits : Traits A B V} {s : SizeTrackedStore A B K V}

theorem insert_of_fresh {key : K} (h : s.index.itemsByHashes[key]? = none) (item : V) :
    (s.insert traits key item).1 =
      ⟨(s.index.insert traits key item).1, s.bytes + traits.size item, s.length + 1⟩ := by
  simp [SizeTrackedStore.insert, IndexedStorage.insert, h]

theorem Tracked.replacement (h : Tracked traits s) {key : K}
    (hfresh : s.index.itemsByHashes[key]? = none) {evicted : List (SortKey A B K × V)}
    (hmem : ∀ entry ∈ evicted, entry ∈ s.index.itemsByPriority.toList)
    (hdistinct : (evicted.map (·.1.key)).Nodup) (item : V) :
    (s.insert traits key item).1.removeAll traits (evicted.map (·.1.key)) =
      ⟨(evicted.map (·.1.key)).foldl (fun s worst => (s.remove traits worst).1)
          (s.index.insert traits key item).1,
        s.bytes + ((traits.size item : Int) - (evicted.map fun entry => traits.size entry.2).sum),
        s.length - (evicted.map (·.1.key)).length + 1⟩ := by
  have hinsert := @insert_of_fresh _ _ _ _ _ _ _ traits s key hfresh item
  have hstored : ∀ entry ∈ evicted,
      (s.insert traits key item).1.index.itemsByHashes[entry.1.key]? = some entry.2 := by
    intro entry hentry
    have hold := (h.indexed.of_mem (hmem entry hentry)).1
    have hne : key ≠ entry.1.key := by
      rintro rfl
      rw [hold] at hfresh
      cases hfresh
    rw [hinsert]
    exact (OrderedMap.getElem?_insert _ key entry.1.key item).trans ((if_neg hne).trans hold)
  obtain ⟨hbytes, hlength⟩ := removeAll_counters traits hdistinct hstored
  rw [hinsert] at hbytes hlength ⊢
  refine SizeTrackedStore.ext (removeAll_index _ _) (hbytes.trans ?_) (hlength.trans ?_)
  · ring
  · rw [List.length_map]
    ring

theorem Tracked.tryInsertWithReplacement (h : Tracked traits s) {maxTotalBytes : Nat}
    (hmax : s.bytes ≤ maxTotalBytes) (key : K) (item : V) :
    ∃ s' result, s.tryInsertWithReplacement traits maxTotalBytes key item = some (s', result) ∧
      Tracked traits s' ∧ s'.bytes ≤ maxTotalBytes ∧ (result = none → s' = s) ∧
      ∀ removed, result = some removed → Replaced traits s key item removed s' := by
  have hpos : 0 ≤ s.bytes := by
    rw [h.bytes]
    exact Int.natCast_nonneg _
  have hcurrent : ((max s.bytes 0).toNat : Int) = s.bytes := by omega
  unfold SizeTrackedStore.tryInsertWithReplacement
  rw [if_neg (by omega)]
  rcases s.index.tryInsertWithReplacement_cases traits (maxTotalBytes - (max s.bytes 0).toNat) key
    item with hrefused | ⟨evicted, kept, hentries, hfresh, hpriority, hroom, hreplaced⟩
  · rw [hrefused]
    exact ⟨s, none, rfl, h, hmax, fun _ => rfl, by simp⟩
  · rw [hreplaced]
    have hmem : ∀ entry ∈ evicted, entry ∈ s.index.itemsByPriority.toList := by
      intro entry hentry
      rw [hentries]
      exact List.mem_append_left kept hentry
    have hreplacement := h.replacement hfresh hmem
      (h.indexed.keys_nodup.sublist ((hentries ▸ List.sublist_append_left evicted kept).map _)) item
    refine ⟨_, _, rfl, hreplacement ▸ (h.insert key item).removeAll _, ?_, by simp, ?_⟩
    · dsimp only
      omega
    · rintro removed ⟨⟩
      refine ⟨⟨evicted, kept, hentries, rfl, ?_, ?_⟩, fun other => ?_⟩
      · have hordered := s.index.ordered
        rw [hentries] at hordered
        exact (List.pairwise_append.mp hordered).2.2
      · intro worst hworst
        have hle := hpriority worst hworst
        rwa [(h.indexed.of_mem (hmem worst hworst)).2] at hle
      · rw [← hreplacement, removeAll_itemsByHashes, OrderedMap.getElem?_eraseAll]
        have hitems : (s.insert traits key item).1.index.itemsByHashes =
            s.index.itemsByHashes.insert key item := by
          rw [insert_of_fresh hfresh]
          rfl
        rw [hitems, OrderedMap.getElem?_insert]
        have hnot : key ∉ evicted.map (·.1.key) := by
          intro hremoved
          obtain ⟨entry, hentry, rfl⟩ := List.mem_map.mp hremoved
          rw [(h.indexed.of_mem (hmem entry hentry)).1] at hfresh
          cases hfresh
        by_cases heq : key = other
        · subst heq
          rw [if_neg hnot, if_pos rfl, if_pos rfl]
        · rw [if_neg heq, if_neg heq]

/-! ## Runs -/

/-- The stores reached with a fixed bound, when an update only changes the priority. -/
inductive Reachable (traits : Traits A B V) (maxTotalBytes : Nat) :
    SizeTrackedStore A B K V → Prop
  | default : Reachable traits maxTotalBytes {}
  | insert {s : SizeTrackedStore A B K V} (h : Reachable traits maxTotalBytes s) (key : K)
      (val : V) (hfits : (s.insert traits key val).1.bytes ≤ maxTotalBytes) :
      Reachable traits maxTotalBytes (s.insert traits key val).1
  | remove {s : SizeTrackedStore A B K V} (h : Reachable traits maxTotalBytes s) (key : K) :
      Reachable traits maxTotalBytes (s.remove traits key).1
  | updateItem {s s' : SizeTrackedStore A B K V} (h : Reachable traits maxTotalBytes s) {key : K}
      {f : V → V} (hf : ChangesPriority traits f) (hstep : s.updateItem traits key f = some s') :
      Reachable traits maxTotalBytes s'
  | tryInsertWithReplacement {s s' : SizeTrackedStore A B K V}
      (h : Reachable traits maxTotalBytes s) {key : K} {item : V} {removed : Option (List K)}
      (hstep : s.tryInsertWithReplacement traits maxTotalBytes key item = some (s', removed)) :
      Reachable traits maxTotalBytes s'

theorem Reachable.tracked {maxTotalBytes : Nat} (h : Reachable traits maxTotalBytes s) :
    Tracked traits s ∧ s.bytes ≤ maxTotalBytes := by
  induction h with
  | default => exact ⟨tracked_default, by simp⟩
  | insert _ key val hfits ih => exact ⟨ih.1.insert key val, hfits⟩
  | @remove s _ key ih =>
    refine ⟨ih.1.remove key, ?_⟩
    have hle : (s.remove traits key).1.bytes ≤ s.bytes := by
      unfold SizeTrackedStore.remove
      dsimp only
      split
      · dsimp only
        omega
      · rfl
    exact hle.trans ih.2
  | updateItem _ hf hstep ih =>
    obtain ⟨htracked, hbytes⟩ := ih.1.updateItem hf hstep
    exact ⟨htracked, hbytes ▸ ih.2⟩
  | tryInsertWithReplacement _ hstep ih =>
    obtain ⟨s', result, htry, htracked, hbytes, -⟩ := ih.1.tryInsertWithReplacement ih.2 _ _
    obtain ⟨rfl, -⟩ := Prod.mk.inj (Option.some.inj (htry.symm.trans hstep))
    exact ⟨htracked, hbytes⟩

/-- The two maps hold the same items, the counters count them and keep to the bound; an item is
either refused, and nothing changes, or takes the place of the worst ones. -/
theorem store_consistent {maxTotalBytes : Nat} (h : Reachable traits maxTotalBytes s) :
    (s.index.itemsByPriority.toList.map fun entry => (entry.1.key, entry.2)).Perm
        s.index.itemsByHashes.toList ∧
      s.length = s.index.itemsByHashes.size ∧
      s.bytes = total (fun _ item => traits.size item) s.index.itemsByHashes ∧
      s.bytes ≤ maxTotalBytes ∧
      ∀ key item, ∃ s' result,
        s.tryInsertWithReplacement traits maxTotalBytes key item = some (s', result) ∧
        (result = none → s' = s) ∧
        ∀ removed, result = some removed → Replaced traits s key item removed s' := by
  obtain ⟨htracked, hmax⟩ := h.tracked
  refine ⟨htracked.indexed.perm, htracked.length, htracked.bytes, hmax, fun key item => ?_⟩
  obtain ⟨s', result, htry, -, -, hnone, hsome⟩ := htracked.tryInsertWithReplacement hmax key item
  exact ⟨s', result, htry, hnone, hsome⟩

/-- A transaction of unknown priority is offered to a pool with one that got its priority late. -/
theorem store_consistent_update :
    let tx : TxInMemPool Unit := ⟨false, (), 3, some 1, 0, none⟩
    let s := (({} : SizeTrackedStore MempoolTxPriority (WithBot Nat) Nat (TxInMemPool Unit)).insert
      TxInMemPool.traits 7 tx).1
    ∃ s', s.updateItem TxInMemPool.traits 7 (TxInMemPool.setPriority 2) = some s' ∧
      ∃ s'' result, s'.tryInsertWithReplacement TxInMemPool.traits 5 8
        ⟨false, (), 4, some 2, 0, none⟩ = some (s'', result) := by
  intro tx s
  have hs : Reachable TxInMemPool.traits 5 s :=
    .insert .default 7 tx (by simp [SizeTrackedStore.insert, IndexedStorage.insert, tx,
      TxInMemPool.traits])
  have hitem : s.index.itemsByHashes[7]? = some tx := by
    simp [s, SizeTrackedStore.insert, IndexedStorage.insert]
  obtain ⟨s', hupdate⟩ :
      ∃ s', s.updateItem TxInMemPool.traits 7 (TxInMemPool.setPriority 2) = some s' := by
    simp [SizeTrackedStore.updateItem, IndexedStorage.updateItem, hitem]
  obtain ⟨s'', result, htry, -⟩ := (store_consistent
    (hs.updateItem (TxInMemPool.changesPriority 2) hupdate)).2.2.2.2 8
    ⟨false, (), 4, some 2, 0, none⟩
  exact ⟨s', hupdate, s'', result, htry⟩

end SizeTrackedStore

end PolkadotSdk.TransactionPool.Mempool
