import PolkadotSdk.Lib.MapTotal
import PolkadotSdk.Lib.Run

/-! # Indexed transactions

A block whose runtime indexes data of its extrinsics is stored as a list of entries that name
the data by hash; the data itself is in the `TRANSACTION` column, with a reference count. The
counts match the entries of the blocks that are stored as long as no block comes with a
downloaded indexed body, no stored index is written a second time, and every renewed hash is in
the column when its reference is added.
-/

namespace PolkadotSdk.Db.TransactionIndex

open Std

abbrev Bytes := List UInt8

structure ExtrinsicCodec (E : Type) where
  encode : E → Bytes
  decode : Bytes → Option E
  decode_encode : ∀ extrinsic rest, decode (encode extrinsic ++ rest) = some extrinsic

variable {H B E : Type} [LinearOrder H] [LinearOrder B]

/-! ## The column -/

abbrev Column (H : Type) [LinearOrder H] := ExtTreeMap H (Nat × Bytes)

inductive Change (H : Type) where
  | store (hash : H) (preimage : Bytes)
  | reference (hash : H)
  | release (hash : H)

def commitChange (column : Column H) : Change H → Column H
  | .store hash preimage =>
    match column[hash]? with
    | some (count, value) => column.insert hash (count + 1, value)
    | none => column.insert hash (1, preimage)
  | .reference hash =>
    match column[hash]? with
    | some (count, value) => column.insert hash (count + 1, value)
    | none => column
  | .release hash =>
    match column[hash]? with
    | some (count, value) =>
      if count - 1 = 0 then column.erase hash else column.insert hash (count - 1, value)
    | none => column

def commit (column : Column H) (changes : List (Change H)) : Column H :=
  changes.foldl commitChange column

def count (column : Column H) (hash : H) : Nat := (column[hash]?.map Prod.fst).getD 0

/-! ## Index operations -/

inductive IndexOperation (H : Type) where
  | insert (extrinsic : Nat) (hash : H) (size : Nat)
  | renew (extrinsic : Nat) (hash : H)
  deriving DecidableEq

inductive DbExtrinsic (H E : Type) where
  | indexed (hash : H) (header : Bytes)
  | full (extrinsic : E)
  | multiRenew (hashes : List H) (extrinsic : Bytes)

def DbExtrinsic.hashes : DbExtrinsic H E → List H
  | .indexed hash _ => [hash]
  | .full _ => []
  | .multiRenew hashes _ => hashes

def inserted (ops : List (IndexOperation H)) (index : Nat) : Option (H × Nat) :=
  (ops.filterMap fun
    | .insert extrinsic hash size => if extrinsic = index then some (hash, size) else none
    | .renew _ _ => none).getLast?

def renewed (ops : List (IndexOperation H)) (index : Nat) : List H :=
  ops.filterMap fun
    | .insert _ _ _ => none
    | .renew extrinsic hash => if extrinsic = index then some hash else none

/-- Data that was fetched ahead is stored with the first reference to it. -/
def storeOrReference : List H → ExtTreeMap H Bytes → List (Change H) × ExtTreeMap H Bytes
  | [], prefetched => ([], prefetched)
  | hash :: hashes, prefetched =>
    match prefetched[hash]? with
    | some bytes =>
      let (changes, left) := storeOrReference hashes (prefetched.erase hash)
      (.store hash bytes :: changes, left)
    | none =>
      let (changes, left) := storeOrReference hashes prefetched
      (.reference hash :: changes, left)

variable (codec : ExtrinsicCodec E)

def indexExtrinsic (ops : List (IndexOperation H)) (index : Nat) (extrinsic : E)
    (prefetched : ExtTreeMap H Bytes) :
    DbExtrinsic H E × List (Change H) × ExtTreeMap H Bytes :=
  let encoded := codec.encode extrinsic
  match renewed ops index with
  | [] =>
    match inserted ops index with
    | some (hash, size) =>
      if size ≤ encoded.length then
        let offset := encoded.length - size
        (.indexed hash (encoded.take offset), [.store hash (encoded.drop offset)], prefetched)
      else (.full extrinsic, [], prefetched)
    | none => (.full extrinsic, [], prefetched)
  | [hash] => (.indexed hash encoded, storeOrReference [hash] prefetched)
  | hashes => (.multiRenew hashes encoded, storeOrReference hashes prefetched)

def applyIndexOps (ops : List (IndexOperation H)) :
    Nat → List E → ExtTreeMap H Bytes → List (DbExtrinsic H E) × List (Change H)
  | _, [], _ => ([], [])
  | index, extrinsic :: body, prefetched =>
    let (entry, changes, left) := indexExtrinsic codec ops index extrinsic prefetched
    let (entries, rest) := applyIndexOps ops (index + 1) body left
    (entry :: entries, changes ++ rest)

def applyIndexedBody (hashOf : Bytes → H) (body : List Bytes) : List (Change H) :=
  body.map fun extrinsic => .store (hashOf extrinsic) extrinsic

/-! ## Blocks -/

structure Store (B H E : Type) [LinearOrder B] [LinearOrder H] where
  body : ExtTreeMap B (List E) := ∅
  bodyIndex : ExtTreeMap B (List (DbExtrinsic H E)) := ∅
  transaction : Column H := ∅
  imported : ExtTreeMap B (List E) := ∅

structure ImportBlock (B H E : Type) [LinearOrder H] where
  block : B
  body : Option (List E)
  indexOps : List (IndexOperation H) := []
  prefetched : ExtTreeMap H Bytes := ∅
  indexedBody : Option (List Bytes) := none

/-- A body goes to `BODY`, or to `BODY_INDEX` where there are index operations. -/
def Store.importBody (s : Store B H E) (op : ImportBlock B H E) : Store B H E :=
  match op.body with
  | none => s
  | some body =>
    if op.indexOps = [] then
      { s with
        body := s.body.insert op.block body
        imported := s.imported.insert op.block body }
    else
      let (entries, changes) := applyIndexOps codec op.indexOps 0 body op.prefetched
      { s with
        bodyIndex := s.bodyIndex.insert op.block entries
        transaction := commit s.transaction changes
        imported := s.imported.insert op.block body }

def Store.importIndexedBody (hashOf : Bytes → H) (s : Store B H E) (op : ImportBlock B H E) :
    Store B H E :=
  match op.indexedBody with
  | none => s
  | some body => { s with transaction := commit s.transaction (applyIndexedBody hashOf body) }

def Store.pruneBlock (s : Store B H E) (block : B) : Store B H E :=
  { body := s.body.erase block
    bodyIndex := s.bodyIndex.erase block
    transaction := commit s.transaction
      (((s.bodyIndex[block]?.getD []).flatMap DbExtrinsic.hashes).map .release)
    imported := s.imported.erase block }

def readExtrinsic (column : Column H) : DbExtrinsic H E → Option E
  | .indexed hash header => column[hash]?.bind fun stored => codec.decode (header ++ stored.2)
  | .full extrinsic => some extrinsic
  | .multiRenew _ extrinsic => codec.decode extrinsic

/-- Nothing where the block has no body, and an error inside where it cannot be read. -/
def Store.bodyUncached (s : Store B H E) (block : B) : Option (Option (List E)) :=
  match s.body[block]? with
  | some body => some (some body)
  | none => s.bodyIndex[block]?.map fun entries => entries.mapM (readExtrinsic codec s.transaction)

inductive Event (B H E : Type) [LinearOrder H] where
  | importBlock (op : ImportBlock B H E)
  | pruneBlock (block : B)

def Store.step (hashOf : Bytes → H) (s : Store B H E) : Event B H E → Option (Store B H E)
  | .importBlock op => some ((s.importBody codec op).importIndexedBody hashOf op)
  | .pruneBlock block => some (s.pruneBlock block)

/-! ## Counting references -/

variable {codec} {hashOf : Bytes → H}

section Names

-- which data a hash names
variable {names : Bytes → H → Prop}

@[simp] theorem count_empty (hash : H) : count (∅ : Column H) hash = 0 := by simp [count]

theorem count_insert (column : Column H) (key hash : H) (entry : Nat × Bytes) :
    count (column.insert key entry) hash = if key = hash then entry.1 else count column hash := by
  unfold count
  rw [OrderedMap.getElem?_insert]
  split <;> rfl

/-- Every value in the column is the data its hash names, and is referred to. -/
def Sound (names : Bytes → H → Prop) (column : Column H) : Prop :=
  ∀ hash entry, column[hash]? = some entry → names entry.2 hash ∧ 0 < entry.1

variable {column : Column H} {hash : H}

theorem Sound.insert (h : Sound names column) {entry : Nat × Bytes}
    (hentry : names entry.2 hash ∧ 0 < entry.1) :
    Sound names (column.insert hash entry) := by
  intro other stored hstored
  rcases OrderedMap.of_insert hstored with ⟨rfl, rfl⟩ | hstored
  · exact hentry
  · exact h other stored hstored

theorem count_pos (h : Sound names column) :
    0 < count column hash ↔ ∃ entry, column[hash]? = some entry := by
  unfold count
  cases hstored : column[hash]? with
  | none => simp
  | some entry => simpa using (h hash entry hstored).2

def Adds (column after : Column H) (hashes : List H) : Prop :=
  ∀ hash, count after hash = count column hash + hashes.count hash

theorem Adds.nil (column : Column H) : Adds column column [] := fun _ => rfl

theorem Adds.append {first second third : Column H} {hashes rest : List H}
    (h : Adds first second hashes) (hrest : Adds second third rest) :
    Adds first third (hashes ++ rest) := by
  intro hash
  rw [hrest hash, h hash, List.count_append, Nat.add_assoc]

theorem Adds.single {after : Column H} (hself : count after hash = count column hash + 1)
    (hothers : ∀ other, hash ≠ other → count after other = count column other) :
    Adds column after [hash] := by
  intro other
  rw [List.count_singleton]
  by_cases heq : hash = other
  · subst heq
    simp [hself]
  · simp [heq, hothers other heq]

theorem Adds.bump {entry : Nat × Bytes} (hstored : column[hash]? = some entry) :
    Adds column (column.insert hash (entry.1 + 1, entry.2)) [hash] :=
  .single (by rw [count_insert, if_pos rfl]; simp [count, hstored])
    fun other hne => by rw [count_insert, if_neg hne]

theorem Adds.fresh (preimage : Bytes) (hmissing : column[hash]? = none) :
    Adds column (column.insert hash (1, preimage)) [hash] :=
  .single (by rw [count_insert, if_pos rfl]; simp [count, hmissing])
    fun other hne => by rw [count_insert, if_neg hne]

theorem store_adds (h : Sound names column) {preimage : Bytes} (hhash : names preimage hash) :
    Adds column (commitChange column (.store hash preimage)) [hash] ∧
      Sound names (commitChange column (.store hash preimage)) := by
  simp only [commitChange]
  cases hstored : column[hash]? with
  | none => exact ⟨.fresh preimage hstored, h.insert ⟨hhash, Nat.one_pos⟩⟩
  | some entry =>
    exact ⟨.bump hstored, h.insert ⟨(h hash entry hstored).1, Nat.succ_pos _⟩⟩

theorem reference_adds (h : Sound names column) (hstored : 0 < count column hash) :
    Adds column (commitChange column (.reference hash)) [hash] ∧
      Sound names (commitChange column (.reference hash)) := by
  obtain ⟨entry, hstored⟩ := (count_pos h).mp hstored
  simp only [commitChange, hstored]
  exact ⟨.bump hstored, h.insert ⟨(h hash entry hstored).1, Nat.succ_pos _⟩⟩

theorem release_adds (h : Sound names column) (hstored : 0 < count column hash) :
    Adds (commitChange column (.release hash)) column [hash] ∧
      Sound names (commitChange column (.release hash)) := by
  obtain ⟨entry, hentry⟩ := (count_pos h).mp hstored
  have hpos := (h hash entry hentry).2
  simp only [commitChange, hentry]
  split
  · rename_i hlast
    refine ⟨.single ?_ fun other hne => ?_, fun other stored hother =>
      h other stored (OrderedMap.of_erase hother).2⟩
    · simp [count, hentry]
      omega
    · rw [count, count, OrderedMap.getElem?_erase, if_neg hne]
  · rename_i hmore
    refine ⟨.single ?_ fun other hne => ?_, h.insert ⟨(h hash entry hentry).1, by omega⟩⟩
    · rw [count_insert, if_pos rfl]
      simp [count, hentry]
      omega
    · rw [count_insert, if_neg hne]

theorem releaseAll_adds (h : Sound names column) {hashes : List H}
    (hstored : ∀ hash, hashes.count hash ≤ count column hash) :
    Adds (commit column (hashes.map .release)) column hashes ∧
      Sound names (commit column (hashes.map .release)) := by
  induction hashes generalizing column with
  | nil => exact ⟨.nil column, h⟩
  | cons hash hashes ih =>
    have hpos : 0 < count column hash := by
      have hle := hstored hash
      rw [List.count_cons_self] at hle
      omega
    obtain ⟨hadds, hsound⟩ := release_adds h hpos
    obtain ⟨hrest, hsound⟩ := ih hsound fun other => by
      have hle := hstored other
      have hone := hadds other
      rw [List.count_cons] at hle
      rw [List.count_singleton] at hone
      omega
    refine ⟨fun other => ?_, hsound⟩
    have hfirst := hadds other
    have hlater := hrest other
    rw [List.count_cons]
    rw [List.count_singleton] at hfirst
    simp only [List.map_cons, commit, List.foldl_cons] at hlater ⊢
    omega

theorem Adds.pos {column after : Column H} {hashes : List H} (h : Adds column after hashes)
    (hpos : 0 < count column hash ∨ hash ∈ hashes) : 0 < count after hash := by
  rw [h hash]
  rcases hpos with hpos | hmem
  · omega
  · have := List.count_pos_iff.mpr hmem
    omega

/-! ## The entries of a body -/

/-- The hash has data in the column, or data that was fetched ahead. -/
def Ready (column : Column H) (prefetched : ExtTreeMap H Bytes) (hash : H) : Prop :=
  0 < count column hash ∨ ∃ bytes, prefetched[hash]? = some bytes

def Fetched (names : Bytes → H → Prop) (prefetched : ExtTreeMap H Bytes) : Prop :=
  ∀ hash bytes, prefetched[hash]? = some bytes → names bytes hash

structure Refers (names : Bytes → H → Prop) (column after : Column H)
    (prefetched left : ExtTreeMap H Bytes) (hashes : List H) : Prop where
  adds : Adds column after hashes
  sound : Sound names after
  fetched : Fetched names left
  ready : ∀ hash, Ready column prefetched hash → Ready after left hash

theorem Refers.cons {column middle after : Column H}
    {prefetched between left : ExtTreeMap H Bytes} {hash : H} {hashes : List H}
    (h : Refers names column middle prefetched between [hash])
    (hrest : Refers names middle after between left hashes) :
    Refers names column after prefetched left (hash :: hashes) :=
  ⟨h.adds.append hrest.adds, hrest.sound, hrest.fetched,
    fun other hother => hrest.ready other (h.ready other hother)⟩

variable {prefetched : ExtTreeMap H Bytes}

theorem storeOrReference_refers (h : Sound names column) (hfetched : Fetched names prefetched)
    {hashes : List H} (hready : ∀ hash ∈ hashes, Ready column prefetched hash) :
    Refers names column (commit column (storeOrReference hashes prefetched).1) prefetched
      (storeOrReference hashes prefetched).2 hashes := by
  induction hashes generalizing column prefetched with
  | nil => exact ⟨.nil column, h, hfetched, fun _ hready => hready⟩
  | cons hash hashes ih =>
    have hself := hready hash List.mem_cons_self
    rw [storeOrReference]
    cases hbytes : prefetched[hash]? with
    | some bytes =>
      obtain ⟨hadds, hsound⟩ := store_adds h (hfetched hash bytes hbytes)
      have hfirst : Refers names column (commitChange column (.store hash bytes)) prefetched
          (prefetched.erase hash) [hash] := by
        refine ⟨hadds, hsound, fun other found hfound =>
          hfetched other found (OrderedMap.of_erase hfound).2, fun other hother => ?_⟩
        by_cases heq : hash = other
        · exact .inl (hadds.pos (.inr (by rw [heq]; exact List.mem_singleton_self other)))
        · refine hother.imp (fun hpos => hadds.pos (.inl hpos)) fun ⟨found, hfound⟩ => ?_
          exact ⟨found, by rw [OrderedMap.getElem?_erase, if_neg heq, hfound]⟩
      exact hfirst.cons (ih hsound hfirst.fetched fun other hother =>
        hfirst.ready other (hready other (List.mem_cons_of_mem hash hother)))
    | none =>
      have hpos : 0 < count column hash := hself.resolve_right fun ⟨bytes, hsome⟩ => by
        rw [hbytes] at hsome
        cases hsome
      obtain ⟨hadds, hsound⟩ := reference_adds h hpos
      have hfirst : Refers names column (commitChange column (.reference hash)) prefetched
          prefetched [hash] :=
        ⟨hadds, hsound, hfetched, fun _ hother => hother.imp_left fun hpos =>
          hadds.pos (.inl hpos)⟩
      exact hfirst.cons (ih hsound hfetched fun other hother =>
        hfirst.ready other (hready other (List.mem_cons_of_mem hash hother)))

def Represents (codec : ExtrinsicCodec E) (names : Bytes → H → Prop) : DbExtrinsic H E → E → Prop
  | .indexed hash header, extrinsic =>
    header = codec.encode extrinsic ∨
      ∃ data, names data hash ∧ header ++ data = codec.encode extrinsic
  | .full stored, extrinsic => stored = extrinsic
  | .multiRenew _ encoded, extrinsic => encoded = codec.encode extrinsic

theorem readExtrinsic_eq (hunique : ∀ a b hash, names a hash → names b hash → a = b)
    (h : Sound names column) {entry : DbExtrinsic H E} {extrinsic : E}
    (hentry : Represents codec names entry extrinsic)
    (hstored : ∀ hash ∈ entry.hashes, 0 < count column hash) :
    readExtrinsic codec column entry = some extrinsic := by
  cases entry with
  | full stored => exact congrArg some hentry
  | multiRenew hashes encoded =>
    have hdecode := codec.decode_encode extrinsic []
    rw [List.append_nil] at hdecode
    rw [readExtrinsic, show encoded = codec.encode extrinsic from hentry, hdecode]
  | indexed hash header =>
    obtain ⟨stored, hget⟩ := (count_pos h).mp (hstored hash (List.mem_singleton_self hash))
    rw [readExtrinsic, hget, Option.bind_some]
    rcases hentry with rfl | ⟨data, hdata, hencode⟩
    · exact codec.decode_encode extrinsic stored.2
    · have hsame : stored.2 = data := hunique _ _ hash (h hash stored hget).1 hdata
      have hdecode := codec.decode_encode extrinsic []
      rw [List.append_nil] at hdecode
      rw [hsame, hencode, hdecode]

theorem mapM_readExtrinsic (hunique : ∀ a b hash, names a hash → names b hash → a = b)
    (h : Sound names column) {entries : List (DbExtrinsic H E)} {body : List E}
    (hall : List.Forall₂ (Represents codec names) entries body)
    (hstored : ∀ entry ∈ entries, ∀ hash ∈ entry.hashes, 0 < count column hash) :
    entries.mapM (readExtrinsic codec column) = some body := by
  induction hall with
  | nil => rfl
  | cons hentry _ ih =>
    rw [List.mapM_cons, readExtrinsic_eq hunique h hentry (hstored _ List.mem_cons_self),
      ih fun entry hmem => hstored entry (List.mem_cons_of_mem _ hmem)]
    rfl

def StoresAt (codec : ExtrinsicCodec E) (ops : List (IndexOperation H)) (index : Nat)
    (extrinsic : E) (hash : H) : Prop :=
  renewed ops index = [] ∧ ∃ size, inserted ops index = some (hash, size) ∧
    size ≤ (codec.encode extrinsic).length

/-- An insertion names the hash of the last bytes of its extrinsic. -/
def InsertsOwn (codec : ExtrinsicCodec E) (names : Bytes → H → Prop)
    (ops : List (IndexOperation H)) (index : Nat) (extrinsic : E) : Prop :=
  ∀ hash size, .insert index hash size ∈ ops → size ≤ (codec.encode extrinsic).length →
    names ((codec.encode extrinsic).drop ((codec.encode extrinsic).length - size)) hash

variable {ops : List (IndexOperation H)}

omit [LinearOrder H] in
theorem mem_of_inserted {index size : Nat} (h : inserted ops index = some (hash, size)) :
    .insert index hash size ∈ ops := by
  obtain ⟨op, hop, hsome⟩ := List.mem_filterMap.mp (List.mem_of_getLast? h)
  cases op with
  | renew extrinsic other => cases hsome
  | insert extrinsic other length =>
    dsimp only at hsome
    split at hsome
    · rename_i heq
      cases hsome
      exact heq ▸ hop
    · cases hsome

theorem indexExtrinsic_refers (h : Sound names column) (hfetched : Fetched names prefetched)
    {index : Nat} {extrinsic : E} (hinsert : InsertsOwn codec names ops index extrinsic)
    (hready : ∀ hash ∈ renewed ops index, Ready column prefetched hash) :
    Refers names column
        (commit column (indexExtrinsic codec ops index extrinsic prefetched).2.1) prefetched
        (indexExtrinsic codec ops index extrinsic prefetched).2.2
        (indexExtrinsic codec ops index extrinsic prefetched).1.hashes ∧
      Represents codec names (indexExtrinsic codec ops index extrinsic prefetched).1 extrinsic ∧
      ∀ hash, StoresAt codec ops index extrinsic hash →
        hash ∈ (indexExtrinsic codec ops index extrinsic prefetched).1.hashes := by
  have hsame : Refers names column column prefetched prefetched [] :=
    ⟨.nil column, h, hfetched, fun _ hother => hother⟩
  unfold indexExtrinsic
  dsimp only
  split
  · rename_i hrenewed
    split
    · rename_i hash size hinserted
      split
      · rename_i hsize
        have hhash := hinsert hash size (mem_of_inserted hinserted) hsize
        obtain ⟨hadds, hsound⟩ := store_adds h hhash
        refine ⟨⟨hadds, hsound, hfetched, fun _ hother => hother.imp_left fun hpos =>
          hadds.pos (.inl hpos)⟩, .inr ⟨_, hhash, List.take_append_drop ..⟩, ?_⟩
        rintro other ⟨-, size', hother, -⟩
        rw [hinserted] at hother
        cases hother
        exact List.mem_singleton_self hash
      · rename_i hsize
        refine ⟨hsame, rfl, ?_⟩
        rintro other ⟨-, size', hother, hle⟩
        rw [hinserted] at hother
        cases hother
        exact absurd hle hsize
    · rename_i hinserted
      refine ⟨hsame, rfl, ?_⟩
      rintro other ⟨-, size', hother, -⟩
      rw [hinserted] at hother
      cases hother
  · rename_i hash hrenewed
    rw [hrenewed] at hready
    refine ⟨storeOrReference_refers h hfetched hready, .inl rfl, ?_⟩
    rintro other ⟨hnone, -⟩
    rw [hrenewed] at hnone
    cases hnone
  · rename_i hempty hsingle
    refine ⟨storeOrReference_refers h hfetched hready, rfl, ?_⟩
    rintro other ⟨hnone, -⟩
    exact absurd hnone hempty

/-- Every renewed hash has data by then: stored, fetched ahead, or of an extrinsic in front. -/
def Available (codec : ExtrinsicCodec E) (ops : List (IndexOperation H)) (column : Column H)
    (prefetched : ExtTreeMap H Bytes) (index : Nat) (body : List E) : Prop :=
  ∀ position extrinsic, body[position]? = some extrinsic →
    ∀ hash ∈ renewed ops (index + position), Ready column prefetched hash ∨
      ∃ earlier < position, ∃ other, body[earlier]? = some other ∧
        StoresAt codec ops (index + earlier) other hash

theorem applyIndexOps_refers (h : Sound names column) (hfetched : Fetched names prefetched)
    {index : Nat} {body : List E}
    (hinsert : ∀ position extrinsic, body[position]? = some extrinsic →
      InsertsOwn codec names ops (index + position) extrinsic)
    (havailable : Available codec ops column prefetched index body) :
    Adds column (commit column (applyIndexOps codec ops index body prefetched).2)
        ((applyIndexOps codec ops index body prefetched).1.flatMap DbExtrinsic.hashes) ∧
      Sound names (commit column (applyIndexOps codec ops index body prefetched).2) ∧
      List.Forall₂ (Represents codec names) (applyIndexOps codec ops index body prefetched).1
        body := by
  induction body generalizing index column prefetched with
  | nil => exact ⟨.nil column, h, .nil⟩
  | cons extrinsic body ih =>
    have hfirst := indexExtrinsic_refers h hfetched (hinsert 0 extrinsic rfl)
      fun hash hhash => (havailable 0 extrinsic rfl hash hhash).resolve_right
        fun ⟨_, hlt, _⟩ => absurd hlt (Nat.not_lt_zero _)
    obtain ⟨hrefers, hentry, hstores⟩ := hfirst
    -- what was available stays so, and what this extrinsic stores is in the column
    have hlater : Available codec ops
        (commit column (indexExtrinsic codec ops index extrinsic prefetched).2.1)
        (indexExtrinsic codec ops index extrinsic prefetched).2.2 (index + 1) body := by
      intro position next hnext hash hhash
      rw [show index + 1 + position = index + (position + 1) by omega] at hhash
      rcases havailable (position + 1) next hnext hash hhash with hready | hearlier
      · exact .inl (hrefers.ready hash hready)
      · obtain ⟨earlier, hlt, other, hother, hstore⟩ := hearlier
        cases earlier with
        | zero =>
          cases hother
          exact .inl (.inl (hrefers.adds.pos (.inr (hstores hash hstore))))
        | succ earlier =>
          refine .inr ⟨earlier, by omega, other, hother, ?_⟩
          rw [show index + 1 + earlier = index + (earlier + 1) by omega]
          exact hstore
    obtain ⟨hadds, hsound, hentries⟩ := ih hrefers.sound hrefers.fetched
      (fun position next hnext => by
        rw [show index + 1 + position = index + (position + 1) by omega]
        exact hinsert (position + 1) next hnext) hlater
    rw [applyIndexOps]
    dsimp only
    rw [commit, List.foldl_append, List.flatMap_cons]
    exact ⟨hrefers.adds.append hadds, hsound, .cons hentry hentries⟩

/-! ## Runs -/

def Store.references (s : Store B H E) (hash : H) : Nat :=
  OrderedMap.total (fun _ entries => (entries.flatMap DbExtrinsic.hashes).count hash) s.bodyIndex

/-- Insertions name the last bytes of their extrinsic, data that was fetched ahead is what its hash
names, and a block has one body. -/
structure ImportBlock.Proper (codec : ExtrinsicCodec E) (names : Bytes → H → Prop) (s : Store B H E)
    (op : ImportBlock B H E) : Prop where
  inserts : ∀ body ∈ op.body, ∀ index extrinsic, body[index]? = some extrinsic →
    InsertsOwn codec names op.indexOps index extrinsic
  fetched : Fetched names op.prefetched
  same_body : ∀ body ∈ op.body, ∀ known, s.imported[op.block]? = some known → known = body

/-- No indexed body, no second write of an index, and renewals of what is there by then. -/
structure ImportBlock.Allowed (codec : ExtrinsicCodec E) (s : Store B H E)
    (op : ImportBlock B H E) : Prop where
  no_indexedBody : ∀ body ∈ op.indexedBody, body = []
  first_index : op.body.isSome = true → op.indexOps ≠ [] → s.bodyIndex[op.block]? = none
  available : ∀ body ∈ op.body, Available codec op.indexOps s.transaction op.prefetched 0 body

def Event.Proper (codec : ExtrinsicCodec E) (names : Bytes → H → Prop) (s : Store B H E) :
    Event B H E → Prop
  | .importBlock op => op.Proper codec names s
  | .pruneBlock _ => True

def Event.Allowed (codec : ExtrinsicCodec E) (s : Store B H E) : Event B H E → Prop
  | .importBlock op => op.Allowed codec s
  | .pruneBlock _ => True

structure Consistent (codec : ExtrinsicCodec E) (names : Bytes → H → Prop) (s : Store B H E) :
    Prop where
  counts : ∀ hash, count s.transaction hash = s.references hash
  sound : Sound names s.transaction
  index : ∀ (block : B) entries, s.bodyIndex[block]? = some entries →
    ∃ body, s.imported[block]? = some body ∧
      List.Forall₂ (Represents codec names) entries body
  plain : ∀ (block : B) body, s.body[block]? = some body → s.imported[block]? = some body
  stored : ∀ (block : B) body, s.imported[block]? = some body →
    (∃ plain, s.body[block]? = some plain) ∨ ∃ entries, s.bodyIndex[block]? = some entries

theorem consistent_empty : Consistent codec names ({} : Store B H E) := by
  refine ⟨fun _ => ?_, ?_, ?_, ?_, ?_⟩
  · simp [Store.references]
  · intro hash entry h
    simp at h
  all_goals
    intro block entries h
    simp at h

theorem Consistent.importBody {s : Store B H E} (h : Consistent codec names s)
    {op : ImportBlock B H E} (hproper : op.Proper codec names s) (hallowed : op.Allowed codec s) :
    Consistent codec names (s.importBody codec op) := by
  unfold Store.importBody
  cases hbody : op.body with
  | none => exact h
  | some body =>
    have hsame := hproper.same_body body hbody
    -- the block keeps the body it had, so the entries of other blocks and its own stay right
    have himported : ∀ (block : B) known, s.imported[block]? = some known →
        (s.imported.insert op.block body)[block]? = some known := by
      intro block known hknown
      rw [OrderedMap.getElem?_insert]
      split
      · rename_i heq
        rw [hsame known (by rw [heq]; exact hknown)]
      · exact hknown
    have hself : (s.imported.insert op.block body)[op.block]? = some body := by
      rw [OrderedMap.getElem?_insert, if_pos rfl]
    dsimp only
    split
    · refine ⟨h.counts, h.sound, fun block entries hentries => ?_, fun block plain hplain => ?_,
        fun block known hknown => ?_⟩
      · obtain ⟨known, hknown, hrepresents⟩ := h.index block entries hentries
        exact ⟨known, himported block known hknown, hrepresents⟩
      · rcases OrderedMap.of_insert hplain with ⟨rfl, rfl⟩ | hplain
        · exact hself
        · exact himported block plain (h.plain block plain hplain)
      · rw [OrderedMap.getElem?_insert]
        split
        · exact .inl ⟨body, rfl⟩
        · rename_i hne
          exact h.stored block known ((OrderedMap.of_insert hknown).resolve_left (hne ·.1))
    · rename_i hops
      have hfresh := hallowed.first_index (by rw [hbody]; rfl) hops
      obtain ⟨hadds, hsound, hrepresents⟩ := applyIndexOps_refers h.sound hproper.fetched
        (fun position extrinsic hext => by
          rw [Nat.zero_add]
          exact hproper.inserts body hbody position extrinsic hext)
        (hallowed.available body hbody)
      refine ⟨fun hash => ?_, hsound, fun block entries hentries => ?_,
        fun block plain hplain => himported block plain (h.plain block plain hplain),
        fun block known hknown => ?_⟩
      · have hcount := h.counts hash
        unfold Store.references at hcount ⊢
        rw [hadds hash, OrderedMap.total_insert_of_none hfresh, hcount]
        omega
      · rcases OrderedMap.of_insert hentries with ⟨rfl, rfl⟩ | hentries
        · exact ⟨body, hself, hrepresents⟩
        · obtain ⟨known, hknown, hold⟩ := h.index block entries hentries
          exact ⟨known, himported block known hknown, hold⟩
      · rw [OrderedMap.getElem?_insert]
        split
        · exact .inr ⟨_, rfl⟩
        · rename_i hne
          exact h.stored block known ((OrderedMap.of_insert hknown).resolve_left (hne ·.1))

theorem Consistent.pruneBlock {s : Store B H E} (h : Consistent codec names s) (block : B) :
    Consistent codec names (s.pruneBlock block) := by
  have hback : ∀ {V : Type} {map : ExtTreeMap B V} {other : B}, block ≠ other →
      (map.erase block)[other]? = map[other]? := fun hne => by
    rw [OrderedMap.getElem?_erase, if_neg hne]
  have htotal : ∀ hash, s.references hash =
      ((s.bodyIndex[block]?.getD []).flatMap DbExtrinsic.hashes).count hash +
        OrderedMap.total (fun _ entries => (entries.flatMap DbExtrinsic.hashes).count hash)
          (s.bodyIndex.erase block) := by
    intro hash
    unfold Store.references
    cases hentries : s.bodyIndex[block]? with
    | none =>
      rw [OrderedMap.erase_of_none hentries]
      simp
    | some entries => exact OrderedMap.total_erase_of_some hentries
  have hstored : ∀ hash, ((s.bodyIndex[block]?.getD []).flatMap DbExtrinsic.hashes).count hash ≤
      count s.transaction hash := by
    intro hash
    rw [h.counts hash, htotal hash]
    omega
  obtain ⟨hadds, hsound⟩ := releaseAll_adds h.sound hstored
  refine ⟨fun hash => ?_, hsound, fun other entries hentries => ?_, fun other body hbody => ?_,
    fun other body hbody => ?_⟩
  · have hcount := h.counts hash
    have hreleased := hadds hash
    rw [htotal hash] at hcount
    unfold Store.references Store.pruneBlock
    dsimp only
    omega
  · obtain ⟨hne, hentries⟩ := OrderedMap.of_erase hentries
    obtain ⟨body, hbody, hrepresents⟩ := h.index other entries hentries
    exact ⟨body, by rw [Store.pruneBlock, hback hne, hbody], hrepresents⟩
  · obtain ⟨hne, hbody⟩ := OrderedMap.of_erase hbody
    rw [Store.pruneBlock, hback hne]
    exact h.plain other body hbody
  · obtain ⟨hne, hbody⟩ := OrderedMap.of_erase hbody
    rw [Store.pruneBlock]
    dsimp only
    rw [hback hne, hback hne]
    exact h.stored other body hbody

theorem Consistent.step (s : Store B H E) (event : Event B H E) (h : Consistent codec names s)
    (hevent : event.Proper codec names s ∧ event.Allowed codec s) :
    ∃ t, s.step codec hashOf event = some t ∧ Consistent codec names t := by
  cases event with
  | pruneBlock block => exact ⟨_, rfl, h.pruneBlock block⟩
  | importBlock op =>
    refine ⟨_, rfl, ?_⟩
    have hbody := h.importBody hevent.1 hevent.2
    unfold Store.importIndexedBody
    split
    · exact hbody
    · rename_i indexed hindexed
      rw [hevent.2.no_indexedBody indexed hindexed]
      exact hbody

theorem Consistent.bodyUncached (hunique : ∀ a b hash, names a hash → names b hash → a = b)
    {s : Store B H E}
    (h : Consistent codec names s) {block : B} {body : List E}
    (hbody : s.imported[block]? = some body) : s.bodyUncached codec block = some (some body) := by
  unfold Store.bodyUncached
  cases hplain : s.body[block]? with
  | some plain =>
    have hsame := h.plain block plain hplain
    rw [hbody] at hsame
    cases hsame
    rfl
  | none =>
    obtain ⟨entries, hentries⟩ := (h.stored block body hbody).resolve_left
      fun ⟨plain, hsome⟩ => by
        rw [hplain] at hsome
        cases hsome
    obtain ⟨known, hknown, hrepresents⟩ := h.index block entries hentries
    rw [hbody] at hknown
    cases hknown
    have hstored : ∀ entry ∈ entries, ∀ hash ∈ entry.hashes, 0 < count s.transaction hash := by
      intro entry hentry hash hhash
      have hoccurs := List.count_pos_iff.mpr (List.mem_flatMap.mpr ⟨entry, hentry, hhash⟩)
      rw [h.counts hash, Store.references, OrderedMap.total_erase_of_some hentries]
      omega
    rw [hentries, Option.map_some, mapM_readExtrinsic hunique h.sound hrepresents hstored]

end Names

/-- Data that the import brings: the last bytes of an extrinsic that an insertion is about, or what
was fetched ahead. -/
def ImportBlock.Brings (codec : ExtrinsicCodec E) (op : ImportBlock B H E) (data : Bytes) : Prop :=
  (∃ body ∈ op.body, ∃ index extrinsic hash size, body[index]? = some extrinsic ∧
    .insert index hash size ∈ op.indexOps ∧ size ≤ (codec.encode extrinsic).length ∧
    data = (codec.encode extrinsic).drop ((codec.encode extrinsic).length - size)) ∨
  ∃ hash : H, op.prefetched[hash]? = some data

def dataOf (codec : ExtrinsicCodec E) (events : List (Event B H E)) : Set Bytes :=
  { data | ∃ op, .importBlock op ∈ events ∧ op.Brings codec data }

theorem Event.Proper.brings {events : List (Event B H E)} {event : Event B H E}
    {s : Store B H E} (hmem : event ∈ events)
    (h : event.Proper codec (fun data hash => hashOf data = hash) s) :
    event.Proper codec (fun data hash => hashOf data = hash ∧ data ∈ dataOf codec events) s := by
  cases event with
  | pruneBlock block => trivial
  | importBlock op =>
    refine ⟨fun body hbody index extrinsic hext hash size hop hsize => ?_,
      fun hash bytes hbytes => ?_, h.same_body⟩
    · exact ⟨h.inserts body hbody index extrinsic hext hash size hop hsize,
        op, hmem, Or.inl ⟨body, hbody, index, extrinsic, hash, size, hext, hop, hsize, rfl⟩⟩
    · exact ⟨h.fetched hash bytes hbytes, op, hmem, Or.inr ⟨hash, hbytes⟩⟩

/-- In every run whose imports come without indexed bodies, write no stored index a second time
and renew only what is there by then, the count of every hash is the number of its occurrences
in the stored entries. Where no two data of the run have one hash, the body of every unpruned block
is the one it was imported with. -/
theorem counts_and_bodies {events : List (Event B H E)}
    (hevents : Run.Along (Store.step codec hashOf) (fun s event =>
      event.Proper codec (fun data hash => hashOf data = hash) s ∧ event.Allowed codec s)
      {} events) :
    ∃ s, Run.exec (Store.step codec hashOf) {} events = some s ∧
      (∀ hash, count s.transaction hash = s.references hash) ∧
      (Set.InjOn hashOf (dataOf codec events) → ∀ block body, s.imported[block]? = some body →
        s.bodyUncached codec block = some (some body)) := by
  obtain ⟨s, hrun, hs⟩ := Run.exec_total
    (fun s event h hevent => Consistent.step s event h ⟨hevent.2.1.brings hevent.1, hevent.2.2⟩)
    consistent_empty (hevents.and_mem fun _ hmem => hmem)
  refine ⟨s, hrun, hs.counts, fun hinj block body hbody => hs.bodyUncached ?_ hbody⟩
  rintro a b hash ⟨ha, hamem⟩ ⟨hb, hbmem⟩
  exact hinj hamem hbmem (ha.trans hb.symm)

def pairCodec : ExtrinsicCodec (UInt8 × UInt8) where
  encode extrinsic := [extrinsic.1, extrinsic.2]
  decode
    | first :: second :: _ => some (first, second)
    | _ => none
  decode_encode _ _ := rfl

def plainHash (bytes : Bytes) : List ℕ := bytes.map UInt8.toNat

theorem plainHash_injective : Function.Injective plainHash :=
  List.map_injective_iff.mpr fun _ _ h => UInt8.toNat_inj.mp h

def renewal : List (Event ℕ (List ℕ) (UInt8 × UInt8)) :=
  [.importBlock ⟨0, some [(1, 2)], [.insert 0 [2] 1], ∅, none⟩,
    .importBlock ⟨1, some [(3, 4)], [.renew 0 [2]], ∅, none⟩, .pruneBlock 0]

theorem counts_and_bodies_renewal :
    ∃ s, Run.exec (Store.step pairCodec plainHash) {} renewal = some s ∧
      (∀ hash, count s.transaction hash = s.references hash) ∧
      ∀ block body, s.imported[block]? = some body →
        s.bodyUncached pairCodec block = some (some body) := by
  suffices hevents : Run.Along (Store.step pairCodec plainHash) (fun s event =>
      event.Proper pairCodec (fun data hash => plainHash data = hash) s ∧
        event.Allowed pairCodec s) {} renewal by
    obtain ⟨s, hrun, hcounts, hbodies⟩ := counts_and_bodies hevents
    exact ⟨s, hrun, hcounts, hbodies plainHash_injective.injOn⟩
  refine ⟨⟨⟨?_, ?_, ?_⟩, ⟨?_, ?_, ?_⟩⟩, ⟨⟨?_, ?_, ?_⟩, ⟨?_, ?_, ?_⟩⟩, ⟨trivial, trivial⟩, trivial⟩
  · rintro _ ⟨⟩ index extrinsic hext hash size hop hsize
    simp only [List.mem_singleton, IndexOperation.insert.injEq] at hop
    obtain ⟨rfl, rfl, rfl⟩ := hop
    cases hext
    rfl
  · intro hash bytes hbytes
    simp at hbytes
  · intro _ _ known hknown
    simp at hknown
  · rintro _ ⟨⟩
  · intro _ _
    simp
  · rintro _ ⟨⟩ position extrinsic hext hash hhash
    simp [renewed] at hhash
  · rintro _ ⟨⟩ index extrinsic hext hash size hop hsize
    simp at hop
  · intro hash bytes hbytes
    simp at hbytes
  · intro _ _ known hknown
    simp [Store.importBody, Store.importIndexedBody] at hknown
  · rintro _ ⟨⟩
  · intro _ _
    decide +kernel
  · rintro _ ⟨⟩ position extrinsic hext hash hhash
    have hhash : hash = [2] := by
      simp only [renewed, List.filterMap_cons, List.filterMap_nil, Nat.zero_add] at hhash
      split at hhash <;> simp_all
    subst hhash
    exact .inl (.inl (by decide +kernel))

/-- An indexed body is counted and no entry refers to it. Data that is renewed at once is not
stored. A second import of a block counts its data twice. -/
theorem counts_and_bodies_differ :
    ((Run.exec (Store.step pairCodec plainHash) ({} : Store ℕ (List ℕ) (UInt8 × UInt8))
        [.importBlock ⟨0, some [(1, 2)], [], ∅, some [[7]]⟩]).any fun s =>
      count s.transaction [7] == 1 && s.references [7] == 0) = true ∧
    ((Run.exec (Store.step pairCodec plainHash) ({} : Store ℕ (List ℕ) (UInt8 × UInt8))
        [.importBlock ⟨0, some [(1, 2)], [.insert 0 [2] 1, .renew 0 [2]], ∅, none⟩]).any fun s =>
      s.bodyUncached pairCodec 0 == some none && s.references [2] == 1) = true ∧
    ((Run.exec (Store.step pairCodec plainHash) ({} : Store ℕ (List ℕ) (UInt8 × UInt8))
        [.importBlock ⟨0, some [(1, 2)], [.insert 0 [2] 1], ∅, none⟩,
          .importBlock ⟨0, some [(1, 2)], [.insert 0 [2] 1], ∅, none⟩]).any fun s =>
      count s.transaction [2] == 2 && s.references [2] == 1) = true := by
  decide +kernel

end PolkadotSdk.Db.TransactionIndex
