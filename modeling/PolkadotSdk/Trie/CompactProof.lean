import PolkadotSdk.Lib.Program

/-! # Compact proofs with child tries

A compact proof is the encoded top trie, followed by the child tries that the proof holds, in the
order of their roots in the top trie. The decoder does not know which of the child tries are
there: it reads one ahead and waits for its root to come up. The tries themselves are encoded,
decoded and iterated by the trie library.
-/

namespace PolkadotSdk.Trie.CompactProof

variable {H N B E : Type}

abbrev Db (H N : Type) : Type := H → Option N

def Db.contains (db : Db H N) (hash : H) : Bool := (db hash).isSome

def Db.extend (db nodes : Db H N) : Db H N := fun hash => (nodes hash).or (db hash)

inductive IterError (E : Type) where
  | incompleteDatabase
  | other (error : E)
  deriving DecidableEq, Repr

abbrev Item (E : Type) : Type := Except (IterError E) (List UInt8 × List UInt8)

/-- The iteration starts at the first key that is not below the child storage keys. The decoder
returns the nodes, the root and what it leaves of the input. -/
structure TrieLibrary (H N B E : Type) where
  iterFromChildRoots : Db H N → H → Except E (Option (List (Item E)))
  encodeCompact : Db H N → H → Except E (List B)
  decodeCompactFromIter : List B → Except E (Db H N × H × List B)
  toRoot : List UInt8 → Option H

inductive Error (H E : Type) where
  | rootMismatch (root expected : H)
  | incompleteProof
  | extraneousChildNode
  | extraneousChildProof (root : H)
  | invalidChildRoot (key value : List UInt8)
  | trieError (error : E)
  deriving DecidableEq, Repr

def Error.ofTrie {α : Type} : Except E α → Except (Error H E) α
  | .error error => .error (.trieError error)
  | .ok a => .ok a

/-- `:child_storage:default:` -/
def childtrieRoots : List UInt8 :=
  [58, 99, 104, 105, 108, 100, 95, 115, 116, 111, 114, 97, 103, 101, 58, 100, 101, 102, 97, 117,
    108, 116, 58]

/-- Nodes that are not in the database are passed over, and the first other key ends it. -/
def collectRoots (toRoot : List UInt8 → Option H) :
    List (Item E) → List H → Except (Error H E) (List H)
  | [], childTries => .ok childTries
  | .ok (key, value) :: items, childTries =>
    if childtrieRoots.isPrefixOf key then
      match toRoot value with
      | none => .error (.invalidChildRoot key value)
      | some root => collectRoots toRoot items (childTries ++ [root])
    else .ok childTries
  | .error .incompleteDatabase :: items, childTries => collectRoots toRoot items childTries
  | .error (.other error) :: _, _ => .error (.trieError error)

namespace TrieLibrary

variable (lib : TrieLibrary H N B E)

def childRoots (db : Db H N) (root : H) : Except (Error H E) (List H) := do
  match ← Error.ofTrie (lib.iterFromChildRoots db root) with
  | none => .ok []
  | some items => collectRoots lib.toRoot items []

variable [DecidableEq H]

def decodeChildren : List H → Db H N → Option H → List B →
    Except (Error H E) (Db H N × Option H × List B)
  | [], db, previous, nodes => .ok (db, previous, nodes)
  | childRoot :: childTries, db, previous, nodes =>
    if previous.isNone ∧ nodes ≠ [] then do
      let (child, root, nodes) ← Error.ofTrie (lib.decodeCompactFromIter nodes)
      decodeChildren childTries (db.extend child)
        (if childRoot = root then none else some root) nodes
    else
      decodeChildren childTries db
        (if some childRoot = previous then none else previous) nodes

def decodeCompact (db : Db H N) (encoded : List B) (expectedRoot : Option H) :
    Except (Error H E) (H × Db H N) := do
  let (top, topRoot, nodes) ← Error.ofTrie (lib.decodeCompactFromIter encoded)
  let db := db.extend top
  match expectedRoot.filter fun expected => decide (expected ≠ topRoot) with
  | some expected => .error (.rootMismatch topRoot expected)
  | none =>
    let childTries ← lib.childRoots db topRoot
    if db.contains topRoot then
      let (db, previous, nodes) ← lib.decodeChildren childTries db none nodes
      match previous with
      | some childRoot => .error (.extraneousChildProof childRoot)
      | none => if nodes = [] then .ok (topRoot, db) else .error .extraneousChildNode
    else .error .incompleteProof

omit [DecidableEq H] in
/-- The loop over the child roots; a child trie that the database does not hold is left out. -/
def encodeChildren (partialDb : Db H N) : List H → List B → Except (Error H E) (List B)
  | [], compactProof => .ok compactProof
  | childRoot :: childTries, compactProof =>
    if partialDb.contains childRoot then do
      let childProof ← Error.ofTrie (lib.encodeCompact partialDb childRoot)
      encodeChildren partialDb childTries (compactProof ++ childProof)
    else encodeChildren partialDb childTries compactProof

omit [DecidableEq H] in
def encodeCompactProof (partialDb : Db H N) (root : H) : Except (Error H E) (List B) := do
  let childTries ← lib.childRoots partialDb root
  let compactProof ← Error.ofTrie (lib.encodeCompact partialDb root)
  lib.encodeChildren partialDb childTries compactProof

end TrieLibrary

/-! ## What is assumed of the library -/

/-- `nodes root` are the nodes reachable from the root. A partial trie is encoded as at least one
node and decoded to these nodes, whatever follows it; a search looks at no others. -/
structure PartialTries (lib : TrieLibrary H N B E) (db : Db H N) where
  nodes : H → Db H N
  nodes_le : ∀ {root hash node}, nodes root hash = some node → db hash = some node
  root_mem : ∀ {root}, db.contains root = true → (nodes root).contains root = true
  iter_nodes : ∀ {root}, db.contains root = true →
    lib.iterFromChildRoots (nodes root) root = lib.iterFromChildRoots db root
  encoding : H → List B
  encode_eq : ∀ {root}, db.contains root = true → lib.encodeCompact db root = .ok (encoding root)
  encoding_ne_nil : ∀ {root}, db.contains root = true → encoding root ≠ []
  decode_encoding : ∀ {root}, db.contains root = true → ∀ rest,
    lib.decodeCompactFromIter (encoding root ++ rest) = .ok (nodes root, root, rest)

section RoundTrip

variable {lib : TrieLibrary H N B E} {db : Db H N} (tries : PartialTries lib db)

def present (db : Db H N) (childTries : List H) : List H := childTries.filter db.contains

def encodings (roots : List H) : List B := roots.flatMap tries.encoding

theorem present_of_contains {childRoot : H} (h : db.contains childRoot = true)
    (childTries : List H) :
    present db (childRoot :: childTries) = childRoot :: present db childTries :=
  List.filter_cons_of_pos h

theorem present_of_missing {childRoot : H} (h : db.contains childRoot ≠ true)
    (childTries : List H) : present db (childRoot :: childTries) = present db childTries :=
  List.filter_cons_of_neg h

theorem encodeChildren_eq (childTries : List H) (compactProof : List B) :
    lib.encodeChildren db childTries compactProof =
      .ok (compactProof ++ encodings tries (present db childTries)) := by
  induction childTries generalizing compactProof with
  | nil => simp [TrieLibrary.encodeChildren, encodings, present]
  | cons childRoot childTries ih =>
    rw [TrieLibrary.encodeChildren]
    by_cases hpresent : db.contains childRoot = true
    · rw [if_pos hpresent, tries.encode_eq hpresent, present_of_contains hpresent]
      refine (ih _).trans ?_
      rw [encodings, encodings, List.flatMap_cons, List.append_assoc]
    · rw [if_neg hpresent, ih, present_of_missing hpresent]

/-- A database with nodes of `db` only, and among them those of the given tries. -/
structure Holds (roots : List H) (decoded : Db H N) : Prop where
  sound : ∀ {hash node}, decoded hash = some node → db hash = some node
  complete : ∀ root ∈ roots, ∀ {hash node},
    tries.nodes root hash = some node → decoded hash = some node

variable {tries}

theorem Holds.extend {roots : List H} {decoded : Db H N} (h : Holds tries roots decoded)
    (root : H) : Holds tries (roots ++ [root]) (decoded.extend (tries.nodes root)) := by
  constructor
  · intro hash node hnode
    rcases Option.or_eq_some_iff.mp hnode with hnew | ⟨-, hold⟩
    · exact tries.nodes_le hnew
    · exact h.sound hold
  · intro root' hroot' hash node hnode
    rcases List.mem_append.mp hroot' with hmem | hmem
    · -- a node that is put in again is the same node
      have hold := h.complete root' hmem hnode
      cases hnew : tries.nodes root hash with
      | none => simp [Db.extend, hnew, hold]
      | some node' =>
        have hsame := (tries.nodes_le hnew).symm.trans (h.sound hold)
        simpa [Db.extend, hnew] using hsame
    · rw [List.mem_singleton.mp hmem] at hnode
      simp [Db.extend, hnode]

variable [DecidableEq H]

theorem decodeChildren_next {childRoot root : H} (hroot : db.contains root = true)
    (childTries : List H) (decoded : Db H N) (roots : List H) :
    lib.decodeChildren (childRoot :: childTries) decoded none
        (encodings tries (root :: roots)) =
      lib.decodeChildren childTries (decoded.extend (tries.nodes root))
        (if childRoot = root then none else some root) (encodings tries roots) := by
  have hne : encodings tries (root :: roots) ≠ [] := by
    simp [encodings, tries.encoding_ne_nil hroot]
  have hdecode : lib.decodeCompactFromIter (encodings tries (root :: roots)) =
      .ok (tries.nodes root, root, encodings tries roots) :=
    tries.decode_encoding hroot _
  rw [TrieLibrary.decodeChildren, if_pos ⟨rfl, hne⟩, hdecode]
  rfl

theorem decodeChildren_encodings (childTries : List H) {done : List H} {decoded : Db H N}
    (h : Holds tries done decoded) :
    (∃ decoded', lib.decodeChildren childTries decoded none
        (encodings tries (present db childTries)) = .ok (decoded', none, []) ∧
      Holds tries (done ++ present db childTries) decoded') ∧
    ∀ root roots, present db childTries = root :: roots → ∃ decoded',
      lib.decodeChildren childTries decoded (some root) (encodings tries roots) =
        .ok (decoded', none, []) ∧ Holds tries (done ++ roots) decoded' := by
  induction childTries generalizing done decoded with
  | nil => exact ⟨⟨decoded, rfl, by rwa [present, List.filter_nil, List.append_nil]⟩, nofun⟩
  | cons childRoot childTries ih =>
    by_cases hpresent : db.contains childRoot = true
    · rw [present_of_contains hpresent]
      constructor
      · obtain ⟨decoded', hdecode, hholds⟩ := (ih (h.extend childRoot)).1
        rw [decodeChildren_next hpresent, if_pos rfl, hdecode]
        exact ⟨decoded', rfl, by rwa [List.append_assoc, List.singleton_append] at hholds⟩
      · intro root roots heq
        cases heq
        rw [TrieLibrary.decodeChildren, if_neg (by simp), if_pos rfl]
        exact (ih h).1
    · rw [present_of_missing hpresent]
      have hne : ∀ root roots, present db childTries = root :: roots →
          db.contains root = true ∧ childRoot ≠ root := by
        intro root roots heq
        have hroot : db.contains root = true :=
          (List.mem_filter.mp (heq ▸ List.mem_cons_self : root ∈ present db childTries)).2
        exact ⟨hroot, fun hsame => hpresent (hsame ▸ hroot)⟩
      constructor
      · cases heq : present db childTries with
        | nil =>
          have hrest := (ih h).1
          rw [heq] at hrest
          rw [TrieLibrary.decodeChildren, if_neg (by simp [encodings]), if_neg (by simp)]
          exact hrest
        | cons root roots =>
          obtain ⟨hroot, hdiff⟩ := hne root roots heq
          obtain ⟨decoded', hdecode, hholds⟩ := (ih (h.extend root)).2 root roots heq
          rw [decodeChildren_next hroot, if_neg hdiff, hdecode]
          exact ⟨decoded', rfl, by rwa [List.append_assoc, List.singleton_append] at hholds⟩
      · intro root roots heq
        rw [TrieLibrary.decodeChildren, if_neg (by simp),
          if_neg fun hsame => (hne root roots heq).2 (Option.some.inj hsame)]
        exact (ih h).2 root roots heq

end RoundTrip

/-! ## What is accepted -/

section Accepted

variable [DecidableEq H] {lib : TrieLibrary H N B E}

/-- The encoded nodes are tries with these roots, and nothing is left over. -/
inductive Parses (lib : TrieLibrary H N B E) : List B → List H → Prop
  | nil : Parses lib [] []
  | cons {nodes rest : List B} {child : Db H N} {root : H} {roots : List H} (nonempty : nodes ≠ [])
      (decode : lib.decodeCompactFromIter nodes = .ok (child, root, rest))
      (h : Parses lib rest roots) : Parses lib nodes (root :: roots)

omit [DecidableEq H] in
theorem ofTrie_eq_ok {α : Type} {x : Except E α} {a : α}
    (h : (Error.ofTrie x : Except (Error H E) α) = .ok a) : x = .ok a := by
  cases x with
  | error e => cases h
  | ok b =>
    cases h
    rfl

/-- Where the loop ends with nothing read ahead and nothing left over, the roots that were read
are child roots in their order. -/
theorem decodeChildren_parses {childTries : List H} {db db' : Db H N} {previous : Option H}
    {nodes : List B}
    (h : lib.decodeChildren childTries db previous nodes = .ok (db', none, [])) :
    ∃ roots, Parses lib nodes roots ∧ (previous.toList ++ roots).Sublist childTries := by
  induction childTries generalizing db previous nodes with
  | nil =>
    cases h
    exact ⟨[], .nil, .slnil⟩
  | cons childRoot childTries ih =>
    rw [TrieLibrary.decodeChildren] at h
    split_ifs at h with hread hmatch
    · obtain ⟨⟨child, root, rest⟩, hdecode, h⟩ := except_bind_eq_ok h
      obtain ⟨roots, hparses, hsublist⟩ := ih h
      obtain rfl : previous = none := Option.isNone_iff_eq_none.mp hread.1
      refine ⟨root :: roots, .cons hread.2 (ofTrie_eq_ok hdecode) hparses, ?_⟩
      by_cases hmatch : childRoot = root
      · rw [if_pos hmatch] at hsublist
        rw [← hmatch]
        exact hsublist.cons_cons _
      · rw [if_neg hmatch] at hsublist
        exact hsublist.cons _
    · obtain ⟨roots, hparses, hsublist⟩ := ih h
      rw [← hmatch]
      exact ⟨roots, hparses, hsublist.cons_cons _⟩
    · obtain ⟨roots, hparses, hsublist⟩ := ih h
      exact ⟨roots, hparses, hsublist.cons _⟩

end Accepted

/-! ## Compact proofs -/

section Proofs

variable [DecidableEq H] {lib : TrieLibrary H N B E}

def oneNode : TrieLibrary Nat (List (List UInt8 × List UInt8))
    (Nat × List (List UInt8 × List UInt8)) Unit where
  iterFromChildRoots db root := .ok ((db root).map fun entries => entries.map .ok)
  encodeCompact db root := ((db root).map fun entries => .ok [(root, entries)]).getD (.error ())
  decodeCompactFromIter
    | [] => .error ()
    | (root, entries) :: rest =>
      .ok (fun hash => if hash = root then some entries else none, root, rest)
  toRoot value := value.head?.map UInt8.toNat

def oneNodeTries (db : Db Nat (List (List UInt8 × List UInt8))) : PartialTries oneNode db where
  nodes root hash := if hash = root then db root else none
  nodes_le h := by
    split_ifs at h with heq
    exact heq ▸ h
  root_mem h := by simpa [Db.contains] using h
  iter_nodes _ := by simp [oneNode]
  encoding root := ((db root).map fun entries => (root, entries)).toList
  encode_eq {root} h := by
    obtain ⟨entries, hentries⟩ := Option.isSome_iff_exists.mp h
    simp [oneNode, hentries]
  encoding_ne_nil {root} h := by
    obtain ⟨entries, hentries⟩ := Option.isSome_iff_exists.mp h
    simp [hentries]
  decode_encoding {root} h rest := by
    obtain ⟨entries, hentries⟩ := Option.isSome_iff_exists.mp h
    simp [oneNode, hentries]

def threeChildren : Db Nat (List (List UInt8 × List UInt8))
  | 0 => some [(childtrieRoots ++ [1], [7]), (childtrieRoots ++ [2], [5]),
      (childtrieRoots ++ [3], [5])]
  | 5 => some []
  | _ => none

end Proofs

end PolkadotSdk.Trie.CompactProof
