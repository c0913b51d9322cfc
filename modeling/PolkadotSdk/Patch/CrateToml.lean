import PolkadotSdk.Lib.Loop
import PolkadotSdk.Patch.Toml

/-! # Dependencies of a crate

The manifest of a crate has three tables of dependencies and a table of features, whose arrays
name dependencies as well. Dependencies are removed from the tables by their key, and from the
features by the name that a feature starts with.
-/

namespace PolkadotSdk.Patch

/-! ## Editing a manifest -/

def removeFromArrayRound (shouldRemove : String → Bool) :
    List Value × Nat → Option (Option (List Value × Nat))
  | (array, i) =>
    match array[i]? with
    | none => some none
    | some (.string text) =>
      if shouldRemove text then some (some (array.eraseIdx i, i))
      else some (some (array, i + 1))
    | some _ => none

def removeFromArray (shouldRemove : String → Bool) (array : List Value) : Option (List Value) :=
  (Loop.run (removeFromArrayRound shouldRemove) (array.length + 1) (array, 0)).map Prod.fst

/-- What stands before the first `/`, and there before the first `?`. -/
def featureName (feature : String) : String :=
  String.ofList ((feature.toList.takeWhile (· ≠ '/')).takeWhile (· ≠ '?'))

def removeFromFeature (dependencies : List String) :
    String × Value → Option (String × Value)
  | (key, .array array) => do
    let array ← removeFromArray (fun feature => featureName feature ∈ dependencies) array
    some (key, .array array)
  | _ => none

/-- Remove dependencies from use within the crate's features. -/
def removeDependenciesFromFeatures (crateToml : Table) (dependencies : List String) :
    Option Table :=
  match Entries.get crateToml "features" with
  | none => some crateToml
  | some (.table features) => do
    let features ← features.mapM (removeFromFeature dependencies)
    some (Entries.modify crateToml "features" fun _ => .table features)
  | some _ => none

def removeDependency (state : Table × List String) (remaining : String) :
    Option (Table × List String) :=
  let (table, dependencies) := state
  if remaining ∈ dependencies then
    some (Entries.remove table remaining, dependencies)
  else
    match Entries.get table remaining with
    | none => none
    | some (.table fields) =>
      match Entries.get fields "package" with
      | none => some state
      | some (.string package) =>
        if package ∈ dependencies then
          -- the name `table` is taken by the entry here: a field of the entry is removed
          some (Entries.modify table remaining fun _ => .table (Entries.remove fields remaining),
            remaining :: dependencies)
        else
          some state
      | some _ => none
    | some _ => some state

def removeFromTable (state : Table × List String) (name : String) :
    Option (Table × List String) :=
  match Entries.get state.1 name with
  | none => some state
  | some (.table table) => do
    let (table, dependencies) ←
      (Entries.keys table).foldlM removeDependency (table, state.2)
    some (Entries.modify state.1 name fun _ => .table table, dependencies)
  | some _ => none

def dependencyTables : List String := ["dependencies", "build-dependencies", "dev-dependencies"]

def removeDependencies (crateToml : Table) (dependencies : List String) : Option Table := do
  let (crateToml, dependencies) ← dependencyTables.foldlM removeFromTable (crateToml, dependencies)
  removeDependenciesFromFeatures crateToml dependencies

/-! ## What a manifest says -/

def isRemoved (removed : List String) (entry : String × Value) : Bool :=
  decide (entry.1 ∈ removed) || (packageOf entry.2).any (· ∈ removed)

/-- An entry with another name for a removed crate. -/
def IsAlias (removed : List String) (entry : String × Value) : Prop :=
  entry.1 ∉ removed ∧ (packageOf entry.2).any (· ∈ removed) = true

instance (removed : List String) (entry : String × Value) : Decidable (IsAlias removed entry) :=
  inferInstanceAs (Decidable (_ ∧ _))

def removedKeys (removed : List String) (crateToml : Table) : List String :=
  dependencyTables.flatMap fun name =>
    Entries.keys ((entriesOf crateToml name).filter (isRemoved removed))

def startsWith (text start : String) : Bool := start.toList.isPrefixOf text.toList

/-- The ways in which a feature refers to a dependency. -/
def refersTo (key feature : String) : Bool :=
  feature = key || feature = "dep:" ++ key || startsWith feature (key ++ "/") ||
    startsWith feature (key ++ "?/")

def withoutDependencies (removed : List String) (crateToml : Table) : Table :=
  crateToml.map fun (name, value) =>
    (name,
      if name ∈ dependencyTables then
        value.filterTable fun entry => !isRemoved removed entry
      else if name = "features" then
        value.mapTable (Value.filterTexts fun feature =>
          !(removedKeys removed crateToml).any (refersTo · feature))
      else value)

def Value.isDependency : Value → Bool
  | .table fields => (Entries.get fields "package").all Value.isText
  | _ => true

def Value.isDependencyTable : Value → Bool
  | .table entries => decide (Entries.keys entries).Nodup && entries.all (·.2.isDependency)
  | _ => false

def Value.isFeatureTable : Value → Bool
  | .table entries => entries.all (·.2.isTexts)
  | _ => false

/-- A manifest with distinct keys, and with tables, texts and arrays where a crate has them. -/
structure CrateToml where
  table : Table
  keys_nodup : (Entries.keys table).Nodup
  dependencies : ∀ entry ∈ table, entry.1 ∈ dependencyTables → entry.2.isDependencyTable
  features : ∀ entry ∈ table, entry.1 = "features" → entry.2.isFeatureTable

variable {value : Value}

theorem Value.exists_dependencies (h : value.isDependencyTable = true) :
    ∃ entries, value = .table entries ∧ (Entries.keys entries).Nodup ∧
      ∀ entry ∈ entries, entry.2.isDependency = true := by
  cases value with
  | table entries =>
    simp only [isDependencyTable, Bool.and_eq_true, decide_eq_true_eq, List.all_eq_true] at h
    exact ⟨entries, rfl, h⟩
  | _ => cases h

theorem Value.exists_features (h : value.isFeatureTable = true) :
    ∃ entries, value = .table entries ∧
      ∀ entry ∈ entries, ∃ texts : List String, entry.2 = .array (texts.map .string) := by
  cases value with
  | table entries =>
    simp only [isFeatureTable, List.all_eq_true] at h
    exact ⟨entries, rfl, fun entry hentry => Value.exists_texts (h entry hentry)⟩
  | _ => cases h

/-! ## Arrays and features -/

private theorem run_removeFromArrayRound (shouldRemove : String → Bool) (done : List Value)
    (texts : List String) (fuel : Nat) (hfuel : texts.length < fuel) :
    ∃ i, Loop.run (removeFromArrayRound shouldRemove) fuel
        (done ++ texts.map .string, done.length) =
      some (done ++ (texts.filter fun text => !shouldRemove text).map .string, i) := by
  induction texts generalizing done fuel with
  | nil =>
    obtain ⟨fuel, rfl⟩ : ∃ n, fuel = n + 1 := ⟨fuel - 1, by simp at hfuel; omega⟩
    refine ⟨done.length, Loop.run_of_stop fuel ?_⟩
    simp [removeFromArrayRound]
  | cons text texts ih =>
    obtain ⟨fuel, rfl⟩ : ∃ n, fuel = n + 1 := ⟨fuel - 1, by simp at hfuel; omega⟩
    have hlt : texts.length < fuel := by simp at hfuel; omega
    by_cases hremove : shouldRemove text = true
    · obtain ⟨i, hrun⟩ := ih done fuel hlt
      have hround : removeFromArrayRound shouldRemove
          (done ++ (text :: texts).map .string, done.length) =
          some (some (done ++ texts.map .string, done.length)) := by
        simp [removeFromArrayRound, hremove, List.eraseIdx_append_of_length_le]
      refine ⟨i, ?_⟩
      rw [Loop.run_of_round fuel hround, hrun]
      simp [hremove]
    · obtain ⟨i, hrun⟩ := ih (done ++ [.string text]) fuel hlt
      have hround : removeFromArrayRound shouldRemove
          (done ++ (text :: texts).map .string, done.length) =
          some (some (done ++ [.string text] ++ texts.map .string,
            (done ++ [Value.string text]).length)) := by
        simp [removeFromArrayRound, hremove]
      refine ⟨i, ?_⟩
      rw [Loop.run_of_round fuel hround, hrun]
      simp [hremove]

theorem removeFromArray_texts (shouldRemove : String → Bool) (texts : List String) :
    removeFromArray shouldRemove (texts.map .string) =
      some ((texts.filter fun text => !shouldRemove text).map .string) := by
  obtain ⟨i, hrun⟩ := run_removeFromArrayRound shouldRemove [] texts
    ((texts.map Value.string).length + 1) (by simp)
  simp only [List.nil_append, List.length_nil] at hrun
  rw [removeFromArray, hrun]
  rfl

theorem mapM_removeFromFeature (dependencies : List String) (features : Table)
    (htexts : ∀ entry ∈ features, ∃ texts : List String, entry.2 = .array (texts.map .string)) :
    features.mapM (removeFromFeature dependencies) =
      some (features.map fun entry => (entry.1, entry.2.filterTexts fun feature =>
        featureName feature ∉ dependencies)) := by
  induction features with
  | nil => rfl
  | cons entry features ih =>
    obtain ⟨key, value⟩ := entry
    obtain ⟨texts, hvalue⟩ := htexts (key, value) List.mem_cons_self
    cases hvalue
    have hentry : removeFromFeature dependencies (key, .array (texts.map .string)) =
        some (key, Value.filterTexts (fun feature => featureName feature ∉ dependencies)
          (.array (texts.map .string))) := by
      simp [removeFromFeature, removeFromArray_texts, Value.filterTexts_texts]
    rw [List.mapM_cons, hentry, ih fun entry h => htexts entry (List.mem_cons_of_mem _ h)]
    rfl

/-! ## Tables -/

/-- An entry that is removed only where its key is. -/
structure Plain (removed : List String) (entry : String × Value) : Prop where
  isDependency : entry.2.isDependency = true
  not_alias : ¬ IsAlias removed entry

variable {removed : List String} {table : Table}

theorem removeDependency_kept {key : String} (hvalue : Entries.get table key = some value)
    (hkey : key ∉ removed) (hplain : Plain removed (key, value)) :
    removeDependency (table, removed) key = some (table, removed) := by
  simp only [removeDependency, hkey, if_false, hvalue]
  cases value with
  | table fields =>
    have hdependency := hplain.isDependency
    cases hpackage : Entries.get fields "package" with
    | none => simp [hpackage]
    | some package =>
      simp only [Value.isDependency, hpackage, Option.all_some] at hdependency
      obtain ⟨text, rfl⟩ := Value.exists_text hdependency
      have hnot : text ∉ removed := fun hmem =>
        hplain.not_alias ⟨hkey, by simp [packageOf, hpackage, hmem]⟩
      simp [hpackage, hnot]
  | _ => rfl

theorem foldlM_removeDependency (removed keys : List String) (table : Table)
    (hkeys : keys.Nodup)
    (hentries : ∀ key ∈ keys, ∃ value, Entries.get table key = some value ∧
      Plain removed (key, value)) :
    keys.foldlM removeDependency (table, removed) =
      some (table.filter fun entry => !(decide (entry.1 ∈ keys) && decide (entry.1 ∈ removed)),
        removed) := by
  induction keys generalizing table with
  | nil => simp
  | cons key keys ih =>
    obtain ⟨hnew, hrest⟩ := List.nodup_cons.mp hkeys
    obtain ⟨value, hvalue, hplain⟩ := hentries key List.mem_cons_self
    by_cases hkey : key ∈ removed
    · have hstep : removeDependency (table, removed) key =
          some (Entries.remove table key, removed) := by
        simp [removeDependency, hkey]
      rw [List.foldlM_cons, hstep]
      refine (ih (Entries.remove table key) hrest fun other hother => ?_).trans ?_
      · obtain ⟨v, hv⟩ := hentries other (List.mem_cons_of_mem _ hother)
        have hne : other ≠ key := fun h => hnew (h ▸ hother)
        exact ⟨v, by rw [Entries.get_remove, if_neg hne]; exact hv.1, hv.2⟩
      · rw [Entries.remove, List.filter_filter]
        congr 2
        refine List.filter_congr fun entry _ => ?_
        by_cases h : entry.1 = key <;> simp [h, hkey]
    · rw [List.foldlM_cons, removeDependency_kept hvalue hkey hplain]
      refine (ih table hrest fun other hother =>
        hentries other (List.mem_cons_of_mem _ hother)).trans ?_
      congr 2
      refine List.filter_congr fun entry _ => ?_
      by_cases h : entry.1 = key
      · simp [h, hkey]
      · simp [h]

theorem removeFromTable_eq (hkeys : (Entries.keys table).Nodup) (name : String)
    (htable : ∀ value, Entries.get table name = some value →
      ∃ entries, value = .table entries ∧ (Entries.keys entries).Nodup ∧
        ∀ entry ∈ entries, Plain removed entry) :
    removeFromTable (table, removed) name =
      some (Entries.modify table name (.filterTable fun entry => entry.1 ∉ removed), removed) := by
  cases hvalue : Entries.get table name with
  | none => simp [removeFromTable, hvalue, Entries.modify_of_none hvalue]
  | some value =>
    obtain ⟨entries, rfl, hentries, hplain⟩ := htable value hvalue
    have hfold : (Entries.keys entries).foldlM removeDependency (entries, removed) =
        some (entries.filter fun entry => entry.1 ∉ removed, removed) := by
      rw [foldlM_removeDependency removed _ entries hentries fun key hkey => ?_]
      · congr 2
        refine List.filter_congr fun entry hentry => ?_
        simp [Entries.mem_keys.mpr ⟨entry.2, hentry⟩]
      · obtain ⟨value, hmem⟩ := Entries.mem_keys.mp hkey
        exact ⟨value, Entries.get_of_mem hentries hmem, hplain _ hmem⟩
    simp only [removeFromTable, hvalue, hfold]
    refine congrArg (fun t => some (t, removed)) (Entries.modify_congr hkeys fun value h => ?_)
    rw [hvalue] at h
    cases h
    rfl

theorem foldlM_removeFromTable (removed : List String) (names : List String) (table : Table)
    (hnames : names.Nodup) (hkeys : (Entries.keys table).Nodup)
    (htables : ∀ name ∈ names, ∀ value, Entries.get table name = some value →
      ∃ entries, value = .table entries ∧ (Entries.keys entries).Nodup ∧
        ∀ entry ∈ entries, Plain removed entry) :
    names.foldlM removeFromTable (table, removed) =
      some (table.map fun entry => (entry.1,
        if entry.1 ∈ names then entry.2.filterTable fun e => e.1 ∉ removed else entry.2),
        removed) := by
  induction names generalizing table with
  | nil => simp
  | cons name names ih =>
    obtain ⟨hnew, hrest⟩ := List.nodup_cons.mp hnames
    rw [List.foldlM_cons, removeFromTable_eq hkeys name (htables name List.mem_cons_self)]
    refine (ih (Entries.modify table name _) hrest (by simpa using hkeys)
      fun other hother value hvalue => ?_).trans ?_
    · have hne : other ≠ name := fun h => hnew (h ▸ hother)
      rw [Entries.get_modify, if_neg hne] at hvalue
      exact htables other (List.mem_cons_of_mem _ hother) value hvalue
    · congr 2
      rw [Entries.modify, List.map_map]
      refine List.map_congr_left fun entry _ => ?_
      by_cases h : entry.1 = name
      · simp [h, hnew]
      · simp [h]

/-! ## The first alias -/

section

variable {state after : Table × List String} {visited key name other : String}

theorem mem_keys_removeDependency (h : removeDependency state visited = some after)
    (hstays : key ≠ visited ∨ key ∉ state.2) (hkey : key ∈ Entries.keys state.1) :
    key ∈ Entries.keys after.1 := by
  simp only [removeDependency] at h
  split_ifs at h with hremoved
  · cases h
    have hne : key ≠ visited := by
      rintro rfl
      exact hstays.elim (· rfl) (· hremoved)
    obtain ⟨value, hmem⟩ := Entries.mem_keys.mp hkey
    exact Entries.mem_keys.mpr ⟨value, List.mem_filter.mpr ⟨hmem, by simpa using hne⟩⟩
  · repeat' split at h
    all_goals cases h
    all_goals simpa using hkey

theorem removeDependency_of_not_isAlias (hstate : state.2 = removed)
    (hplain : ∀ value, Entries.get state.1 visited = some value →
      ¬ IsAlias removed (visited, value))
    (h : removeDependency state visited = some after) :
    after.2 = removed ∧ ∀ k ≠ visited, Entries.get after.1 k = Entries.get state.1 k := by
  subst hstate
  simp only [removeDependency] at h
  split_ifs at h with hvisited
  · cases h
    exact ⟨rfl, fun k hk => by rw [Entries.get_remove, if_neg hk]⟩
  · repeat' split at h
    all_goals cases h
    · exact ⟨rfl, fun _ _ => rfl⟩
    · rename_i hvalue _ _ hpackage hmem
      exact absurd ⟨hvisited, by simp [packageOf, hpackage, hmem]⟩ (hplain _ hvalue)
    all_goals exact ⟨rfl, fun _ _ => rfl⟩

theorem foldlM_removeDependency_alias {entries : Table} (hkeys : (Entries.keys entries).Nodup)
    (h : (Entries.keys entries).foldlM removeDependency (entries, removed) = some after) :
    (∀ entry ∈ entries, ¬ IsAlias removed entry) ∧ after.2 = removed ∨
      ∃ entry ∈ entries, IsAlias removed entry ∧ entry.1 ∈ Entries.keys after.1 := by
  refine (Loop.foldlM_mark
    (B := fun key => ∃ value, Entries.get entries key = some value ∧ IsAlias removed (key, value))
    (J := fun keys s => s.2 = removed ∧
      ∀ key ∈ keys, Entries.get s.1 key = Entries.get entries key)
    (R := fun key s => (∃ value, (key, value) ∈ entries ∧ IsAlias removed (key, value)) ∧
      key ∈ Entries.keys s.1)
    (fun s t key rest hnew hs hgood hstep => ?_) (fun s t key rest hs hbad hstep => ?_)
    (fun s t key other hne hs hstep => ⟨hs.1, mem_keys_removeDependency hstep (.inl hne) hs.2⟩)
    hkeys ⟨rfl, fun _ _ => rfl⟩ h).imp
    (fun hnone => ⟨fun entry hentry halias => hnone.1 entry.1
      (Entries.mem_keys.mpr ⟨entry.2, hentry⟩)
      ⟨entry.2, Entries.get_of_mem hkeys hentry, halias⟩, hnone.2.1⟩)
    fun ⟨key, _, ⟨value, hmem, halias⟩, hleft⟩ => ⟨(key, value), hmem, halias, hleft⟩
  · rw [← hs.2 key List.mem_cons_self] at hgood
    obtain ⟨hremoved, hsame⟩ := removeDependency_of_not_isAlias hs.1
      (fun value hvalue halias => hgood ⟨value, hvalue, halias⟩) hstep
    refine ⟨hremoved, fun k hk => ?_⟩
    rw [hsame k fun heq => hnew (heq ▸ hk), hs.2 k (List.mem_cons_of_mem _ hk)]
  · obtain ⟨value, hvalue, halias⟩ := hbad
    have hmem := Entries.mem_of_get hvalue
    rw [← hs.2 key List.mem_cons_self] at hvalue
    refine ⟨⟨value, hmem, halias⟩, mem_keys_removeDependency hstep (.inr (hs.1 ▸ halias.1)) ?_⟩
    exact Entries.mem_keys.mpr ⟨value, Entries.mem_of_get hvalue⟩

theorem entriesOf_modify (table : Table) (f : Value → Value) (hne : other ≠ name) :
    entriesOf (Entries.modify table name f) other = entriesOf table other := by
  rw [entriesOf, Entries.get_modify, if_neg hne, ← entriesOf]

theorem entriesOf_removeFromTable (h : removeFromTable state name = some after)
    (hne : other ≠ name) : entriesOf after.1 other = entriesOf state.1 other := by
  unfold removeFromTable at h
  split at h
  · cases h
    rfl
  · obtain ⟨result, -, hresult⟩ := Option.bind_eq_some_iff.mp h
    cases hresult
    exact entriesOf_modify state.1 (fun _ => .table result.1) hne
  · cases h

theorem removeFromTable_alias (hkeys : (Entries.keys (entriesOf state.1 name)).Nodup)
    (hstate : state.2 = removed) (h : removeFromTable state name = some after) :
    (∀ entry ∈ entriesOf state.1 name, ¬ IsAlias removed entry) ∧ after.2 = removed ∨
      ∃ entry ∈ entriesOf state.1 name, IsAlias removed entry ∧
        entry.1 ∈ Entries.keys (entriesOf after.1 name) := by
  subst hstate
  unfold removeFromTable at h
  split at h
  · rename_i hnone
    cases h
    exact .inl ⟨by simp [entriesOf, hnone], rfl⟩
  · rename_i entries hvalue
    obtain ⟨result, hfold, hresult⟩ := Option.bind_eq_some_iff.mp h
    cases hresult
    rw [entriesOf_of_get hvalue] at hkeys ⊢
    have hafter : Entries.get (Entries.modify state.1 name fun _ => .table result.1) name =
        some (.table result.1) := by simp [Entries.get_modify, hvalue]
    rw [entriesOf_of_get hafter]
    exact foldlM_removeDependency_alias hkeys hfold
  · cases h

theorem foldlM_removeFromTable_alias {names : List String} (hnames : names.Nodup)
    (hkeys : ∀ name ∈ names, (Entries.keys (entriesOf table name)).Nodup)
    (h : names.foldlM removeFromTable (table, removed) = some after) :
    (∀ name ∈ names, ∀ entry ∈ entriesOf table name, ¬ IsAlias removed entry) ∨
      ∃ name ∈ names, ∃ entry ∈ entriesOf table name, IsAlias removed entry ∧
        entry.1 ∈ Entries.keys (entriesOf after.1 name) := by
  refine (Loop.foldlM_mark
    (B := fun name => ∃ entry ∈ entriesOf table name, IsAlias removed entry)
    (J := fun names s => s.2 = removed ∧ ∀ name ∈ names, entriesOf s.1 name = entriesOf table name ∧
      (Entries.keys (entriesOf table name)).Nodup)
    (R := fun name s => ∃ entry ∈ entriesOf table name, IsAlias removed entry ∧
      entry.1 ∈ Entries.keys (entriesOf s.1 name))
    (fun s t name rest hnew hs hgood hstep => ?_) (fun s t name rest hs hbad hstep => ?_)
    (fun s t name other hne hs hstep => ?_) hnames
    ⟨rfl, fun name hname => ⟨rfl, hkeys name hname⟩⟩ h).imp_left fun hnone name hname entry hentry
      halias => hnone.1 name hname ⟨entry, hentry, halias⟩
  · obtain ⟨hsame, hnodup⟩ := hs.2 name List.mem_cons_self
    rcases removeFromTable_alias (hsame ▸ hnodup) hs.1 hstep with ⟨-, hremoved⟩ | ⟨entry, hentry, h⟩
    · refine ⟨hremoved, fun other hother => ?_⟩
      rw [entriesOf_removeFromTable hstep fun heq => hnew (heq ▸ hother)]
      exact hs.2 other (List.mem_cons_of_mem _ hother)
    · exact absurd ⟨entry, hsame ▸ hentry, h.1⟩ hgood
  · obtain ⟨hsame, hnodup⟩ := hs.2 name List.mem_cons_self
    obtain ⟨entry, hentry, halias⟩ := hbad
    rcases removeFromTable_alias (hsame ▸ hnodup) hs.1 hstep with ⟨hnone, -⟩ | hleft
    · exact absurd halias (hnone entry (hsame ▸ hentry))
    · rwa [hsame] at hleft
  · rwa [entriesOf_removeFromTable hstep hne]

end

/-! ## Removing dependencies -/

/-- No entry has another name for a crate that is removed. -/
def NoAlias (removed : List String) (crateToml : Table) : Prop :=
  ∀ name ∈ dependencyTables, ∀ entry ∈ entriesOf crateToml name, ¬ IsAlias removed entry

def featuresOf (crateToml : Table) : List String :=
  (entriesOf crateToml "features").flatMap fun entry => textsOf entry.2

/-- The names of features tell which of them refer to a removed dependency: none is written
`dep:key`, and none has the name of a removed crate that is no dependency. -/
structure Recognised (removed : List String) (crateToml : Table) : Prop where
  refers : ∀ feature ∈ featuresOf crateToml, featureName feature ∈ removed →
    ∃ key ∈ removedKeys removed crateToml, refersTo key feature
  named : ∀ feature ∈ featuresOf crateToml, ∀ key ∈ removedKeys removed crateToml,
    refersTo key feature → featureName feature ∈ removed

theorem removeDependenciesFromFeatures_eq (removed : List String)
    (hkeys : (Entries.keys table).Nodup)
    (htexts : ∀ value, Entries.get table "features" = some value →
      ∃ entries, value = .table entries ∧
        ∀ entry ∈ entries, ∃ texts : List String, entry.2 = .array (texts.map .string)) :
    removeDependenciesFromFeatures table removed =
      some (Entries.modify table "features"
        (.mapTable (.filterTexts fun feature => featureName feature ∉ removed))) := by
  cases hvalue : Entries.get table "features" with
  | none => simp [removeDependenciesFromFeatures, hvalue, Entries.modify_of_none hvalue]
  | some value =>
    obtain ⟨entries, rfl, hentries⟩ := htexts value hvalue
    simp only [removeDependenciesFromFeatures, hvalue,
      mapM_removeFromFeature removed entries hentries]
    refine congrArg some (Entries.modify_congr hkeys fun value h => ?_)
    rw [hvalue] at h
    cases h
    rfl

theorem NoAlias.filterTable_eq {table entries : Table} (h : NoAlias removed table) {name : String}
    (hname : name ∈ dependencyTables) (hentries : entriesOf table name = entries) :
    (Value.table entries).filterTable (fun entry => entry.1 ∉ removed) =
      (Value.table entries).filterTable fun entry => !isRemoved removed entry := by
  refine congrArg Value.table (List.filter_congr fun entry hentry => ?_)
  have hnot := h name hname entry (hentries ▸ hentry)
  by_cases hkey : entry.1 ∈ removed
  · simp [isRemoved, hkey]
  · have hpackage := Bool.eq_false_iff.mpr fun h => hnot ⟨hkey, h⟩
    simp only [isRemoved, hkey, hpackage]
    rfl

theorem filter_eq_filter_iff {α : Type*} {p q : α → Bool} {items : List α} :
    items.filter p = items.filter q ↔ ∀ item ∈ items, p item = q item := by
  refine ⟨fun h item hitem => ?_, List.filter_congr⟩
  have hmem : item ∈ items.filter p ↔ item ∈ items.filter q := by rw [h]
  rw [Bool.eq_iff_iff]
  simpa [hitem] using hmem

theorem recognised_iff :
    Recognised removed table ↔ ∀ feature ∈ featuresOf table,
      (featureName feature ∈ removed ↔
        ∃ key ∈ removedKeys removed table, refersTo key feature) :=
  ⟨fun h feature hmem => ⟨h.refers feature hmem,
      fun ⟨key, hkey, hrefers⟩ => h.named feature hmem key hkey hrefers⟩,
    fun h => ⟨fun feature hmem => (h feature hmem).mp,
      fun feature hmem key hkey hrefers => (h feature hmem).mpr ⟨key, hkey, hrefers⟩⟩⟩

theorem mapTable_eq_iff {entries : Table} (hentries : entriesOf table "features" = entries)
    (htexts : ∀ entry ∈ entries, ∃ texts : List String, entry.2 = .array (texts.map .string)) :
    (Value.table entries).mapTable
        (.filterTexts fun feature => featureName feature ∉ removed) =
      (Value.table entries).mapTable
        (.filterTexts fun feature => !(removedKeys removed table).any (refersTo · feature)) ↔
      Recognised removed table := by
  have hentry : ∀ entry ∈ entries, (Value.filterTexts (featureName · ∉ removed) entry.2 =
      Value.filterTexts (fun feature => !(removedKeys removed table).any (refersTo · feature))
        entry.2 ↔ ∀ feature ∈ textsOf entry.2, (featureName feature ∈ removed ↔
          ∃ key ∈ removedKeys removed table, refersTo key feature)) := by
    intro entry hmem
    obtain ⟨texts, heq⟩ := htexts entry hmem
    rw [heq, textsOf_texts, Value.filterTexts_texts, Value.filterTexts_texts, Value.array.injEq,
      (List.map_injective_iff.mpr fun _ _ => Value.string.inj).eq_iff, filter_eq_filter_iff]
    refine forall₂_congr fun feature _ => ?_
    rw [Bool.eq_iff_iff, Bool.not_eq_true', ← Bool.not_eq_true, decide_eq_true_iff, not_iff_not,
      List.any_eq_true]
  rw [recognised_iff, featuresOf, hentries, List.forall_mem_flatMap, Value.mapTable,
    Value.mapTable, Value.table.injEq, List.map_inj_left]
  simp only [Prod.mk.injEq, true_and]
  exact forall₂_congr hentry

/-- Where there is no alias, the keys alone decide what is removed. -/
theorem removeDependencies_eq (crateToml : CrateToml) (halias : NoAlias removed crateToml.table) :
    removeDependencies crateToml.table removed =
      some (crateToml.table.map fun entry => (entry.1,
        if entry.1 ∈ dependencyTables then entry.2.filterTable fun e => e.1 ∉ removed
        else if entry.1 = "features" then
          entry.2.mapTable (.filterTexts fun feature => featureName feature ∉ removed)
        else entry.2)) := by
  obtain ⟨table, hkeys, hdependencies, htexts⟩ := crateToml
  simp only at halias ⊢
  have htables := foldlM_removeFromTable removed dependencyTables table (by decide) hkeys
    fun name hname value hvalue => by
      have hmem := Entries.mem_of_get hvalue
      obtain ⟨entries, rfl, hentries, hentry⟩ :=
        Value.exists_dependencies (hdependencies _ hmem hname)
      refine ⟨entries, rfl, hentries, fun entry h => ⟨hentry entry h, ?_⟩⟩
      exact halias name hname entry (by rwa [entriesOf_of_mem hkeys hmem])
  have hget := Entries.get_mapValues table fun name value =>
    if name ∈ dependencyTables then value.filterTable fun e => e.1 ∉ removed else value
  rw [removeDependencies, htables]
  refine (removeDependenciesFromFeatures_eq removed ?_ fun value hvalue => ?_).trans ?_
  · simpa [Entries.keys, Function.comp_def] using hkeys
  · rw [hget, Option.map_eq_some_iff] at hvalue
    obtain ⟨value, hvalue, rfl⟩ := hvalue
    exact Value.exists_features (htexts _ (Entries.mem_of_get hvalue) rfl)
  · rw [Entries.modify_eq_map, List.map_map]
    refine congrArg some (List.map_congr_left fun entry _ => ?_)
    have hne : entry.1 ∈ dependencyTables → entry.1 ≠ "features" := fun hmem heq =>
      absurd (heq ▸ hmem) (by decide)
    by_cases hname : entry.1 ∈ dependencyTables
    · simp [hname, hne hname]
    · simp [hname]

theorem entriesOf_withoutDependencies {name : String} (hname : name ∈ dependencyTables) :
    entriesOf (withoutDependencies removed table) name =
      (entriesOf table name).filter fun entry => !isRemoved removed entry := by
  unfold entriesOf withoutDependencies
  rw [Entries.get_mapValues table fun name value => if name ∈ dependencyTables then
    value.filterTable fun entry => !isRemoved removed entry else if name = "features" then
      value.mapTable (Value.filterTexts fun feature =>
        !(removedKeys removed table).any (refersTo · feature)) else value]
  cases Entries.get table name with
  | none => rfl
  | some value => cases value <;> simp [hname, Value.filterTable]

theorem entriesOf_removeDependenciesFromFeatures {after : Table} {name : String}
    (h : removeDependenciesFromFeatures table removed = some after) (hne : name ≠ "features") :
    entriesOf after name = entriesOf table name := by
  unfold removeDependenciesFromFeatures at h
  split at h
  · cases h
    rfl
  · obtain ⟨features, -, hresult⟩ := Option.bind_eq_some_iff.mp h
    cases hresult
    exact entriesOf_modify _ _ hne
  · cases h

theorem noAlias_of_removeDependencies (crateToml : CrateToml)
    (h : removeDependencies crateToml.table removed =
      some (withoutDependencies removed crateToml.table)) : NoAlias removed crateToml.table := by
  obtain ⟨table, hkeys, hdependencies, htexts⟩ := crateToml
  rw [removeDependencies] at h
  obtain ⟨tables, htables, hresult⟩ := Option.bind_eq_some_iff.mp h
  have hnodup : ∀ name ∈ dependencyTables, (Entries.keys (entriesOf table name)).Nodup := by
    intro name hname
    cases hvalue : Entries.get table name with
    | none => simp [entriesOf, hvalue]
    | some value =>
      obtain ⟨entries, rfl, hentries, -⟩ := Value.exists_dependencies
        (hdependencies _ (Entries.mem_of_get hvalue) hname)
      rwa [entriesOf_of_get hvalue]
  rcases foldlM_removeFromTable_alias (by decide) hnodup htables with
    hnone | ⟨name, hname, entry, hentry, halias, hleft⟩
  · exact hnone
  · have hne : name ≠ "features" := fun heq => absurd (heq ▸ hname) (by decide)
    rw [← entriesOf_removeDependenciesFromFeatures hresult hne,
      entriesOf_withoutDependencies hname] at hleft
    obtain ⟨value, hmem⟩ := Entries.mem_keys.mp hleft
    obtain ⟨hmem, hkept⟩ := List.mem_filter.mp hmem
    have hsame := Entries.get_of_mem (hnodup name hname) hentry
    rw [Entries.get_of_mem (hnodup name hname) hmem, Option.some.injEq] at hsame
    simp [hsame, isRemoved, halias.2] at hkept

/-- Removing dependencies leaves the manifest without the entries that name a removed crate, by
key or by package, and without the features that refer to one of them, exactly where no entry is
an alias and the names that features start with tell which of them refer to a removed entry. -/
theorem removeDependencies_exact (crateToml : CrateToml) (removed : List String) :
    removeDependencies crateToml.table removed =
        some (withoutDependencies removed crateToml.table) ↔
      NoAlias removed crateToml.table ∧ Recognised removed crateToml.table := by
  refine (and_iff_right_of_imp (noAlias_of_removeDependencies crateToml)).symm.trans
    (and_congr_right fun halias => ?_)
  rw [removeDependencies_eq crateToml halias, Option.some.injEq, withoutDependencies,
    List.map_inj_left]
  obtain ⟨table, hkeys, hdependencies, htexts⟩ := crateToml
  simp only at halias ⊢
  constructor
  · intro h
    cases hvalue : Entries.get table "features" with
    | none => exact recognised_iff.mpr (by simp [featuresOf, entriesOf, hvalue])
    | some value =>
      have hmem := Entries.mem_of_get hvalue
      obtain ⟨entries, rfl, hentries⟩ := Value.exists_features (htexts _ hmem rfl)
      have heq := h _ hmem
      simp only [show "features" ∉ dependencyTables by decide, if_false, if_true] at heq
      exact (mapTable_eq_iff (entriesOf_of_mem hkeys hmem) hentries).mp (Prod.mk.inj heq).2
  · rintro h ⟨name, value⟩ hentry
    by_cases hname : name ∈ dependencyTables
    · obtain ⟨entries, rfl, -⟩ := Value.exists_dependencies (hdependencies _ hentry hname)
      simp only [if_pos hname]
      rw [halias.filterTable_eq hname (entriesOf_of_mem hkeys hentry)]
    · by_cases hfeature : name = "features"
      · subst hfeature
        obtain ⟨entries, rfl, hentries⟩ := Value.exists_features (htexts _ hentry rfl)
        simp only [if_neg hname, if_true]
        rw [(mapTable_eq_iff (entriesOf_of_mem hkeys hentry) hentries).mpr h]
      · simp [hname, hfeature]

def smallManifest : CrateToml where
  table :=
    [("dependencies", .table [("sp-core", .string "1"), ("log", .string "0.4")]),
      ("dev-dependencies", .table [("sp-core", .table [("path", .string "../core")])]),
      ("features", .table [("std", .array
        (["sp-core/std", "log/std", "sp-core?/alloc", "sp-core", "sp-core-hashing/std"].map
          .string))])]
  keys_nodup := by decide
  dependencies := by decide
  features := by decide

theorem removeDependencies_exact_small :
    removeDependencies smallManifest.table ["sp-core"] =
        some (withoutDependencies ["sp-core"] smallManifest.table) ∧
      featuresOf (withoutDependencies ["sp-core"] smallManifest.table) =
        ["log/std", "sp-core-hashing/std"] :=
  ⟨(removeDependencies_exact smallManifest ["sp-core"]).mpr
    ⟨by unfold NoAlias; decide, by decide, by decide⟩, rfl⟩

def aliasManifest : CrateToml where
  table :=
    [("dependencies", .table [("core", .table [("package", .string "sp-core")]),
        ("sp-core", .string "1")]),
      ("features", .table [("std", .array [.string "dep:sp-core", .string "core/std"])])]
  keys_nodup := by decide
  dependencies := by decide
  features := by decide

/-- An alias of a removed crate keeps its entry, and `dep:key` stays in the features. -/
theorem removeDependencies_keeps_alias :
    ∃ after, removeDependencies aliasManifest.table ["sp-core"] = some after ∧
      (∃ entry ∈ entriesOf after "dependencies", packageOf entry.2 = some "sp-core") ∧
      "sp-core" ∈ removedKeys ["sp-core"] aliasManifest.table ∧
      "dep:sp-core" ∈ featuresOf after :=
  ⟨[("dependencies", .table [("core", .table [("package", .string "sp-core")])]),
      ("features", .table [("std", .array [.string "dep:sp-core"])])],
    rfl, ⟨_, List.mem_singleton_self _, rfl⟩, by decide, by decide⟩

end PolkadotSdk.Patch
