import PolkadotSdk.Lib.Entries

/-! # TOML values

Values as they are read from a manifest, and what is asked of the library that reads and prints
them: a table that is read has distinct keys, and a table that is printed is read again with the
same entries, in an order of its own.
-/

namespace PolkadotSdk.Patch

/-- A TOML value; numbers, booleans and dates are kept as their text. -/
inductive Value where
  | string (text : String)
  | scalar (text : String)
  | array (items : List Value)
  | table (entries : List (String × Value))

abbrev Table : Type := List (String × Value)

def packageOf : Value → Option String
  | .table fields =>
    match Entries.get fields "package" with
    | some (.string package) => some package
    | _ => none
  | _ => none

def entriesOf (table : Table) (name : String) : Table :=
  match Entries.get table name with
  | some (.table entries) => entries
  | _ => []

def Value.isText : Value → Bool
  | .string _ => true
  | _ => false

def Value.isTexts : Value → Bool
  | .array items => items.all Value.isText
  | _ => false

/-! ## Texts and filters -/

def textOf : Value → Option String
  | .string text => some text
  | _ => none

def textsOf : Value → List String
  | .array items => items.filterMap textOf
  | _ => []

@[simp] theorem textsOf_texts (texts : List String) :
    textsOf (.array (texts.map .string)) = texts := by
  induction texts with
  | nil => rfl
  | cons text texts ih =>
    simp only [textsOf] at ih
    simp [textsOf, textOf, ih]

def Value.filterTable (p : String × Value → Bool) : Value → Value
  | .table entries => .table (entries.filter p)
  | value => value

def Value.filterTexts (p : String → Bool) : Value → Value
  | .array items => .array (items.filter fun
      | .string text => p text
      | _ => true)
  | value => value

def Value.mapTable (f : Value → Value) : Value → Value
  | .table entries => .table (entries.map fun entry => (entry.1, f entry.2))
  | value => value

theorem Value.exists_text {value : Value} (h : value.isText = true) :
    ∃ text, value = .string text := by
  cases value with
  | string text => exact ⟨text, rfl⟩
  | _ => cases h

theorem Value.exists_texts {value : Value} (h : value.isTexts = true) :
    ∃ texts : List String, value = .array (texts.map .string) := by
  cases value with
  | array items =>
    induction items with
    | nil => exact ⟨[], rfl⟩
    | cons item items ih =>
      simp only [isTexts, List.all_cons, Bool.and_eq_true] at h ih
      obtain ⟨texts, htexts⟩ := ih h.2
      obtain ⟨text, rfl⟩ := Value.exists_text h.1
      cases htexts
      exact ⟨text :: texts, rfl⟩
  | _ => cases h

theorem Value.filterTexts_texts (p : String → Bool) (texts : List String) :
    Value.filterTexts p (.array (texts.map .string)) = .array ((texts.filter p).map .string) := by
  simp [Value.filterTexts, List.filter_map, Function.comp_def]

theorem entriesOf_of_get {table entries : Table} {name : String}
    (h : Entries.get table name = some (.table entries)) : entriesOf table name = entries := by
  simp [entriesOf, h]

theorem entriesOf_of_mem {table : Table} (hkeys : (Entries.keys table).Nodup) {name : String}
    {entries : Table} (h : (name, Value.table entries) ∈ table) : entriesOf table name = entries :=
  entriesOf_of_get (Entries.get_of_mem hkeys h)

end PolkadotSdk.Patch
