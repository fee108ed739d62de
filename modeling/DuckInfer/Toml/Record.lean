import DuckInfer.Toml.Value

/-!
Reading values as records. A record is a table whose keys are the names of its fields, or an array
with the fields in order. A table may not have other keys; fields at the end of an array may be
missing if they have a default.
-/

namespace DuckInfer.Toml

/-- The text of a value that is one. -/
def text? : Value → Option String
  | .string s => some s
  | _ => none

/-- The number of a value that is a natural number. -/
def nat? : Value → Option Nat
  | .integer (.ofNat n) => some n
  | _ => none

/-- The items of a value that is an array, each read by `f`. -/
def listOf? {α : Type} (f : Value → Option α) : Value → Option (List α)
  | .array items => items.mapM f
  | _ => none

/-- Nothing: a table or an array without content. -/
def isNothing : Value → Bool
  | .table [] => true
  | .array [] => true
  | _ => false

/-- One of several words, each with its meaning. It is a text, or the only key of a table, with no
content. -/
def word? {α : Type} (words : List (String × α)) : Value → Option α
  | .string s => words.lookup s
  | .table [⟨key, value⟩] => if isNothing value then words.lookup key else none
  | _ => none

/-- The values of the fields of a record. -/
inductive Fields where
  | named (entries : List Entry)
  | placed (items : List Value)

/-- A value that is read as a record with these field names. -/
structure Record where
  names : List String
  fields : Fields

namespace Record

/-- Entries as a record, if they have no other keys. -/
def ofEntries? (names : List String) (entries : List Entry) : Option Record :=
  if entries.all fun e => names.contains e.key then some ⟨names, .named entries⟩ else none

/-- A value as a record. -/
def ofValue? (names : List String) : Value → Option Record
  | .table entries => ofEntries? names entries
  | .array items => some ⟨names, .placed items⟩
  | _ => none

/-- The value of a field, if it is given. -/
def find? (r : Record) (name : String) : Option Value :=
  match r.fields with
  | .named entries => (entries.find? (·.key == name)).map Entry.value
  | .placed items => items[r.names.idxOf name]?

/-- A field that has to be given. -/
def required {α : Type} (r : Record) (name : String) (f : Value → Option α) : Option α :=
  (r.find? name).bind f

/-- A field that may be left out, with a default. -/
def orDefault {α : Type} (r : Record) (name : String) (f : Value → Option α) (default : α) :
    Option α :=
  match r.find? name with
  | some v => f v
  | none => some default

/-- A field that may be left out of a table. -/
def optional {α : Type} (r : Record) (name : String) (f : Value → Option α) : Option (Option α) :=
  match r.find? name, r.fields with
  | some v, _ => (f v).map some
  | none, .named _ => some none
  | none, .placed _ => none

end Record

mutual

/-- How deep values are nested. -/
def Value.depth : Value → Nat
  | .string _ => 0
  | .integer _ => 0
  | .array items => Value.depths items + 1
  | .table entries => Entry.depths entries + 1

def Value.depths : List Value → Nat
  | [] => 0
  | v :: vs => max v.depth (Value.depths vs)

def Entry.depths : List Entry → Nat
  | [] => 0
  | ⟨_, v⟩ :: es => max v.depth (Entry.depths es)

end

end DuckInfer.Toml
