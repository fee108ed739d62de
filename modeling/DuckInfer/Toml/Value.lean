/-!
Values of a TOML document, and tables that are still being filled.

Values of other kinds than these (booleans, floating point numbers, dates) have no place in the
documents of this library, so they are not represented, and reading one fails.
-/

namespace DuckInfer.Toml

mutual

/-- A value. -/
inductive Value where
  | string (text : String)
  | integer (value : Int)
  | array (items : List Value)
  | table (entries : List Entry)

/-- A key of a table with its value. -/
structure Entry where
  key : String
  value : Value

end

mutual

/-- A table that is being filled. -/
structure Table where
  /-- made for the sake of a table inside it, without a header of its own -/
  implicit : Bool
  /-- made by a dotted key -/
  dotted : Bool
  slots : List TableSlot

/-- A key of an open table. -/
structure TableSlot where
  key : String
  item : TableItem

/-- What a key of an open table holds. -/
inductive TableItem where
  | value (v : Value)
  | table (t : Table)
  /-- an array of tables, of which the last one is open -/
  | tables (ts : List Table)

end

namespace Table

/-- A table without entries that has a header. -/
def empty : Table :=
  ⟨false, false, []⟩

/-- What a key holds. -/
def find? (t : Table) (key : String) : Option TableItem :=
  (t.slots.find? (·.key == key)).map TableSlot.item

/-- The slots with another item for a key. -/
def setSlot (key : String) (item : TableItem) : List TableSlot → List TableSlot
  | [] => [⟨key, item⟩]
  | slot :: slots =>
    if slot.key == key then ⟨key, item⟩ :: slots else slot :: setSlot key item slots

/-- Gives a key an item. -/
def set (t : Table) (key : String) (item : TableItem) : Table :=
  { t with slots := setSlot key item t.slots }

/-- Changes the table at a path, and makes the tables on the way that are missing. A dotted path
does not lead through a table that has a header. -/
def modifyAt (dotted : Bool) (f : Table → Option Table) : List String → Table → Option Table
  | [], t => f t
  | key :: path, t =>
    match t.find? key with
    | none => (modifyAt dotted f path ⟨true, dotted, []⟩).map fun child => t.set key (.table child)
    | some (.value _) => none
    | some (.tables ts) =>
      match ts.getLast? with
      | none => none
      | some last =>
        (modifyAt dotted f path last).map fun child => t.set key (.tables (ts.dropLast ++ [child]))
    | some (.table child) =>
      if dotted && !child.implicit then none
      else (modifyAt dotted f path child).map fun child => t.set key (.table child)

/-- Puts a value under a key, which must be free. Tables made by dotted keys are filled by dotted
keys only, and other tables by plain keys only. -/
def putValue (isDotted : Bool) (key : String) (v : Value) (t : Table) : Option Table :=
  if t.dotted != isDotted || (t.find? key).isSome then none else some (t.set key (.value v))

/-- Puts a value under a key, given with the path to it. -/
def insert (t : Table) (path : List String) (key : String) (v : Value) : Option Table :=
  t.modifyAt true (putValue (!path.isEmpty) key v) path

/-- Opens the table of a header. It may not have been opened before. -/
def openTable (key : String) (t : Table) : Option Table :=
  match t.find? key with
  | none => some (t.set key (.table empty))
  | some (.table child) =>
    if child.implicit && !child.dotted then
      some (t.set key (.table { child with implicit := false }))
    else none
  | some _ => none

/-- Opens the next table of an array. -/
def pushTable (key : String) (t : Table) : Option Table :=
  match t.find? key with
  | none => some (t.set key (.tables [empty]))
  | some (.tables ts) => some (t.set key (.tables (ts ++ [empty])))
  | some _ => none

mutual

/-- The entries of a finished table. -/
def entries : Table → List Entry
  | ⟨_, _, slots⟩ => entriesOf slots

def entriesOf : List TableSlot → List Entry
  | [] => []
  | ⟨key, item⟩ :: slots => ⟨key, itemValue item⟩ :: entriesOf slots

/-- The value of an item. -/
def itemValue : TableItem → Value
  | .value v => v
  | .table t => .table t.entries
  | .tables ts => .array (tableValues ts)

def tableValues : List Table → List Value
  | [] => []
  | t :: ts => .table t.entries :: tableValues ts

end

end Table

end DuckInfer.Toml
