import DuckInfer.Store.Index

/-!
The store of all known pins. Pins come in groups, one for each file; a group is replaced or removed
as a whole, and only the postings of its old and new pins change. A group that is replaced keeps its
place among the groups, and a new one comes last.
-/

namespace DuckInfer

/-- The pins that one file contributes. -/
structure Group where
  key : String
  ordinal : Nat
  pins : List Pin

/-- All groups in their order, and the indexes of their pins. -/
structure Store where
  groups : List Group
  /-- the ordinal of the next new group -/
  next : Nat
  indexes : Indexes
  blocks : List Posting

namespace Store

def empty : Store :=
  ⟨[], 0, .empty, []⟩

instance : Inhabited Store := ⟨empty⟩

/-! ### Changes -/

/-- Adds a posting to an index. -/
def insertKey (store : Store) (index : IndexName) (key : String) (posting : Posting) : Store :=
  { store with indexes := store.indexes.modify index fun ix => ix.insert key posting }

/-- Takes the postings of a group away from a key of an index. -/
def eraseKey (store : Store) (index : IndexName) (key : String) (ordinal : Nat) : Store :=
  { store with indexes := store.indexes.modify index fun ix => ix.eraseGroup key ordinal }

def indexNames : List IndexName :=
  [.paths, .children, .edges, .overrides, .templates]

/-- The index keys of a pin. -/
def indexKeys (pin : Pin) : List (IndexName × String) :=
  indexNames.flatMap fun index => (pin.keys index).map fun key => (index, key)

/-- Adds the postings of a pin. -/
def indexPin (store : Store) (posting : Posting) : Store :=
  let store :=
    if posting.pin.isBlock then { store with blocks := Posting.insertSorted posting store.blocks }
    else store
  (indexKeys posting.pin).foldl (fun store (index, key) => store.insertKey index key posting) store

/-- Adds the postings of a group whose pins begin at a place. -/
def indexPins (store : Store) (ordinal place : Nat) : List Pin → Store
  | [] => store
  | pin :: pins => indexPins (store.indexPin ⟨ordinal, place, pin⟩) ordinal (place + 1) pins

/-- Takes the postings of a group away. -/
def unindexPins (store : Store) (ordinal : Nat) (pins : List Pin) : Store :=
  let store := (pins.flatMap indexKeys).foldl
    (fun store (index, key) => store.eraseKey index key ordinal) store
  { store with blocks := Posting.withoutGroup ordinal store.blocks }

def group? (store : Store) (key : String) : Option Group :=
  store.groups.find? (·.key == key)

/-- Gives a group other pins. -/
def setPins (key : String) (pins : List Pin) (groups : List Group) : List Group :=
  groups.map fun g => if g.key == key then { g with pins } else g

/-- Replaces the pins of a key. -/
def update (store : Store) (key : String) (pins : List Pin) : Store :=
  match store.group? key with
  | some old =>
    let store := store.unindexPins old.ordinal old.pins
    indexPins { store with groups := setPins key pins store.groups } old.ordinal 0 pins
  | none =>
    let groups := store.groups ++ [⟨key, store.next, pins⟩]
    indexPins { store with groups, next := store.next + 1 } store.next 0 pins

/-- Removes the group of a key, if there is one. -/
def remove (store : Store) (key : String) : Store :=
  match store.group? key with
  | some old =>
    let store := store.unindexPins old.ordinal old.pins
    { store with groups := store.groups.filter (·.key != key) }
  | none => store

/-- The store of several groups; a repeated key replaces the pins given before. -/
def ofGroups (groups : List (String × List Pin)) : Store :=
  groups.foldl (fun store (key, pins) => store.update key pins) empty

/-! ### Queries -/

/-- The keys of the groups. -/
def keysInOrder (store : Store) : List String :=
  store.groups.map Group.key

def pinsOf (store : Store) (key : String) : List Pin :=
  match store.group? key with
  | some g => g.pins
  | none => []

def everyPin (store : Store) : List Pin :=
  store.groups.flatMap Group.pins

def size (store : Store) : Nat :=
  store.everyPin.length

def pinsAt (store : Store) (path : String) : List Pin :=
  (store.indexes.paths).pins path

def hasPin (store : Store) (path : String) : Bool :=
  (store.indexes.paths).contains path

/-- The declarations of a namespace. -/
def spacesAt (store : Store) (path : String) : List Pin :=
  (store.pinsAt path).filter Pin.isSpace

/-- The path is the root or that of a namespace. -/
def hasSpace (store : Store) (path : String) : Bool :=
  path.isEmpty || (store.pinsAt path).any Pin.isSpace

/-- The path is that of a namespace or constant. -/
def hasConstant (store : Store) (path : String) : Bool :=
  (store.pinsAt path).any fun pin => pin.isSpace || pin.isConstant

def declaresModule (pin : Pin) : Bool :=
  match pin.kind with
  | .space isModule _ => isModule
  | _ => false

/-- The path was declared to be that of a module. -/
def hasModule (store : Store) (path : String) : Bool :=
  (store.pinsAt path).any declaresModule

/-- The generic names of a namespace, from the first declaration that has any. -/
def genericsOf (store : Store) (path : String) : List String :=
  match (store.pinsAt path).find? (!·.generics.isEmpty) with
  | some pin => pin.generics
  | none => []

def membersOf (store : Store) (space : String) : List Pin :=
  (store.indexes.children).pins space

/-- The methods declared in a namespace for a scope. -/
def methodsOf (store : Store) (space : String) (scope : Scope) : List Pin :=
  (store.membersOf space).filter (·.methodLevel? == some scope)

/-- The constants and namespaces declared in a namespace. -/
def constantsOf (store : Store) (space : String) : List Pin :=
  (store.membersOf space).filter fun pin => pin.isConstant || pin.isSpace

/-- The edges of some kinds that start from a namespace. -/
def edgesFrom (store : Store) (space : String) (kinds : List EdgeKind) : List Pin :=
  ((store.indexes.edges).pins space).filter fun pin =>
    match pin.edgeKind? with
    | some kind => kinds.contains kind
    | none => false

/-- The edges of one kind that start from a namespace. -/
def edges (store : Store) (space : String) (kind : EdgeKind) : List Pin :=
  store.edgesFrom space [kind]

/-- The overriding documentation of a method. -/
def overrides (store : Store) (path : String) : List Pin :=
  (store.indexes.overrides).pins path

def allBlocks (store : Store) : List Pin :=
  store.blocks.map Posting.pin

/-- The first template that is defined under a name. -/
def template? (store : Store) (name : String) : Option Doc.Directive :=
  ((store.indexes.templates).pins name).findSome? fun pin =>
    pin.templates.find? (·.firstWord? == some name)

end Store

end DuckInfer
