import DuckInfer.Pin.Declared

/-!
Indexes of pins. A bucket holds the pins of one key, ordered by the group that they come from and by
their place in it, so that a query answers in the order of declaration. Empty buckets are dropped.
-/

namespace DuckInfer

/-- A pin with the ordinal of its group and its place in the group. -/
structure Posting where
  ordinal : Nat
  place : Nat
  pin : Pin

namespace Posting

/-- The posting does not come after the other one. -/
def notAfter (a b : Posting) : Bool :=
  a.ordinal < b.ordinal || (a.ordinal == b.ordinal && a.place ≤ b.place)

/-- Puts a posting behind all that do not come after it. -/
def insertSorted (posting : Posting) : List Posting → List Posting
  | [] => [posting]
  | p :: ps => if p.notAfter posting then p :: insertSorted posting ps else posting :: p :: ps

/-- The postings of other groups. -/
def withoutGroup (ordinal : Nat) (postings : List Posting) : List Posting :=
  postings.filter (·.ordinal != ordinal)

end Posting

/-- Buckets of postings by key, each key once. -/
structure Index where
  buckets : List (String × List Posting)

namespace Index

def empty : Index :=
  ⟨[]⟩

/-- The postings of a key. -/
def postings (ix : Index) (key : String) : List Posting :=
  (ix.buckets.lookup key).getD []

def pins (ix : Index) (key : String) : List Pin :=
  (ix.postings key).map Posting.pin

def contains (ix : Index) (key : String) : Bool :=
  (ix.buckets.lookup key).isSome

/-- Adds a posting to the bucket of a key. -/
def insertBucket (key : String) (posting : Posting) :
    List (String × List Posting) → List (String × List Posting)
  | [] => [(key, [posting])]
  | (k, ps) :: rest =>
    if k == key then (k, Posting.insertSorted posting ps) :: rest
    else (k, ps) :: insertBucket key posting rest

/-- Adds a posting under a key. -/
def insert (ix : Index) (key : String) (posting : Posting) : Index :=
  ⟨insertBucket key posting ix.buckets⟩

/-- Takes the postings of a group out of the bucket of a key. -/
def eraseBucket (key : String) (ordinal : Nat) :
    List (String × List Posting) → List (String × List Posting)
  | [] => []
  | (k, ps) :: rest =>
    if k == key then
      match Posting.withoutGroup ordinal ps with
      | [] => rest
      | ps => (k, ps) :: rest
    else (k, ps) :: eraseBucket key ordinal rest

/-- Takes the postings of a group away from a key. -/
def eraseGroup (ix : Index) (key : String) (ordinal : Nat) : Index :=
  ⟨eraseBucket key ordinal ix.buckets⟩

end Index

/-- What an index of a store is for. -/
inductive IndexName where
  /-- pins by path -/
  | paths
  /-- members by namespace -/
  | children
  /-- edges by the namespace that they start from -/
  | edges
  /-- overriding documentation by the path of the method -/
  | overrides
  /-- pins that define a template, by the name of the template -/
  | templates
  deriving DecidableEq, Repr

/-- The indexes of a store. -/
structure Indexes where
  paths : Index
  children : Index
  edges : Index
  overrides : Index
  templates : Index

namespace Indexes

def empty : Indexes :=
  ⟨.empty, .empty, .empty, .empty, .empty⟩

/-- The index of a name. -/
def get (ixs : Indexes) : IndexName → Index
  | .paths => ixs.paths
  | .children => ixs.children
  | .edges => ixs.edges
  | .overrides => ixs.overrides
  | .templates => ixs.templates

/-- Changes the index of a name. -/
def modify (ixs : Indexes) (index : IndexName) (f : Index → Index) : Indexes :=
  match index with
  | .paths => { ixs with paths := f ixs.paths }
  | .children => { ixs with children := f ixs.children }
  | .edges => { ixs with edges := f ixs.edges }
  | .overrides => { ixs with overrides := f ixs.overrides }
  | .templates => { ixs with templates := f ixs.templates }

theorem get_modify (ixs : Indexes) (index other : IndexName) (f : Index → Index) :
    (ixs.modify index f).get other =
      if other = index then f (ixs.get index) else ixs.get other := by
  cases index <;> cases other <;> rfl

end Indexes

namespace Pin

/-- The namespace that holds a namespace: `Foo` for `Foo::Bar`, wherever that is declared. -/
def outerPath (path : String) : String :=
  match Path.splitLast? path with
  | some (outer, _) => outer
  | none => ""

/-- The namespace whose member a pin is. -/
def owner? (pin : Pin) : Option String :=
  match pin.kind with
  | .space _ _ => if pin.path.isEmpty then none else some (outerPath pin.path)
  | .method _ _ _ | .constant _ | .variable .instanceVar _ | .variable .classVar _ => some pin.space
  | _ => none

/-- The names of the templates that the pin defines. -/
def templateNames (pin : Pin) : List String :=
  pin.templates.filterMap (·.firstWord?)

/-- The keys under which a pin is found in an index. -/
def keys (pin : Pin) : IndexName → List String
  | .paths => [pin.path]
  | .children => pin.owner?.toList
  | .edges =>
    match pin.edgeKind? with
    | none | some .overrides => []
    | some _ => [pin.space]
  | .overrides => if pin.edgeKind? == some .overrides then [pin.name] else []
  | .templates => pin.templateNames

end Pin

end DuckInfer
