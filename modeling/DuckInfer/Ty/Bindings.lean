import DuckInfer.Ty.Rebuild

/-!
What the generics of a declaration stand for. The entries are sorted by name, so that two sets of
bindings with the same content are the same list.
-/

namespace DuckInfer

/-- Types bound to generic names, sorted by name. -/
structure Bindings where
  entries : List (String × Ty)

namespace Bindings

def empty : Bindings :=
  ⟨[]⟩

instance : EmptyCollection Bindings := ⟨empty⟩

instance : Inhabited Bindings := ⟨empty⟩

instance : BEq Bindings := ⟨fun a b => a.entries == b.entries⟩

def isEmpty (b : Bindings) : Bool :=
  b.entries.isEmpty

/-- What a generic is bound to. -/
def find? (b : Bindings) (name : String) : Option Ty :=
  b.entries.lookup name

def contains (b : Bindings) (name : String) : Bool :=
  (b.find? name).isSome

/-- Puts an entry at its place, over an older one of the same name. -/
def insertSorted (name : String) (t : Ty) : List (String × Ty) → List (String × Ty)
  | [] => [(name, t)]
  | (n, u) :: rest =>
    if name < n then (name, t) :: (n, u) :: rest
    else if name = n then (name, t) :: rest
    else (n, u) :: insertSorted name t rest

/-- Binds a generic, over an older binding. -/
def insert (b : Bindings) (name : String) (t : Ty) : Bindings :=
  ⟨insertSorted name t b.entries⟩

def mapTys (f : Ty → Ty) (b : Bindings) : Bindings :=
  ⟨b.entries.map fun (name, t) => (name, f t)⟩

/-- The bindings of a list of pairs; a later pair wins. -/
def ofList (pairs : List (String × Ty)) : Bindings :=
  pairs.foldl (fun b (name, t) => b.insert name t) empty

end Bindings

/-- Replaces bound placeholders by what they are bound to. -/
def Ty.substitute (b : Bindings) (t : Ty) : Ty :=
  if t.isGeneric && !b.isEmpty then
    t.rebuild fun m =>
      match m.placeholderName?.bind b.find? with
      | some bound => bound
      | none => single m
  else t

namespace Bindings

/-- Completes bound types that mention generics bound by now. -/
def refresh (b : Bindings) : Bindings :=
  b.mapTys (Ty.substitute b)

end Bindings

end DuckInfer
