import DuckInfer.Ty.Basic

/-!
Rebuilding types. Every change of a whole tree goes through `Ty.rebuildM`: parameters first, then
the member made of them. What a member becomes may be a union, which is spliced into the union
around it or fills the whole parameter.

A placeholder `generic<T>` is a leaf: `T` is a name there, not a type.
-/

namespace DuckInfer

/-- The member has nothing below it to rebuild. -/
def Member.isLeaf (m : Member) : Bool :=
  m.isPlaceholder || (m.keys.isEmpty && m.subs.isEmpty)

section Effects

variable {m : Type → Type} [Monad m]

mutual

/-- Rebuilds a member from the bottom up, running the effects of `f` in that order. -/
def Member.rebuildM (f : Member → m Ty) : Member → m Ty
  | ⟨name, marked, kind, keys, subs⟩ => do
    if Member.isLeaf ⟨name, marked, kind, keys, subs⟩ then
      f ⟨name, marked, kind, keys, subs⟩
    else
      let keys ← Ty.rebuildListM f keys
      let subs ← Ty.rebuildListM f subs
      f (.make name marked kind keys subs)

/-- Rebuilds every member of a type. -/
def Ty.rebuildM (f : Member → m Ty) : Ty → m Ty
  | ⟨first, rest⟩ => do
    let first ← first.rebuildM f
    let rest ← Member.rebuildListM f rest
    return Ty.unionAll (first :: rest)

def Member.rebuildListM (f : Member → m Ty) : List Member → m (List Ty)
  | [] => return []
  | x :: xs => do
    let t ← x.rebuildM f
    let ts ← Member.rebuildListM f xs
    return t :: ts

def Ty.rebuildListM (f : Member → m Ty) : List Ty → m (List Ty)
  | [] => return []
  | x :: xs => do
    let t ← x.rebuildM f
    let ts ← Ty.rebuildListM f xs
    return t :: ts

end

end Effects

namespace Ty

def rebuild (f : Member → Ty) (t : Ty) : Ty :=
  Id.run (t.rebuildM fun m => pure (f m))

/-- Replaces the placeholders for the named generics by `undefined`. -/
def eraseGenerics (names : List String) (t : Ty) : Ty :=
  if t.isGeneric then
    t.rebuild fun m =>
      match m.placeholderName? with
      | some name => if names.contains name then undefined else single m
      | none => single m
  else t

/-- Replaces every placeholder by `undefined`. -/
def erasePlaceholders (t : Ty) : Ty :=
  if t.isGeneric then t.rebuild fun m => if m.isPlaceholder then undefined else single m
  else t

/-- Members of the instance type of a member: `Class<Foo>` and `Module<Foo>` stand for `Foo`. -/
def instanceMembers (m : Member) : List Member :=
  if Member.isMetaName m.name then
    match m.subs with
    | [] => [m]
    | sub :: _ => sub.members
  else [m]

/-- `Class<Foo>` and `Module<Foo>` become `Foo`. -/
def instanceTy (t : Ty) : Ty :=
  ofMembers (t.members.flatMap instanceMembers)

/-- Replaces `self` by a receiver. Of a class its instance type is taken. -/
def selfTo (t receiver : Ty) : Ty :=
  if t.mentionsSelf then
    t.rebuild fun m => if m.isSelf then receiver.instanceTy else single m
  else t

/-- The name of the member may refer to a declaration by a relative path. -/
def isRelativeName (m : Member) : Bool :=
  !(m.marked || m.isBuiltin || m.isDuck || m.isLiteral || m.isPlaceholder)

/-- Replaces relative names by the absolute ones that `lookup` finds for them. -/
def qualifyM {m : Type → Type} [Monad m] (lookup : String → m (Option String)) (t : Ty) : m Ty :=
  t.rebuildM fun member => do
    if isRelativeName member then
      match ← lookup member.name with
      | some path => return single (member.renamed path true)
      | none => return single member
    else return single member

/-- Replaces relative names by the absolute ones that `lookup` finds for them. -/
def qualify (lookup : String → Option String) (t : Ty) : Ty :=
  Id.run (t.qualifyM fun name => pure (lookup name))

/-- Widens literals to their classes. -/
def widenLiterals (t : Ty) : Ty :=
  t.rebuild fun m =>
    match m.classOfLiteral? with
    | some name => absolute name
    | none => single m

/-- The type of the classes of a type: `Foo` becomes `Class<Foo>`. -/
def toClassLevel (t : Ty) : Ty :=
  ofMembers (t.members.map fun m => .list "Class" [single m])

end Ty

end DuckInfer
