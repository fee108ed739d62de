import DuckInfer.Distinct

/-!
Types: a `Member` is a name with parameters, and a `Ty` is an ordered union of members that is
never empty. The constructors to use are `Member.make`, which keeps the bracket style in step with
the parameters, and `Ty.ofMembers`, which keeps one member per tag.

A type has two written forms: its `tag`, by which types are compared, and its `markedTag`, which
also shows which names are absolute.
-/

namespace DuckInfer

/-- Bracket style of the parameters of a member. -/
inductive BracketStyle where
  /-- no parameters -/
  | none
  /-- `Array<String>` -/
  | list
  /-- `Array(String, Integer)` -/
  | fixed
  /-- `Hash{Symbol => String}` -/
  | hash
  deriving DecidableEq, Repr

/-- Whether methods are looked up on an instance or on the class itself. -/
inductive Scope where
  | instanceLevel
  | classLevel
  deriving DecidableEq, Repr

def Scope.text : Scope → String
  | .instanceLevel => "instance"
  | .classLevel => "class"

mutual

/-- One member of a union. `marked` says that the name was written as an absolute one. -/
structure Member where
  name : String
  marked : Bool
  kind : BracketStyle
  keys : List Ty
  subs : List Ty

/-- A union of at least one member. -/
structure Ty where
  first : Member
  rest : List Member

end

/-! ### Written form -/

/-- Brackets around written parameters. -/
def BracketStyle.brackets (kind : BracketStyle) (keys subs : List String) : String :=
  match kind with
  | .none => ""
  | .list => "<" ++ ", ".intercalate subs ++ ">"
  | .fixed => "(" ++ ", ".intercalate subs ++ ")"
  | .hash => "\x7b" ++ ", ".intercalate keys ++ " => " ++ ", ".intercalate subs ++ "\x7d"

/-- The name stands for a type about which nothing is known. -/
def Member.isUndefined (m : Member) : Bool :=
  m.name == "undefined"

namespace Ty

/-- The members of a union, in order. -/
def members (t : Ty) : List Member :=
  t.first :: t.rest

/-- Nothing is known about any member. -/
def isUndefined (t : Ty) : Bool :=
  t.members.all Member.isUndefined

end Ty

mutual

/-- Written form of a member; `marks` says whether absolute names show it. Parameters that are all
undefined are left out. -/
def Member.text (marks : Bool) : Member → String
  | ⟨name, marked, kind, keys, subs⟩ =>
    (if marks && marked then "::" else "") ++ name ++
      if keys.all Ty.isUndefined && subs.all Ty.isUndefined then ""
      else kind.brackets (Ty.texts marks keys) (Ty.texts marks subs)

def Ty.text (marks : Bool) : Ty → String
  | ⟨first, rest⟩ => ", ".intercalate (first.text marks :: Member.texts marks rest)

def Member.texts (marks : Bool) : List Member → List String
  | [] => []
  | m :: ms => m.text marks :: Member.texts marks ms

def Ty.texts (marks : Bool) : List Ty → List String
  | [] => []
  | t :: ts => t.text marks :: Ty.texts marks ts

end

theorem Member.texts_eq_map (marks : Bool) (ms : List Member) :
    Member.texts marks ms = ms.map (Member.text marks) := by
  induction ms with
  | nil => rfl
  | cons m ms ih => simp [Member.texts, ih]

theorem Ty.texts_eq_map (marks : Bool) (ts : List Ty) :
    Ty.texts marks ts = ts.map (Ty.text marks) := by
  induction ts with
  | nil => rfl
  | cons t ts ih => simp [Ty.texts, ih]

namespace Member

/-- The written form without marks. -/
def tag (m : Member) : String :=
  m.text false

/-- The written form with marks. -/
def markedTag (m : Member) : String :=
  m.text true

/-- Members are compared by tag. -/
instance : BEq Member := ⟨fun a b => a.tag == b.tag⟩

/-- A member whose bracket style fits its parameters: without parameters it has none, and with
parameters it has one. -/
def make (name : String) (marked : Bool) (kind : BracketStyle) (keys subs : List Ty) : Member :=
  let kind :=
    if keys.isEmpty && subs.isEmpty then .none
    else match kind with
      | .none => .list
      | kind => kind
  ⟨name, marked, kind, keys, subs⟩

/-- A relative name without parameters. -/
def named (name : String) : Member :=
  ⟨name, false, .none, [], []⟩

/-- An absolute name without parameters. -/
def absolute (name : String) : Member :=
  ⟨name, true, .none, [], []⟩

/-- `::name<subs>` -/
def list (name : String) (subs : List Ty) : Member :=
  make name true .list [] subs

/-- `::name(subs)` -/
def fixed (name : String) (subs : List Ty) : Member :=
  make name true .fixed [] subs

/-- `::name{key => value}` -/
def hash (name : String) (key value : Ty) : Member :=
  make name true .hash [key] [value]

/-- The placeholder `generic<name>`. -/
def generic (name : String) : Member :=
  make "generic" false .list [] [⟨named name, []⟩]

/-- The same parameters under another name. -/
def renamed (m : Member) (name : String) (marked : Bool) : Member :=
  make name marked m.kind m.keys m.subs

/-- The same name with other parameters. -/
def replaceParams (m : Member) (keys subs : List Ty) : Member :=
  make m.name m.marked m.kind keys subs

/-- Key parameters, then value parameters. -/
def params (m : Member) : List Ty :=
  m.keys ++ m.subs

end Member

namespace Ty

/-- The written form without marks. -/
def tag (t : Ty) : String :=
  t.text false

/-- The written form with marks. -/
def markedTag (t : Ty) : String :=
  t.text true

/-- Types are compared by tag. -/
instance : BEq Ty := ⟨fun a b => a.tag == b.tag⟩

/-- The union of one member. -/
def single (m : Member) : Ty :=
  ⟨m, []⟩

/-- Nothing is known. -/
def undefined : Ty :=
  single (.named "undefined")

def nil : Ty :=
  single (.named "nil")

/-- The type of a method that returns nothing of use. -/
def void : Ty :=
  single (.named "void")

/-- The type of the receiver. -/
def self : Ty :=
  single (.named "self")

def boolean : Ty :=
  single (.named "Boolean")

def absolute (name : String) : Ty :=
  single (.absolute name)

instance : Inhabited Ty := ⟨undefined⟩

/-- The union of members, one for each tag; nothing is known about an empty union. -/
def ofMembers (ms : List Member) : Ty :=
  match distinctOn Member.tag ms with
  | [] => undefined
  | m :: ms => ⟨m, ms⟩

/-- The union of several types. -/
def unionAll (ts : List Ty) : Ty :=
  ofMembers (ts.flatMap members)

def union (a b : Ty) : Ty :=
  unionAll [a, b]

/-- The union of the members that satisfy `keep`. -/
def select (t : Ty) (keep : Member → Bool) : Ty :=
  ofMembers (t.members.filter keep)

def name (t : Ty) : String :=
  t.first.name

end Ty

/-! ### What a name means -/

namespace Member

/-- Anything that responds to a method: `#to_s`. -/
def isDuck (m : Member) : Bool :=
  m.name.toList.head? == some '#'

/-- The type of `nil`. -/
def isNil (m : Member) : Bool :=
  m.name == "nil"

/-- The type of no value. -/
def isVoid (m : Member) : Bool :=
  m.name == "void"

/-- The type of the receiver. -/
def isSelf (m : Member) : Bool :=
  m.name == "self"

/-- Names that never refer to a declaration. -/
def builtinNames : List String :=
  ["nil", "void", "undefined", "self", "Boolean"]

def isBuiltin (m : Member) : Bool :=
  builtinNames.contains m.name

/-- The parameters stand in fixed positions. -/
def isTuple (m : Member) : Bool :=
  m.kind == .fixed

/-- A `generic<T>` placeholder. -/
def isPlaceholder (m : Member) : Bool :=
  m.name == "generic"

/-- `T` for `generic<T>`. -/
def placeholderName? (m : Member) : Option String :=
  if m.isPlaceholder then m.subs.head?.map Ty.name else none

/-- The classes `Class` and `Module`, whose instances are namespaces. -/
def isMetaName (name : String) : Bool :=
  name == "Class" || name == "Module"

/-- `Class<Foo>` or `Module<Foo>`. -/
def isMeta (m : Member) : Bool :=
  isMetaName m.name && !m.subs.isEmpty

/-- The namespace whose methods a value of this type has. -/
def space (m : Member) : String :=
  if m.isDuck then "Object"
  else if m.name == "nil" then "NilClass"
  else if isMetaName m.name then
    match m.subs with
    | [] => m.name
    | sub :: _ => sub.name
  else m.name

/-- The namespace with the mark of the name in front. -/
def markedSpace (m : Member) : String :=
  if m.marked then "::" ++ m.space else m.space

/-- Whether methods are looked up on instances of the namespace or on the namespace itself. -/
def scope (m : Member) : Scope :=
  if m.isMeta then .classLevel else .instanceLevel

/-- Union of the value parameters. -/
def valueTy (m : Member) : Ty :=
  Ty.unionAll m.subs

/-- Union of the key parameters. -/
def keyTy (m : Member) : Ty :=
  Ty.unionAll m.keys

end Member

/-- Class of the literal that a name spells, if it spells one. A number may have any number of
minus signs in front. -/
def classOfLiteral? (name : String) : Option String :=
  match name.toList with
  | [] => none
  | c :: rest =>
    if name == "true" || name == "false" then some "Boolean"
    else if c == '\'' || c == '"' then some "String"
    else if c == ':' then
      if rest.head? == some ':' then none else some "Symbol"
    else if c == '-' || c.isDigit then
      match (c :: rest).dropWhile (· == '-') with
      | [] => none
      | d :: digits =>
        if !d.isDigit then none
        else if digits.contains '.' then some "Float"
        else some "Integer"
    else none

/-- Class of the literal that the member is, if it is one. -/
def Member.classOfLiteral? (m : Member) : Option String :=
  DuckInfer.classOfLiteral? m.name

/-- The member is the type of one literal value. -/
def Member.isLiteral (m : Member) : Bool :=
  m.classOfLiteral?.isSome

mutual

/-- The name and the names in all parameters are absolute. -/
def Member.isAbsolute : Member → Bool
  | ⟨_, marked, _, keys, subs⟩ => marked && Ty.allAbsolute keys && Ty.allAbsolute subs

/-- All names in the type are absolute. -/
def Ty.isAbsolute : Ty → Bool
  | ⟨first, rest⟩ => first.isAbsolute && Member.allAbsolute rest

def Member.allAbsolute : List Member → Bool
  | [] => true
  | m :: ms => m.isAbsolute && Member.allAbsolute ms

def Ty.allAbsolute : List Ty → Bool
  | [] => true
  | t :: ts => t.isAbsolute && Ty.allAbsolute ts

end

mutual

/-- Some member, here or in a parameter at any depth, satisfies `p`. -/
def Member.anyMember (p : Member → Bool) : Member → Bool
  | ⟨name, marked, kind, keys, subs⟩ =>
    p ⟨name, marked, kind, keys, subs⟩ || Ty.anyMemberIn p keys || Ty.anyMemberIn p subs

/-- Some member of the type, at any depth, satisfies `p`. -/
def Ty.anyMember (p : Member → Bool) : Ty → Bool
  | ⟨first, rest⟩ => first.anyMember p || Member.anyMemberIn p rest

def Member.anyMemberIn (p : Member → Bool) : List Member → Bool
  | [] => false
  | m :: ms => m.anyMember p || Member.anyMemberIn p ms

def Ty.anyMemberIn (p : Member → Bool) : List Ty → Bool
  | [] => false
  | t :: ts => t.anyMember p || Ty.anyMemberIn p ts

end

mutual

/-- Names of the placeholders in a member, with repetitions. What stands inside a placeholder is
not looked at. -/
def Member.placeholderNames : Member → List String
  | ⟨name, marked, kind, keys, subs⟩ =>
    match Member.placeholderName? ⟨name, marked, kind, keys, subs⟩ with
    | some generic => [generic]
    | none => Ty.placeholderNamesIn keys ++ Ty.placeholderNamesIn subs

/-- Names of the placeholders in a type, with repetitions. -/
def Ty.placeholderNames : Ty → List String
  | ⟨first, rest⟩ => first.placeholderNames ++ Member.placeholderNamesIn rest

def Member.placeholderNamesIn : List Member → List String
  | [] => []
  | m :: ms => m.placeholderNames ++ Member.placeholderNamesIn ms

def Ty.placeholderNamesIn : List Ty → List String
  | [] => []
  | t :: ts => t.placeholderNames ++ Ty.placeholderNamesIn ts

end

namespace Ty

/-- Every member is `nil`. -/
def isNil (t : Ty) : Bool :=
  t.members.all Member.isNil

def isVoid (t : Ty) : Bool :=
  t.members.all Member.isVoid

def isDuck (t : Ty) : Bool :=
  t.members.all Member.isDuck

/-- The type of the receiver and nothing else. -/
def isSelf (t : Ty) : Bool :=
  t.rest.isEmpty && t.first.isSelf

/-- One member with parameters in fixed positions. -/
def isTuple (t : Ty) : Bool :=
  t.rest.isEmpty && t.first.isTuple

def mayBeNil (t : Ty) : Bool :=
  t.members.any Member.isNil

/-- A placeholder stands somewhere in the type. -/
def isGeneric (t : Ty) : Bool :=
  t.anyMember Member.isPlaceholder

/-- `self` stands somewhere in the type. -/
def mentionsSelf (t : Ty) : Bool :=
  t.anyMember Member.isSelf

/-- Names of the placeholders in a type, each once. -/
def freeGenerics (t : Ty) : List String :=
  distinctOn id t.placeholderNames

def space (t : Ty) : String :=
  t.first.space

def scope (t : Ty) : Scope :=
  t.first.scope

/-- The members other than `nil`; nothing is known when there are no others. -/
def nonNil (t : Ty) : Ty :=
  t.select (!·.isNil)

end Ty

end DuckInfer
