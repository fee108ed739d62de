import DuckInfer.Doc.Comment
import DuckInfer.Signature
import DuckInfer.Source.Chain
import DuckInfer.Text.Path

/-!
Pins: a pin is one declaration, such as a namespace, a method, a variable, or an edge between two
namespaces. Every pin but the outermost ones holds the declaration around it, its closure; the
chain of closures gives the namespace of a pin and its gates, the scopes in which relative constant
names are looked up.
-/

namespace DuckInfer

/-- Who may call a method. -/
inductive Visibility where
  /-- every caller: a public method -/
  | everyone
  /-- callers of the same class: a protected method -/
  | relatives
  /-- the receiver itself: a private method -/
  | receiver
  deriving DecidableEq, Repr

/-- The relation between a namespace and another declaration that a reference pin states. -/
inductive EdgeKind where
  | superclass
  | includes
  | prepends
  | extends
  /-- other documentation for the method with this path -/
  | overrides
  deriving DecidableEq, Repr

def EdgeKind.text : EdgeKind → String
  | .superclass => "superclass"
  | .includes => "include"
  | .prepends => "prepend"
  | .extends => "extend"
  | .overrides => "override"

/-- What is known about a variable or a constant. -/
structure VariableData where
  ty : Option Ty
  assignment : Option Chain
  /-- where the declaration governs the name -/
  extent : Option Range
  /-- derived from the flow of control and not just declared -/
  derived : Bool
  deriving BEq

/-- Nothing is known about the variable but possibly its type. -/
def VariableData.ofTy (ty : Option Ty) : VariableData :=
  ⟨ty, none, none, false⟩

/-- What is declared. -/
inductive PinKind where
  /-- a class or module with its generic names -/
  | space (isModule : Bool) (generics : List String)
  | method (scope : Scope) (visibility : Visibility) (signatures : List Signature)
  | variable (kind : VariableKind) (data : VariableData)
  | constant (data : VariableData)
  | parameter (form : ParamForm) (index : Nat) (ty : Option Ty) (extent : Option Range)
  | keyword
  | reference (edge : EdgeKind) (values : List Ty)
  /-- a value of some type -/
  | proxy
  /-- a block with the call that it is passed to and an explicit `self` -/
  | block (receiver : Option Chain) (binder : Option Ty)
  deriving BEq

/-- A declaration. -/
structure Pin where
  name : String
  closure : Option Pin
  location : Option Location
  comments : String
  kind : PinKind
  /-- the type that the pin evaluates to, whatever is declared -/
  proxyTy : Option Ty

namespace Pin

/-! ### Construction -/

/-- A pin without location and comments. -/
def make (name : String) (closure : Option Pin) (kind : PinKind) : Pin :=
  ⟨name, closure, none, "", kind, none⟩

def root : Pin :=
  make "" none (.space false [])

def keyword (name : String) : Pin :=
  make name none .keyword

/-- A value of a type. -/
def value (t : Ty) : Pin :=
  { make "" none .proxy with proxyTy := some t }

/-- A value of a type, within a declaration. -/
def valueIn (closure : Pin) (t : Ty) : Pin :=
  { make "" (some closure) .proxy with proxyTy := some t }

/-- A parameter of a declaration, which governs its name there. -/
def parameterOf (closure : Pin) (name : String) (form : ParamForm) (index : Nat) (ty : Option Ty) :
    Pin :=
  make name (some closure) (.parameter form index ty (closure.location.map Location.range))

def edge (closure : Pin) (kind : EdgeKind) (name : String) (values : List Ty) : Pin :=
  make name (some closure) (.reference kind values)

/-- The same declaration, evaluating to a type. -/
def proxied (pin : Pin) (t : Ty) : Pin :=
  { pin with proxyTy := some t }

/-- A local that shadows a variable in a range and has a type derived from the flow of control. -/
def narrowed (pin : Pin) (t : Ty) (extent : Range) : Pin :=
  { pin with
    kind := .variable .localVar ⟨some t, none, some extent, true⟩
    proxyTy := none }

/-- A method reduced to other signatures. -/
def withOverloads (pin : Pin) (signatures : List Signature) : Pin :=
  match pin.kind with
  | .method scope visibility _ => { pin with kind := .method scope visibility signatures }
  | _ => pin

/-- A variable or constant with an assigned expression. -/
def assigning (pin : Pin) (chain : Chain) : Pin :=
  match pin.kind with
  | .variable kind data =>
    { pin with kind := .variable kind { data with assignment := some chain } }
  | .constant data => { pin with kind := .constant { data with assignment := some chain } }
  | _ => pin

/-! ### Paths and scopes -/

/-- The path of a namespace inside another one; a name with `::` in front is absolute. -/
def spacePath (outer name : String) : String :=
  (Path.stripRoot? name).getD (Path.join outer name)

/-- The namespace that a pin lives in; for a namespace, its own path. -/
def space : Pin → String
  | ⟨name, closure, _, _, kind, _⟩ =>
    let outer := match closure with
      | none => ""
      | some c => c.space
    match kind with
    | .space _ _ => spacePath outer name
    | _ => outer
termination_by structural p => p

/-- The path of a pin, by which it is found. -/
def path : Pin → String
  | ⟨name, closure, _, _, kind, _⟩ =>
    let outer := match closure with
      | none => ""
      | some c => c.path
    let space := match closure with
      | none => ""
      | some c => c.space
    match kind with
    | .space _ _ => spacePath space name
    | .method .instanceLevel _ _ => space ++ "#" ++ name
    | .method .classLevel _ _ => space ++ "." ++ name
    | .constant _ => Path.join space name
    | .variable .classVar _ => Path.join space name
    | .variable .instanceVar _ => space ++ "#" ++ name
    | .variable .globalVar _ => name
    | .variable .localVar _ => outer ++ "|" ++ name
    | .parameter _ _ _ _ => outer ++ "|" ++ name
    | .keyword => name
    | .block _ _ => outer ++ "|<block>"
    | .reference edge _ => outer ++ "<" ++ edge.text ++ ":" ++ name ++ ">"
    | .proxy => ""
termination_by structural p => p

/-- The scopes of relative constant names, innermost first, down to the root `""`. -/
def gates : Pin → List String
  | ⟨name, closure, _, _, kind, _⟩ =>
    match kind, closure with
    | .space _ _, some c => spacePath c.space name :: c.gates
    | .space _ _, none =>
      let path := spacePath "" name
      if path.isEmpty then [""] else [path, ""]
    | _, some c => c.gates
    | _, none => [""]
termination_by structural p => p

/-- The type of `self` in a declaration. -/
def context : Pin → Ty
  | ⟨name, closure, _, _, kind, proxyTy⟩ =>
    let space := match closure with
      | none => ""
      | some c => c.space
    let outer := match closure with
      | none => Ty.absolute "Object"
      | some c => c.context
    match kind with
    | .space isModule _ =>
      let path := spacePath space name
      if path.isEmpty then .absolute "Object"
      else .single (.list (if isModule then "Module" else "Class") [.absolute path])
    | .method scope _ _ =>
      let value := if space.isEmpty then Ty.absolute "Object" else .absolute space
      match scope, closure with
      | .instanceLevel, _ => value
      | .classLevel, some _ => outer
      | .classLevel, none => value.toClassLevel
    | .block _ (some binder) => binder
    | .proxy => proxyTy.getD outer
    | _ => outer
termination_by structural p => p

def isMethod (pin : Pin) : Bool :=
  match pin.kind with
  | .method _ _ _ => true
  | _ => false

/-- The nearest method around a pin, the pin included. -/
def methodAround? : Pin → Option Pin
  | ⟨name, closure, location, comments, kind, proxyTy⟩ =>
    let self : Pin := ⟨name, closure, location, comments, kind, proxyTy⟩
    if self.isMethod then some self
    else match closure with
      | none => none
      | some c => c.methodAround?
termination_by structural p => p

/-! ### What is declared -/

/-- The pin is a class or module. -/
def isSpace (pin : Pin) : Bool :=
  match pin.kind with
  | .space _ _ => true
  | _ => false

/-- The pin is a constant with a value. -/
def isConstant (pin : Pin) : Bool :=
  match pin.kind with
  | .constant _ => true
  | _ => false

def isBlock (pin : Pin) : Bool :=
  match pin.kind with
  | .block _ _ => true
  | _ => false

/-- The pin is a local variable or a parameter, which the flow of control can narrow. -/
def isLocal (pin : Pin) : Bool :=
  match pin.kind with
  | .variable .localVar _ => true
  | .parameter _ _ _ _ => true
  | _ => false

def generics (pin : Pin) : List String :=
  match pin.kind with
  | .space _ generics => generics
  | _ => []

/-- The scope of a method. -/
def methodLevel? (pin : Pin) : Option Scope :=
  match pin.kind with
  | .method scope _ _ => some scope
  | _ => none

/-- The overloads of a method. -/
def signatures (pin : Pin) : List Signature :=
  match pin.kind with
  | .method _ _ signatures => signatures
  | _ => []

def edgeKind? (pin : Pin) : Option EdgeKind :=
  match pin.kind with
  | .reference edge _ => some edge
  | _ => none

/-- What is known about a variable or constant. -/
def data? (pin : Pin) : Option VariableData :=
  match pin.kind with
  | .variable _ data => some data
  | .constant data => some data
  | _ => none

/-- Where a variable governs its name. -/
def extent? (pin : Pin) : Option Range :=
  match pin.kind with
  | .parameter _ _ _ extent => extent
  | _ => pin.data?.bind (·.extent)

def isDerived (pin : Pin) : Bool :=
  match pin.data? with
  | some data => data.derived
  | none => false

/-- The variable governs its name at a position; without a range it does so everywhere. -/
def governsAt (pin : Pin) (p : Position) : Bool :=
  match pin.extent? with
  | some range => range.contains p
  | none => true

def assignment? (pin : Pin) : Option Chain :=
  pin.data?.bind (·.assignment)

/-- Pins are the same if they declare the same at the same place under the same path, and evaluate
to the same. -/
instance : BEq Pin :=
  ⟨fun a b =>
    a.path == b.path && a.kind == b.kind && a.location == b.location && a.proxyTy == b.proxyTy⟩

end Pin

end DuckInfer
