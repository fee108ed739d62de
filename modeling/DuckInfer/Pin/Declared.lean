import DuckInfer.Pin.Basic

/-!
The type that a pin evaluates to without a look at other declarations, from its signatures, its
annotation or its documentation; and the written forms of a pin.
-/

namespace DuckInfer.Pin

def doc (pin : Pin) : Doc.DocComment :=
  .ofText pin.comments

/-- The type of a parameter that has no annotation: documented at the method around it, else found
in the first signature of that method. -/
def paramTyFromClosure (pin : Pin) : Ty :=
  match pin.closure.filter isMethod with
  | none => .undefined
  | some method =>
    let documented := method.doc.paramTy pin.name
    if documented.isUndefined then
      match method.signatures.head?.bind fun s => s.params.find? (·.name == pin.name) with
      | some p => p.ty
      | none => .undefined
    else documented

/-- The documented type of a variable: from the first `type` tag, else from the `return` tags. -/
def documentedTy (pin : Pin) : Ty :=
  match (pin.doc.tagsOf "type").head? with
  | some tag => tag.ty
  | none => pin.doc.returnTy

/-- The type that the declaration states; nothing is known when it has to be inferred. -/
def declaredTy (pin : Pin) : Ty :=
  match pin.kind with
  | .space _ _ => pin.context
  | .method _ _ signatures =>
    let returned := Ty.unionAll (signatures.map Signature.returns)
    if returned.isUndefined then pin.doc.returnTy else returned
  | .parameter _ _ ty _ => ty.getD pin.paramTyFromClosure
  | .variable _ data => data.ty.getD pin.documentedTy
  | .constant data => data.ty.getD pin.documentedTy
  | .keyword | .reference _ _ | .proxy | .block _ _ => .undefined

/-- The type that the pin evaluates to, without inference. -/
def returnTy (pin : Pin) : Ty :=
  pin.proxyTy.getD pin.declaredTy

/-- The type that a reference names, with the generic values of the reference as parameters. -/
def referencedTy? (pin : Pin) : Option Member :=
  match pin.kind with
  | .reference _ values =>
    let base := (Ty.ofTag pin.name).first
    if values.isEmpty then some base
    else some (.make base.name base.isAbsolute base.kind [] values)
  | _ => none

/-- The scopes in which the name of a reference is looked up. A superclass is not looked up in the
class that it is the superclass of. -/
def targetGates (pin : Pin) : List String :=
  match pin.closure with
  | none => [""]
  | some closure =>
    if pin.edgeKind? == some .superclass then closure.gates.filter (· != closure.path)
    else closure.gates

def templates (pin : Pin) : List Doc.Directive :=
  pin.doc.templates.filter fun d => !(Text.trim d.body.toList).isEmpty

/-- The names of the templates that the documentation applies without defining them. -/
def templateReferences (pin : Pin) : List String :=
  (pin.doc.templates.filter fun d => (Text.trim d.body.toList).isEmpty).filterMap (·.firstWord?)

/-! ### Written forms -/

/-- The word for what is declared. -/
def kindText (pin : Pin) : String :=
  match pin.kind with
  | .space _ _ => "namespace"
  | .method _ _ _ => "method"
  | .variable .localVar _ => "local"
  | .variable .globalVar _ => "global"
  | .variable .instanceVar _ => "ivar"
  | .variable .classVar _ => "cvar"
  | .constant _ => "constant"
  | .parameter _ _ _ _ => "parameter"
  | .keyword => "keyword"
  | .reference _ _ => "reference"
  | .proxy => "proxy"
  | .block _ _ => "block"

/-- What is declared, under which path, and the type put in its place. -/
def summary (pin : Pin) : String :=
  pin.kindText ++ "(" ++ pin.path ++
    (match pin.proxyTy with
      | some t => " => " ++ t.tag
      | none => "") ++ ")"

/-- The path of a pin with its overloads or its type. -/
def text (pin : Pin) : String :=
  match pin.kind with
  | .method _ _ signatures => pin.path ++ " " ++ " | ".intercalate (signatures.map Signature.text)
  | _ => pin.path ++ " " ++ pin.returnTy.tag

end DuckInfer.Pin
