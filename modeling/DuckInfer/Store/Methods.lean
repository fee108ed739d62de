import DuckInfer.Store.Ancestors

/-!
The methods that a receiver has, in the order of the ancestor search. A method found in a frame is
returned with overriding documentation applied and with the generics of its namespace bound; the pin
in the store stays as it is.
-/

namespace DuckInfer.Store

/-- The return type that overriding documentation states. -/
def overridingTy (pin : Pin) : Ty :=
  match pin.kind with
  | .reference _ (value :: values) => .unionAll (value :: values)
  | _ => pin.doc.returnTy

/-- A method with another return type. -/
def withReturnTy (pin : Pin) (t : Ty) : Pin :=
  pin.withOverloads
    (if pin.signatures.isEmpty then [.returning t]
    else pin.signatures.map fun s => { s with returns := t })

/-- A method with its last overriding documentation applied. -/
def withOverrides (store : Store) (pin : Pin) : Pin :=
  match (store.overrides pin.path).getLast? with
  | none => pin
  | some override =>
    let t := overridingTy override
    if t.isUndefined then pin else withReturnTy pin t

/-- A method with generics replaced by what they are bound to. -/
def bindGenerics (b : Bindings) (pin : Pin) : Pin :=
  if b.isEmpty then pin
  else if pin.signatures.isEmpty then
    if pin.returnTy.isGeneric then pin.proxied (pin.returnTy.substitute b) else pin
  else pin.withOverloads (pin.signatures.map fun s => s.substitute b)

/-- A method as it is seen from a frame. -/
def seenFrom (store : Store) (b : Bindings) (pin : Pin) : Pin :=
  bindGenerics b (store.withOverrides pin)

/-- The methods of a name that a frame contributes. -/
def frameMethods (store : Store) (name : String) (frame : Frame) : List Pin :=
  ((store.methodsOf frame.path frame.scope).filter (·.name == name)).map
    (store.seenFrom frame.bindings)

variable {m : Type → Type} [Monad m] [ConstantLookup m]

/-- The methods of a name that a receiver has, nearest first. -/
def methodsNamed (store : Store) (receiver : Member) (name : String) : m (List Pin) := do
  let frames ← store.receiverAncestors receiver
  return frames.flatMap (store.frameMethods name)

/-- The nearest method of each name that a namespace has. -/
def nearestMethods (store : Store) (space : String) (scope : Scope) : m (List Pin) := do
  let frames ← store.ancestors space scope
  return distinctOn Pin.name (frames.flatMap fun frame => store.methodsOf frame.path frame.scope)

end DuckInfer.Store
