import DuckInfer.Infer.Overload
import DuckInfer.Infer.Template
import DuckInfer.Infer.Governing

/-!
Resolving one call. A bare word is a variable if one of that name is visible. Otherwise each member
of the receiver's type contributes its methods of that name, and each method is reduced to the first
fitting overload from which a type results.

The types of the arguments and of the block are given as effects, which run only when they are
needed.
-/

namespace DuckInfer

/-- Where a link is resolved. -/
structure LinkSite where
  /-- evaluates to the value of the links before -/
  receiver : Pin
  /-- the declaration that the expression is written in -/
  lexical : Pin
  locals : List Pin
  position : Option Position
  /-- no link stands before -/
  head : Bool

/-- A call with the effects that find out the types of its parts. -/
structure CallSite (m : Type → Type) where
  word : String
  location : Option Location
  argTys : m (List Ty)
  withBlock : Bool
  blockSymbol : Option String
  blockLocation : Option Location
  /-- the type of the block's value, if the block is written in a declaration -/
  blockTy : Pin → m Ty

namespace CallSite

variable {m : Type → Type} [Monad m] [ConstantLookup m]

/-- The pin lies around a location. -/
def surrounds (location : Location) (pin : Pin) : Bool :=
  match pin.location with
  | some l => l.contains location
  | none => false

/-- The pin does not start before the other. -/
def startsNotBefore (a b : Pin) : Bool :=
  match a.location, b.location with
  | some la, some lb => decide (lb.range.start ≤ la.range.start)
  | none, some _ => false
  | _, none => true

/-- The pin that starts last; of those that start together, the last one. -/
def latest? : List Pin → Option Pin
  | [] => none
  | pin :: pins =>
    match latest? pins with
    | some later => if startsNotBefore later pin then some later else some pin
    | none => some pin

/-- The innermost block around a location. -/
def blockAround? (store : Store) (location : Option Location) : Option Pin :=
  location.bind fun location => latest? (store.allBlocks.filter (surrounds location))

/-- The receiver that `&:name` sends to: the first value passed to the block, or, while that is not
known, the first parameter of the receiver. -/
def symbolReceiver? (signature : Signature) (context : Ty) : Option Member :=
  let yielded := signature.blockParamTy 0
  if !yielded.isUndefined && !yielded.isGeneric then some yielded.first
  else context.first.subs.head?.map Ty.first

/-- The type of the value of the block `&:name`. -/
def symbolTy (store : Store) (signature : Signature) (name : String) (context : Ty) : m Ty :=
  match symbolReceiver? signature context with
  | none => return .undefined
  | some receiver => do
    let stack ← store.methodsNamed receiver name
    match stack.head? with
    | some method => store.qualify method.gates method.returnTy
    | none => return .undefined

/-- The type of the value of the block, if it is known. -/
def knownBlockTy (site : CallSite m) (store : Store) (cx : LinkSite) (signature : Signature)
    (context : Ty) : m (Option Ty) := do
  if signature.takesBlock && site.withBlock then
    let t ← match site.blockSymbol with
      | some name => symbolTy store signature name context
      | none => do
        let scope := (blockAround? store site.blockLocation).getD cx.lexical
        let t ← site.blockTy scope
        pure t.widenLiterals
    return if t.isUndefined then none else some t
  else return none

/-- The signature of a fitting overload with its generics resolved, and the type of the call. -/
def answer (site : CallSite m) (store : Store) (cx : LinkSite) (context : Ty) (args : List Ty)
    (pin : Pin) (signature : Signature) : m (Signature × Ty) := do
  let blockTy ← site.knownBlockTy store cx signature context
  let (resolved, _) := signature.resolve ⟨some args, none, none, blockTy⟩ .empty
  let t ← store.qualify pin.gates (resolved.returns.selfTo context)
  return (resolved, t)

/-- The answer of the first fitting overload that gives a known type, else of the last fitting one,
else the answer of the overloads before. -/
def answerFrom (site : CallSite m) (store : Store) (cx : LinkSite) (context : Ty)
    (args : List Ty) (pin : Pin) (last : Option (Signature × Ty)) :
    List Signature → m (Option (Signature × Ty))
  | [] => return last
  | signature :: signatures => do
    if signature.accepts args.length site.withBlock then
      match ← Overload.mismatch? store pin signature args with
      | some _ => answerFrom site store cx context args pin last signatures
      | none =>
        let (resolved, t) ← site.answer store cx context args pin signature
        if t.isUndefined then
          answerFrom site store cx context args pin (some (resolved, t)) signatures
        else return some (resolved, t)
    else answerFrom site store cx context args pin last signatures

/-- A method reduced to the overload that answers the call, and the type of the call. -/
def returnTy (site : CallSite m) (store : Store) (cx : LinkSite) (context : Ty) (args : List Ty)
    (pin : Pin) : m (Pin × Ty) := do
  match Overload.ordered pin with
  | [] => return (pin, ← store.qualify pin.gates (pin.returnTy.selfTo context))
  | signatures =>
    match ← site.answerFrom store cx context args pin none signatures with
    | some (resolved, t) => return (pin.withOverloads [resolved], t)
    | none => return (pin, .undefined)

/-- A method evaluating to the type of the call. The method `new` of classes makes an instance of
the receiver. -/
def inferPin (site : CallSite m) (store : Store) (cx : LinkSite) (context : Ty) (args : List Ty)
    (pin : Pin) : m Pin := do
  let (pin, t) ← site.returnTy store cx context args pin
  let t := if t.isUndefined then Template.returnTy store pin args else t
  if pin.path == "Class#new" && context.tag != "Class" then return pin.proxied context.instanceTy
  else return pin.proxied (t.selfTo context)

/-- The methods evaluating to the type of the call on a receiver. -/
def inferPins (site : CallSite m) (store : Store) (cx : LinkSite) (context : Ty) :
    List Pin → m (List Pin)
  | [] => return []
  | pins => do
    let args ← site.argTys
    pins.mapM (site.inferPin store cx context args)

/-- The type whose methods `super` looks at: that of the namespace of a method. -/
def superReceiver (method : Pin) : Ty :=
  let space := method.space
  let value := if space.isEmpty then Ty.absolute "Object" else .absolute space
  match method.methodLevel? with
  | some .classLevel => value.toClassLevel
  | _ => value

/-- `super`: the methods of the enclosing method's name, less the method itself. -/
def superCandidates (site : CallSite m) (store : Store) (cx : LinkSite) : m (List Pin) :=
  match cx.lexical.methodAround? with
  | none => return []
  | some method => do
    let receiver := superReceiver method
    let stack ← store.methodsNamed receiver.first method.name
    site.inferPins store cx receiver (stack.filter (·.path != method.path))

/-- `yield`: what the block signatures of the enclosing method return. -/
def yieldCandidates (store : Store) (cx : LinkSite) : m (List Pin) :=
  match cx.lexical.methodAround? with
  | none => return []
  | some method => do
    let gates := cx.lexical.gates
    (method.signatures.filterMap Signature.block).mapM fun block => do
      return .valueIn cx.lexical (← store.qualify gates block.returns)

/-- The variables that a bare word names. -/
def visibleLocals (site : CallSite m) (cx : LinkSite) : List Pin :=
  if cx.head then
    let own := site.location.map fun l => l.range.start
    governingPins cx.locals site.word cx.lexical (own.or cx.position)
  else []

/-- The methods that each member of the receiver's type contributes. -/
def memberCandidates (site : CallSite m) (store : Store) (cx : LinkSite) (members : List Member) :
    m (List Pin) := do
  let found ← members.mapM fun member => do
    let stack ← store.methodsNamed member site.word
    site.inferPins store cx (.single member) stack
  return found.flatten

/-- What a call may refer to. On classes without any method `new` the call of `new` makes an
instance. -/
def resolve (site : CallSite m) (store : Store) (cx : LinkSite) : m (List Pin) := do
  if site.word == "super" then site.superCandidates store cx
  else if site.word == "yield" then yieldCandidates store cx
  else
    match site.visibleLocals cx with
    | [] =>
      let context := cx.receiver.context
      let found ← site.memberCandidates store cx context.members
      if found.isEmpty && site.word == "new" && context.members.all (·.scope == .classLevel) then
        return [.valueIn cx.lexical context.instanceTy]
      else return found
    | locals => return locals

end CallSite

end DuckInfer
