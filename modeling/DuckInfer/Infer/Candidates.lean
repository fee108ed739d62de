import DuckInfer.Infer.CallSite
import DuckInfer.Infer.Containers

/-!
Resolving chains, link by link. Every link but the last is reduced to the union of the types of what
it may refer to, which receives the next link. What the last link may refer to is the answer.

The type of a variable without annotation comes from other chains: its assignment, or the call that
a block is passed to. Following one of those takes one step of a budget, and in between chains only
get smaller, so that resolution ends for every input.
-/

namespace DuckInfer

/-- How chains are resolved. -/
structure Engine (m : Type → Type) where
  /-- what a chain may refer to, written in a declaration with some locals -/
  candidates : Chain → Pin → List Pin → m (List Pin)
  infer : Chain → Pin → List Pin → m Ty

section

variable {m : Type → Type} [Monad m] [ConstantLookup m]

/-! ### Types of pins -/

/-- The type of a block's parameter, from the block signatures of the methods that the block is
passed to. -/
def blockParamTy (store : Store) (engine : Engine m) (block : Pin) (index : Nat)
    (locals : List Pin) : m Ty :=
  match block.kind with
  | .block (some receiver) _ => do
    let methods ← engine.candidates receiver (block.closure.getD .root) locals
    let tys ← methods.mapM fun method =>
      match method.signatures.head? with
      | some signature => store.qualify method.gates (signature.blockParamTy index)
      | none => return .undefined
    return .unionAll (tys.filter (!·.isUndefined))
  | _ => return .undefined

/-- The type that a pin evaluates to: the stated one, else one found by following its assignment or
its block with the engine, if the budget leaves one. -/
def typeOfWith (store : Store) (engine : Option (Engine m)) (pin : Pin) (locals : List Pin) :
    m Ty :=
  let declared := pin.returnTy
  if declared.isUndefined then
    match engine with
    | none => return .undefined
    | some engine =>
      match pin.assignment?, pin.kind, pin.closure with
      | some chain, _, closure => engine.infer chain (closure.getD .root) locals
      | none, .parameter _ index _ _, some block => blockParamTy store engine block index locals
      | _, _, _ => return .undefined
  else store.qualify pin.gates declared

/-- The union of what several pins evaluate to. -/
def unionOfPins (typeOf : Pin → List Pin → m Ty) (pins locals : List Pin) : m Ty := do
  let tys ← pins.mapM fun pin => typeOf pin locals
  return .unionAll (tys.filter (!·.isUndefined))

/-! ### Links without inner chains -/

/-- What a constant may refer to. Without a link before, it is looked up in the scopes around the
expression, else in the namespace of the value before. -/
def constantCandidates (store : Store) (name : String) (cx : LinkSite) : m (List Pin) :=
  if name.isEmpty then
    match store.pinsAt "" with
    | [] => return [.root]
    | roots => return roots
  else do
    let gates := if cx.head then cx.lexical.gates else [cx.receiver.context.space]
    match ← store.lookup name gates with
    | some path => return store.pinsAt path
    | none => return []

/-- The pin declares a variable of a kind. -/
def isVariableOf (kind : VariableKind) (pin : Pin) : Bool :=
  match pin.kind with
  | .variable k _ => k == kind
  | .parameter _ _ _ _ => kind == .localVar
  | _ => false

/-- The path under which a variable is declared. -/
def variablePath (kind : VariableKind) (name space : String) : String :=
  match kind with
  | .instanceVar => space ++ "#" ++ name
  | .classVar => Path.join space name
  | .localVar | .globalVar => name

/-- What a variable may refer to: a visible one, else the declarations in the store. -/
def variableCandidates (store : Store) (kind : VariableKind) (name : String) (cx : LinkSite) :
    List Pin :=
  match governingPins cx.locals name cx.lexical cx.position with
  | [] => (store.pinsAt (variablePath kind name cx.lexical.space)).filter (isVariableOf kind)
  | locals => locals

/-- The type of the links so far, as the receiver of the next one. Only a value other than `nil`
receives messages of a nullable chain. -/
def receiverTy (typeOf : Pin → List Pin → m Ty) (nullable : Bool) (pins locals : List Pin) :
    m Ty := do
  let t ← unionOfPins typeOf pins locals
  return if nullable then t.nonNil else t

/-- The type of a chain, given what it may refer to. A nullable chain may also be `nil`. -/
def chainTy (typeOf : Pin → List Pin → m Ty) (nullable : Bool) (pins locals : List Pin) : m Ty := do
  let t ← unionOfPins typeOf pins locals
  return if nullable && !t.isUndefined then t.union .nil else t

/-! ### Chains -/

mutual

/-- What a chain may refer to. -/
def candidatesWith (store : Store) (typeOf : Pin → List Pin → m Ty) :
    Chain → Pin → List Pin → m (List Pin)
  | ⟨links, location, nullable⟩, lexical, locals =>
    if links.any Chain.isUnknownLink then return []
    else
      let position := location.map fun l => l.range.start
      linksCandidates store typeOf nullable links ⟨lexical, lexical, locals, position, true⟩

/-- What the last of several links may refer to. -/
def linksCandidates (store : Store) (typeOf : Pin → List Pin → m Ty) (nullable : Bool) :
    List Link → LinkSite → m (List Pin)
  | [], _ => return []
  | [link], cx => linkCandidates store typeOf link cx
  | link :: next :: rest, cx => do
    let pins ← linkCandidates store typeOf link cx
    let t ← receiverTy typeOf nullable pins cx.locals
    if t.isUndefined then return []
    else
      linksCandidates store typeOf nullable (next :: rest)
        { cx with receiver := .valueIn cx.lexical t, head := false }

/-- What a link may refer to. -/
def linkCandidates (store : Store) (typeOf : Pin → List Pin → m Ty) : Link → LinkSite → m (List Pin)
  | .constant name, cx => constantCandidates store name cx
  | .call c, cx => callCandidates store typeOf c cx
  | .array items, cx => do
    let tys ← inferAll store typeOf items cx.lexical cx.locals
    return [.value (arrayTy tys)]
  | .hash entries, cx => do
    let tys ← inferEntries store typeOf entries cx.lexical cx.locals
    return [.value (hashTy (tys.map Prod.fst) (tys.map Prod.snd))]
  | .literal t, _ => return [.value t]
  | .blockSymbol _, _ => return [.value (.absolute "Proc")]
  | .receiver, cx => return [.valueIn cx.lexical cx.receiver.context]
  | .variable kind name, cx => return variableCandidates store kind name cx
  | .unknown, _ => return []

/-- What a call may refer to. -/
def callCandidates (store : Store) (typeOf : Pin → List Pin → m Ty) : Call → LinkSite → m (List Pin)
  | ⟨word, location, arguments, block⟩, cx =>
    CallSite.resolve
      { word, location
        argTys := inferAll store typeOf arguments cx.lexical cx.locals
        withBlock := block.isSome
        blockSymbol := Call.passedSymbol? ⟨word, location, arguments, block⟩
        blockLocation := block.bind Chain.location
        blockTy := fun scope => inferBlock store typeOf block scope cx.locals }
      store cx

/-- The type of the value of a block. -/
def inferBlock (store : Store) (typeOf : Pin → List Pin → m Ty) :
    Option Chain → Pin → List Pin → m Ty
  | none, _, _ => return .undefined
  | some chain, lexical, locals => do
    let pins ← candidatesWith store typeOf chain lexical locals
    chainTy typeOf chain.nullable pins locals

/-- The types of several chains, with literals widened to their classes. -/
def inferAll (store : Store) (typeOf : Pin → List Pin → m Ty) :
    List Chain → Pin → List Pin → m (List Ty)
  | [], _, _ => return []
  | chain :: chains, lexical, locals => do
    let pins ← candidatesWith store typeOf chain lexical locals
    let t ← chainTy typeOf chain.nullable pins locals
    let ts ← inferAll store typeOf chains lexical locals
    return t.widenLiterals :: ts

/-- The types of the key and the value of an entry, with literals widened to their classes. -/
def inferEntry (store : Store) (typeOf : Pin → List Pin → m Ty) :
    ChainPair → Pin → List Pin → m (Ty × Ty)
  | ⟨key, value⟩, lexical, locals => do
    let keyPins ← candidatesWith store typeOf key lexical locals
    let k ← chainTy typeOf key.nullable keyPins locals
    let valuePins ← candidatesWith store typeOf value lexical locals
    let v ← chainTy typeOf value.nullable valuePins locals
    return (k.widenLiterals, v.widenLiterals)

/-- The types of the entries of a hash literal. -/
def inferEntries (store : Store) (typeOf : Pin → List Pin → m Ty) :
    List ChainPair → Pin → List Pin → m (List (Ty × Ty))
  | [], _, _ => return []
  | entry :: entries, lexical, locals => do
    let t ← inferEntry store typeOf entry lexical locals
    let ts ← inferEntries store typeOf entries lexical locals
    return t :: ts

end

/-- The type of a chain. -/
def inferWith (store : Store) (typeOf : Pin → List Pin → m Ty) (chain : Chain) (lexical : Pin)
    (locals : List Pin) : m Ty := do
  let pins ← candidatesWith store typeOf chain lexical locals
  chainTy typeOf chain.nullable pins locals

end

end DuckInfer
