import DuckInfer.Infer.Problem

/-!
Questions about a store, and their answers as text. An answer has one line for each declaration or
namespace that it names, and further lines for the signatures of a method.
-/

namespace DuckInfer

/-- A question about a store. -/
inductive Question where
  /-- the declarations of a path -/
  | pins (path : String)
  /-- where a namespace looks for its methods, nearest first -/
  | ancestors (space : String) (scope : Scope)
  /-- the methods of a namespace and of its ancestors -/
  | methods (space : String) (scope : Scope)
  /-- the constants inside a namespace -/
  | constants (space : String)
  /-- what a constant name means in some gates; without gates, at the top level -/
  | resolve (name : String) (gates : List String)
  /-- a call whose receiver and arguments are given by their types, maybe with `&:symbol` as
  block -/
  | call (receiver method : String) (arguments : List String) (blockSymbol : Option String)

/-- Why a question has no answer. -/
inductive QuestionError where
  /-- an operand of a call is no type -/
  | badType (text : String)

namespace Question

/-- One declaration with its type or its signatures. -/
def pinText (pin : Pin) : String :=
  if pin.isMethod then
    if pin.signatures.isEmpty then pin.summary ++ " -> " ++ pin.returnTy.tag
    else pin.summary ++ String.join (pin.signatures.map fun s => "\n    " ++ s.text)
  else if pin.returnTy.isUndefined then pin.summary
  else pin.summary ++ ": " ++ pin.returnTy.tag

/-- Several declarations, each on lines of its own. -/
def pinsText (pins : List Pin) : String :=
  "\n".intercalate (pins.map pinText)

/-- An ancestor with the types that its generics are bound to. -/
def frameText (frame : Frame) : String :=
  frame.path ++ " (" ++ frame.scope.text ++ ")" ++
    String.join (frame.bindings.entries.map fun (name, t) => " " ++ name ++ "=" ++ t.tag)

/-- What a name was resolved to. -/
def targetText : Option String → String
  | some path => if path.isEmpty then "(root)" else path
  | none => "(unresolved)"

/-- The chain of a call whose operands are values of these types. -/
def callChain (receiver : Ty) (method : String) (arguments : List Ty)
    (blockSymbol : Option String) : Chain :=
  let operands := arguments.map Chain.literal ++
    blockSymbol.toList.map fun symbol => Chain.ofLinks [.blockSymbol symbol]
  (Chain.literal receiver).push (.call (.make method none operands none))

/-- The signatures of a method that a call may refer to. -/
def candidateText (pin : Pin) : String :=
  String.join (pin.signatures.map fun s => "\n" ++ pin.path ++ ": " ++ s.text)

/-- Reads the type of an operand. -/
def operand (text : String) : Except QuestionError Ty :=
  match Ty.ofTag? text with
  | some t => .ok t
  | none => .error (.badType text)

variable {m : Type → Type} [Monad m] [ConstantLookup m]

/-- The type of a chain at the top level, what its last link may refer to, and what is wrong with
it. -/
def chainText (r : Analyzer) (chain : Chain) : m String := do
  let t ← r.infer chain .root []
  let pins ← r.candidates chain .root []
  let problems ← r.check chain .root []
  return "type: " ++ t.tag ++ String.join (pins.map candidateText) ++
    String.join (problems.map fun p => "\nproblem: " ++ p.message)

def answer (r : Analyzer) : Question → m (Except QuestionError String)
  | .pins path => return .ok (pinsText (r.store.pinsAt path))
  | .ancestors space scope => do
    let frames ← r.store.ancestors space scope
    return .ok ("\n".intercalate (frames.map frameText))
  | .methods space scope => do
    let pins ← r.store.nearestMethods space scope
    return .ok (pinsText pins)
  | .constants space => do
    let pins ← r.store.visibleConstants space
    return .ok (pinsText pins)
  | .resolve name gates => do
    let target ← r.store.lookup name (if gates.isEmpty then [""] else gates)
    return .ok (targetText target)
  | .call receiver method arguments blockSymbol =>
    match operand receiver, arguments.mapM operand with
    | .ok receiver, .ok arguments =>
      Except.ok <$> chainText r (callChain receiver method arguments blockSymbol)
    | .error e, _ => return .error e
    | .ok _, .error e => return .error e

end Question

end DuckInfer
