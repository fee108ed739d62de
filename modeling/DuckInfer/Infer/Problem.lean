import DuckInfer.Infer.Analyzer
import DuckInfer.Text.EditDistance

/-!
Problems with a chain. A chain is followed link by link, and the first link that refers to nothing,
or whose arguments do not fit, is reported; the links behind it have no receiver to be checked
against.
-/

namespace DuckInfer

/-- What is wrong with a link. -/
inductive ProblemKind where
  | unresolvedConstant (name : String) (suggestion : Option String)
  | unresolvedMethod (word : String) (receiver : Ty) (suggestion : Option String)
  | arityMismatch (word : String) (given : Nat) (expected : String)
  | argumentType (word : String) (mismatch : WrongArgument)

/-- What is wrong, and where. -/
structure Problem where
  location : Option Location
  kind : ProblemKind

/-- The suggestion in a message. -/
def suggestionText : Option String → String
  | some name => ", did you mean `" ++ name ++ "`?"
  | none => ""

/-- The message about what is wrong. -/
def ProblemKind.message : ProblemKind → String
  | .unresolvedConstant name suggestion =>
    "unresolved constant `" ++ name ++ "`" ++ suggestionText suggestion
  | .unresolvedMethod word receiver suggestion =>
    "undefined method `" ++ word ++ "` for `" ++ receiver.tag ++ "`" ++ suggestionText suggestion
  | .arityMismatch word given expected =>
    "wrong number of arguments to `" ++ word ++ "` (given " ++ toString given ++ ", expected " ++
      expected ++ ")"
  | .argumentType word mismatch =>
    "argument " ++ toString (mismatch.index + 1) ++ " to `" ++ word ++ "` expected `" ++
      mismatch.expected.tag ++ "`, got `" ++ mismatch.actual.tag ++ "`"

/-- The message with its location. -/
def Problem.message (p : Problem) : String :=
  match p.location with
  | some location => location.text ++ ": " ++ p.kind.message
  | none => p.kind.message

namespace Problem

/-- The numbers of arguments that a signature takes: `1`, `1..2` or `1+`. -/
def arityText (s : Signature) : String :=
  if s.isVariadic then toString s.minArgs ++ "+"
  else if s.extraArgs == 0 then toString s.minArgs
  else toString s.minArgs ++ ".." ++ toString (s.minArgs + s.extraArgs)

/-- The numbers of arguments that methods take, each once. -/
def aritiesText (pins : List Pin) : String :=
  " or ".intercalate (distinctOn id ((pins.flatMap Pin.signatures).map arityText))

/-- The last segment of a path. -/
def lastSegment (path : String) : String :=
  match Path.splitLast? path with
  | some (_, last) => last
  | none => path

/-- The names of the constants in some gates, each once. -/
def knownConstants (store : Store) (gates : List String) : List String :=
  distinctOn id ((gates.flatMap store.constantsOf).map Pin.name)

def ofConstant (store : Store) (name : String) (cx : LinkSite) : ProblemKind :=
  .unresolvedConstant name
    (suggest? (lastSegment name) (knownConstants store cx.lexical.gates))

/-- The method did fit a call. -/
def isMatch : OverloadOutcome → Bool
  | .matched _ => true
  | _ => false

/-- The wrong argument of a call. -/
def mismatchOf? : OverloadOutcome → Option WrongArgument
  | .argument mismatch => some mismatch
  | _ => none

/-- What is wrong with the arguments of a call, if it fits none of the methods. -/
def ofOutcomes (word : String) (given : Nat) (pins : List Pin) (outcomes : List OverloadOutcome) :
    Option ProblemKind :=
  if outcomes.isEmpty || outcomes.any isMatch then none
  else
    match outcomes.findSome? mismatchOf? with
    | some mismatch => some (.argumentType word mismatch)
    | none => some (.arityMismatch word given (aritiesText pins))

/-- Where a problem with a link is reported. -/
def locationOf (link : Link) (chain : Chain) : Option Location :=
  match link with
  | .call c => c.location.or chain.location
  | _ => chain.location

end Problem

namespace Analyzer

variable {m : Type → Type} [Monad m] [ConstantLookup m]

/-- A method that was not found. -/
def unresolvedMethod (r : Analyzer) (word : String) (cx : LinkSite) : m ProblemKind := do
  let receiver := cx.receiver.context
  let known ← r.store.nearestMethods receiver.space receiver.scope
  return .unresolvedMethod word receiver (suggest? word (known.map Pin.name))

/-- What is wrong with the arguments of a call of some methods. -/
def argumentProblem? (r : Analyzer) (c : Call) (cx : LinkSite) (pins : List Pin) :
    m (Option ProblemKind) := do
  let args ← inferAll r.store r.typeOf c.arguments cx.lexical cx.locals
  let outcomes ← (pins.filter Pin.isMethod).mapM fun pin =>
    Overload.select? r.store pin c.passesBlock args
  return Problem.ofOutcomes c.word args.length pins (outcomes.filterMap id)

/-- What is wrong with a link, given what it may refer to. -/
def problemWith? (r : Analyzer) (link : Link) (cx : LinkSite) (pins : List Pin) :
    m (Option ProblemKind) :=
  match link with
  | .constant name =>
    if !name.isEmpty && pins.isEmpty then return some (Problem.ofConstant r.store name cx)
    else return none
  | .call c =>
    if c.word == "super" || c.word == "yield" then return none
    else if pins.isEmpty then some <$> r.unresolvedMethod c.word cx
    else r.argumentProblem? c cx pins
  | _ => return none

/-- The first problem with some links of a chain. -/
def problemAlong? (r : Analyzer) (chain : Chain) : List Link → LinkSite → m (Option Problem)
  | [], _ => return none
  | link :: links, cx => do
    let pins ← linkCandidates r.store r.typeOf link cx
    match ← r.problemWith? link cx pins with
    | some kind => return some ⟨Problem.locationOf link chain, kind⟩
    | none =>
      let t ← receiverTy r.typeOf chain.nullable pins cx.locals
      if t.isUndefined then return none
      else
        r.problemAlong? chain links { cx with receiver := .valueIn cx.lexical t, head := false }

/-- The problem with a chain, if there is one. A chain without meaning has none. -/
def check (r : Analyzer) (chain : Chain) (lexical : Pin) (locals : List Pin) :
    m (List Problem) := do
  if chain.isUndefined then return []
  else
    let position := chain.location.map fun l => l.range.start
    let problem ← r.problemAlong? chain chain.links ⟨lexical, lexical, locals, position, true⟩
    return problem.toList

end Analyzer

end DuckInfer
