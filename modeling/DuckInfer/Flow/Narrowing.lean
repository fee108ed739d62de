import DuckInfer.Infer.Analyzer
import DuckInfer.Source.Condition

/-!
Narrowing local variables by the flow of control. A fact that a condition tells about a variable
becomes a shadow of the variable: a pin of the same name with a narrower type, present only where
the fact holds. The variable itself stays, and lookups prefer its shadows.

For `if c then A else B end` inside a loop, what holds when `c` succeeds is placed over `A`, and
over the rest of the loop if `B` leaves the loop; what holds when `c` fails is placed over `B`, and
over the rest of the loop if `A` leaves it. What guards an operand is placed over the operand.
-/

namespace DuckInfer

namespace Flow

/-- The name of a class, or the last segments of its path, spell the member. -/
def isSpelledBy (member path : String) : Bool :=
  member == path || ("::" ++ path).toList.isSuffixOf member.toList

/-- The first local of a name that governs it at a position. -/
def governing? (locals : List Pin) (name : String) (p : Position) : Option Pin :=
  locals.find? fun pin => pin.name == name && pin.governsAt p

/-- The ranges of the facts that hold when a condition succeeds: the branch for that, and the rest
of the loop if the other branch leaves it. -/
def factRanges (loop : Option Range) (range : Range) (branch other : Option Node) : List Range :=
  let rest := match loop with
    | some l => if other.any Node.leavesLoop then [⟨range.stop, l.stop⟩] else []
    | none => []
  rest ++ (branch.map Node.coverage).toList

section

variable {m : Type → Type} [Monad m]

/-- How to find the type of a variable without annotation. -/
abbrev Oracle (m : Type → Type) :=
  Option (Pin → List Pin → m Ty)

/-- The type that a fact narrows. -/
def baseTy (oracle : Oracle m) (locals : List Pin) (pin : Pin) : m Ty :=
  let declared := pin.returnTy
  if declared.isUndefined then
    match oracle with
    | some typeOf => typeOf pin locals
    | none => return .undefined
  else return declared

/-- The type of a variable of which a predicate holds. -/
def narrowedTy (oracle : Oracle m) (locals : List Pin) (pin : Pin) : Predicate → m Ty
  | .isA path => return .ofTag path
  | .isNil => return .nil
  | .notNil => do
    let t ← baseTy oracle locals pin
    return t.nonNil
  | .notA path => do
    let t ← baseTy oracle locals pin
    return t.select fun member => !isSpelledBy member.name path

/-- Adds the shadows of one fact. -/
def shadowFact (oracle : Oracle m) (locals : List Pin) (fact : Fact) (ranges : List Range) :
    m (List Pin) :=
  match governing? locals fact.name fact.tested with
  | none => return locals
  | some pin => do
    let t ← narrowedTy oracle locals pin fact.predicate
    if t.isUndefined then return locals
    else return locals ++ ranges.map fun range => pin.narrowed t range

/-- Adds the shadows of several facts over the same ranges. -/
def shadowFacts (oracle : Oracle m) (locals : List Pin) (facts : List Fact) (ranges : List Range) :
    m (List Pin) :=
  if ranges.isEmpty then return locals
  else facts.foldlM (fun locals fact => shadowFact oracle locals fact ranges) locals

/-- Adds the shadows of facts that guard operands. -/
def shadowGuarded (oracle : Oracle m) (locals : List Pin) (guarded : List (Fact × Range)) :
    m (List Pin) :=
  guarded.foldlM (fun locals (fact, range) => shadowFacts oracle locals [fact] [range]) locals

/-- Adds the shadows that a conditional gives rise to. -/
def narrowBranch (oracle : Oracle m) (loop : Option Range) (locals : List Pin) : Node → m (List Pin)
  | .branch condition thenPart elsePart range => do
    let facts := condition.conditionFacts
    let locals ← shadowFacts oracle locals facts.whenTrue (factRanges loop range thenPart elsePart)
    let locals ← shadowFacts oracle locals facts.whenFalse (factRanges loop range elsePart thenPart)
    shadowGuarded oracle locals facts.guarded
  | _ => return locals

/-- Adds the shadows over the right operands of a condition that stands for itself. -/
def narrowOperands (oracle : Oracle m) (locals : List Pin) (node : Node) : m (List Pin) :=
  shadowGuarded oracle locals node.conditionFacts.guarded

/-- Adds the shadows in the body of a loop that its condition gives rise to. -/
def narrowLoop (oracle : Oracle m) (locals : List Pin) (condition : Option Node) (body : Node) :
    m (List Pin) :=
  match condition with
  | none => return locals
  | some condition => do
    let facts := condition.conditionFacts
    let locals ← shadowFacts oracle locals facts.whenTrue [body.coverage]
    shadowGuarded oracle locals facts.guarded

mutual

/-- Adds the shadows of every conditional in a statement; `loop` is the range of the loop that a
break leaves. -/
def narrowAll (oracle : Oracle m) (loop : Option Range) : Node → List Pin → m (List Pin)
  | .branch condition thenPart elsePart range, locals => do
    let locals ← narrowBranch oracle loop locals (.branch condition thenPart elsePart range)
    let locals ← narrowPart oracle loop thenPart locals
    narrowPart oracle loop elsePart locals
  | .loop condition body range, locals => do
    let locals ← narrowLoop oracle locals condition body
    narrowAll oracle (some range) body locals
  | .and lhs rhs range, locals => narrowOperands oracle locals (.and lhs rhs range)
  | .or lhs rhs range, locals => narrowOperands oracle locals (.or lhs rhs range)
  | .not operand _, locals => narrowAll oracle loop operand locals
  | .send receiver _ arguments _, locals => do
    let locals ← narrowPart oracle loop receiver locals
    narrowEach oracle loop arguments locals
  | .sequence statements _, locals => narrowEach oracle loop statements locals
  | .var _ _ _, locals | .const _ _ _, locals | .leave _, locals | .other _, locals =>
    return locals

def narrowPart (oracle : Oracle m) (loop : Option Range) : Option Node → List Pin → m (List Pin)
  | none, locals => return locals
  | some node, locals => narrowAll oracle loop node locals

def narrowEach (oracle : Oracle m) (loop : Option Range) : List Node → List Pin → m (List Pin)
  | [], locals => return locals
  | node :: nodes, locals => do
    let locals ← narrowAll oracle loop node locals
    narrowEach oracle loop nodes locals

end

end

end Flow

end DuckInfer
