import DuckInfer.Source.Span

/-!
Statements, as far as the flow of control narrows types: conditionals, loops, boolean operators,
calls and variables. Every other construct contributes only its range.
-/

namespace DuckInfer

/-- A statement or expression. -/
inductive Node where
  /-- a conditional -/
  | branch (condition : Node) (thenPart elsePart : Option Node) (range : Range)
  /-- a construct that a break leaves -/
  | loop (condition : Option Node) (body : Node) (range : Range)
  | and (lhs rhs : Node) (range : Range)
  | or (lhs rhs : Node) (range : Range)
  | not (operand : Node) (range : Range)
  /-- a method call; a bare word has no receiver -/
  | send (receiver : Option Node) (method : String) (arguments : List Node) (range : Range)
  | var (kind : VariableKind) (name : String) (range : Range)
  | const (scope : Option Node) (name : String) (range : Range)
  | leave (range : Range)
  /-- a sequence of statements -/
  | sequence (statements : List Node) (range : Range)
  | other (range : Range)

namespace Node

def range : Node → Range
  | branch _ _ _ r | loop _ _ r | and _ _ r | or _ _ r | not _ r | send _ _ _ r | var _ _ r
  | const _ _ r | leave r | sequence _ r | other r => r

mutual

/-- The statement leaves the enclosing loop whatever happens. -/
def leavesLoop : Node → Bool
  | leave _ => true
  | sequence statements _ => lastLeavesLoop statements
  | _ => false

/-- The last statement leaves the enclosing loop. -/
def lastLeavesLoop : List Node → Bool
  | [] => false
  | [n] => n.leavesLoop
  | _ :: ns => lastLeavesLoop ns

end

def constantPath? : Node → Option String
  | const none name _ => some name
  | const (some scope) name _ => scope.constantPath?.map fun outer => outer ++ "::" ++ name
  | _ => none
termination_by structural n => n

/-- The variable that an operand names: a variable, or a bare word. -/
def namedVariable? : Node → Option String
  | var _ name _ => some name
  | send none method [] _ => some method
  | _ => none

/-- The range of an operand with the column right before it. -/
def coverage (n : Node) : Range :=
  n.range.withColumnBefore

end Node

end DuckInfer
