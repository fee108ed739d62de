import DuckInfer.Source.Node

/-!
What a condition tells about variables, read off its form alone: facts that hold where it succeeded,
facts that hold where it failed, and facts that hold while the right operand of `&&` or `||` runs.
-/

namespace DuckInfer

/-- What a test says about a variable. -/
inductive Predicate where
  /-- an instance of the class -/
  | isA (name : String)
  /-- not an instance of the class -/
  | notA (name : String)
  | isNil
  | notNil
  deriving DecidableEq, Repr

/-- A predicate of a variable. `tested` is the place of the test: the variable meant is the one
visible there. -/
structure Fact where
  name : String
  tested : Position
  predicate : Predicate
  deriving DecidableEq, Repr

/-- What a condition tells. -/
structure ConditionFacts where
  /-- facts where the condition succeeded -/
  whenTrue : List Fact
  /-- facts where the condition failed -/
  whenFalse : List Fact
  /-- facts that hold in a range within the condition -/
  guarded : List (Fact × Range)
  deriving DecidableEq, Repr

namespace ConditionFacts

def nothing : ConditionFacts :=
  ⟨[], [], []⟩

/-- A test of one variable. -/
def ofTest (name : String) (tested : Position) (whenTrue whenFalse : Predicate) : ConditionFacts :=
  ⟨[⟨name, tested, whenTrue⟩], [⟨name, tested, whenFalse⟩], []⟩

/-- The opposite condition. What holds while an operand runs does not change. -/
def negated (facts : ConditionFacts) : ConditionFacts :=
  ⟨facts.whenFalse, facts.whenTrue, facts.guarded⟩

/-- Facts within a range. -/
def within (facts : List Fact) (range : Range) : List (Fact × Range) :=
  facts.map fun fact => (fact, range)

/-- Both conditions hold; the second is tested, in `range`, only if the first holds. -/
def both (a b : ConditionFacts) (range : Range) : ConditionFacts :=
  ⟨a.whenTrue ++ b.whenTrue, [], a.guarded ++ b.guarded ++ within a.whenTrue range⟩

/-- One of the conditions holds; the second is tested, in `range`, only if the first fails. -/
def either (a b : ConditionFacts) (range : Range) : ConditionFacts :=
  ⟨[], a.whenFalse ++ b.whenFalse, a.guarded ++ b.guarded ++ within a.whenFalse range⟩

end ConditionFacts

namespace Node

/-- The methods that test the class of their receiver. -/
def classTests : List String :=
  ["is_a?", "kind_of?", "instance_of?"]

/-- What a call tells as a condition. -/
def sendFacts (receiver : Node) (method : String) (arguments : List Node) (range : Range) :
    ConditionFacts :=
  if classTests.contains method then
    match arguments with
    | [argument] =>
      match receiver.namedVariable?, argument.constantPath? with
      | some name, some path => .ofTest name range.start (.isA path) (.notA path)
      | _, _ => .nothing
    | _ => .nothing
  else if method == "nil?" then
    match arguments, receiver.namedVariable? with
    | [], some name => .ofTest name range.start .isNil .notNil
    | _, _ => .nothing
  else .nothing

/-- What a condition tells. A variable that fails as a condition may still be `false`. -/
def conditionFacts : Node → ConditionFacts
  | send (some receiver) method arguments range => receiver.sendFacts method arguments range
  | var _ name range => ⟨[⟨name, range.start, .notNil⟩], [], []⟩
  | not operand _ => operand.conditionFacts.negated
  | and lhs rhs _ => lhs.conditionFacts.both rhs.conditionFacts rhs.coverage
  | or lhs rhs _ => lhs.conditionFacts.either rhs.conditionFacts rhs.coverage
  | sequence [statement] _ => statement.conditionFacts
  | _ => .nothing
termination_by structural n => n

end Node

end DuckInfer
