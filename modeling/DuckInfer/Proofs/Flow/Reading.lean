import DuckInfer.Proofs.Flow.Execution

/-!
Facts with the tests that they were read from. A reading holds if its test has the outcome that the
fact was read for. Main statement: a condition that came to a value told nothing but what holds.
-/

namespace DuckInfer

/-- A fact, the test that it was read from, and the outcome of the test that it was read for. -/
structure Reading where
  fact : Fact
  test : Node
  outcome : Bool

/-- The test has the outcome that the fact was read for. -/
def Reading.Holds (reading : Reading) (outcome : Node → Bool) : Prop :=
  outcome reading.test = reading.outcome

/-- What a condition tells, with the tests that tell it. -/
structure Readings where
  whenTrue : List Reading
  whenFalse : List Reading
  guarded : List (Reading × Range)

namespace Readings

def nothing : Readings :=
  ⟨[], [], []⟩

/-- What a test tells. -/
def ofTest (n : Node) : Readings :=
  ⟨n.conditionFacts.whenTrue.map fun fact => ⟨fact, n, true⟩,
    n.conditionFacts.whenFalse.map fun fact => ⟨fact, n, false⟩, []⟩

/-- The opposite condition. -/
def negated (r : Readings) : Readings :=
  ⟨r.whenFalse, r.whenTrue, r.guarded⟩

def within (readings : List Reading) (range : Range) : List (Reading × Range) :=
  readings.map fun reading => (reading, range)

/-- Both conditions hold; the second is tested, in `range`, only if the first holds. -/
def both (a b : Readings) (range : Range) : Readings :=
  ⟨a.whenTrue ++ b.whenTrue, [], a.guarded ++ b.guarded ++ within a.whenTrue range⟩

/-- One of the conditions holds; the second is tested, in `range`, only if the first fails. -/
def either (a b : Readings) (range : Range) : Readings :=
  ⟨[], a.whenFalse ++ b.whenFalse, a.guarded ++ b.guarded ++ within a.whenFalse range⟩

/-- The readings for a value of the condition. -/
def told (r : Readings) (truth : Bool) : List Reading :=
  if truth then r.whenTrue else r.whenFalse

def facts (r : Readings) : ConditionFacts :=
  ⟨r.whenTrue.map Reading.fact, r.whenFalse.map Reading.fact,
    r.guarded.map fun (reading, range) => (reading.fact, range)⟩

theorem facts_negated (r : Readings) : r.negated.facts = r.facts.negated :=
  rfl

theorem facts_both (a b : Readings) (range : Range) :
    (a.both b range).facts = a.facts.both b.facts range := by
  simp [facts, both, ConditionFacts.both, within, ConditionFacts.within]

theorem facts_either (a b : Readings) (range : Range) :
    (a.either b range).facts = a.facts.either b.facts range := by
  simp [facts, either, ConditionFacts.either, within, ConditionFacts.within]

theorem facts_ofTest {n : Node} (plain : n.conditionFacts.guarded = []) :
    (ofTest n).facts = n.conditionFacts := by
  have same : ∀ facts : List Fact, ∀ truth,
      (facts.map fun fact => Reading.mk fact n truth).map Reading.fact = facts := by
    intro facts truth
    simp [Function.comp_def]
  unfold facts ofTest
  rw [same, same, List.map_nil, ← plain]

theorem mem_ofTest {n : Node} {reading : Reading} {truth : Bool}
    (member : reading ∈ (ofTest n).told truth) :
    reading.test = n ∧ reading.outcome = truth ∧ n.conditionFacts ≠ .nothing := by
  have some : n.conditionFacts ≠ .nothing := by
    intro none
    cases truth <;> simp [told, ofTest, none, ConditionFacts.nothing] at member
  cases truth with
  | true =>
    obtain ⟨fact, -, rfl⟩ := List.mem_map.mp member
    exact ⟨rfl, rfl, some⟩
  | false =>
    obtain ⟨fact, -, rfl⟩ := List.mem_map.mp member
    exact ⟨rfl, rfl, some⟩

end Readings

namespace Node

/-- What a condition tells, with the tests that tell it. -/
def readings : Node → Readings
  | send (some receiver) method arguments range =>
    .ofTest (send (some receiver) method arguments range)
  | var kind name range => .ofTest (var kind name range)
  | not operand _ => operand.readings.negated
  | and lhs rhs _ => lhs.readings.both rhs.readings rhs.coverage
  | or lhs rhs _ => lhs.readings.either rhs.readings rhs.coverage
  | sequence [statement] _ => statement.readings
  | _ => .nothing
termination_by structural n => n

theorem guarded_sendFacts (receiver : Node) (method : String) (arguments : List Node)
    (range : Range) : (receiver.sendFacts method arguments range).guarded = [] := by
  unfold sendFacts
  split
  · split
    · split <;> rfl
    · rfl
  · split
    · split <;> rfl
    · rfl

/-- A call on a receiver, or a variable. -/
inductive IsTest : Node → Prop where
  | send (receiver : Node) (method : String) (arguments : List Node) (range : Range) :
      IsTest (send (some receiver) method arguments range)
  | var (kind : VariableKind) (name : String) (range : Range) : IsTest (var kind name range)

theorem IsTest.readings_eq {n : Node} (test : n.IsTest) : n.readings = .ofTest n := by
  cases test <;> rfl

theorem IsTest.guarded_eq {n : Node} (test : n.IsTest) : n.conditionFacts.guarded = [] := by
  cases test with
  | send receiver method arguments range => exact guarded_sendFacts receiver method arguments range
  | var kind name range => rfl

/-- Induction on a condition: a test, a condition made of others, or one that tells nothing. -/
theorem condition_induction {p : Node → Prop} (test : ∀ n, n.IsTest → p n)
    (nothing : ∀ n, n.readings = .nothing → n.conditionFacts = .nothing → p n)
    (not : ∀ operand range, p operand → p (.not operand range))
    (and : ∀ lhs rhs range, p lhs → p rhs → p (.and lhs rhs range))
    (or : ∀ lhs rhs range, p lhs → p rhs → p (.or lhs rhs range))
    (only : ∀ statement range, p statement → p (.sequence [statement] range)) (n : Node) : p n := by
  induction n using induction with
  | send receiver method arguments range _ _ =>
    cases receiver with
    | none => exact nothing _ rfl rfl
    | some receiver => exact test _ (.send receiver method arguments range)
  | var kind name range => exact test _ (.var kind name range)
  | not operand range ih => exact not operand range ih
  | and lhs rhs range left right => exact and lhs rhs range left right
  | or lhs rhs range left right => exact or lhs rhs range left right
  | sequence statements range ih =>
    cases statements with
    | nil => exact nothing _ rfl rfl
    | cons statement statements =>
      cases statements with
      | nil => exact only statement range (ih statement List.mem_cons_self)
      | cons _ _ => exact nothing _ rfl rfl
  | _ => exact nothing _ rfl rfl

/-- The readings are the facts that the condition tells, with their tests. -/
theorem facts_readings (n : Node) : n.readings.facts = n.conditionFacts := by
  induction n using condition_induction with
  | test n test => rw [test.readings_eq, Readings.facts_ofTest test.guarded_eq]
  | nothing n same plain => rw [same, plain]; rfl
  | not operand range ih => simp only [readings, conditionFacts, Readings.facts_negated, ih]
  | and lhs rhs range left right =>
    simp only [readings, conditionFacts, Readings.facts_both, left, right]
  | or lhs rhs range left right =>
    simp only [readings, conditionFacts, Readings.facts_either, left, right]
  | only statement range ih => simp only [readings, conditionFacts, ih]

/-! ### Conditions that came to a value -/

variable {outcome : Node → Bool}

theorem IsTest.value_eq {n : Node} (test : n.IsTest) (tells : n.conditionFacts ≠ .nothing)
    {trace : List Node} {truth : Bool} (run : n.run outcome trace (.value truth)) :
    outcome n = truth := by
  cases test with
  | send receiver method arguments range =>
    cases run with
    | within run =>
      cases run with
      | went _ run =>
        cases run with
        | went _ run =>
          cases run with
          | intro allowed => exact (allowed tells).symm
  | var kind name range =>
    cases run with
    | within run =>
      cases run with
      | intro allowed => exact (allowed tells).symm

/-- A condition that came to a value told nothing for this value but what holds. -/
theorem holds_of_run (n : Node) : ∀ {trace : List Node} {truth : Bool},
    n.run outcome trace (.value truth) → ∀ reading ∈ n.readings.told truth,
      reading.Holds outcome := by
  induction n using condition_induction with
  | test n test =>
    intro trace truth run reading member
    rw [test.readings_eq] at member
    obtain ⟨same, readFor, tells⟩ := Readings.mem_ofTest member
    rw [Reading.Holds, same, readFor]
    exact test.value_eq tells run
  | nothing n same _ =>
    intro trace truth _ reading member
    rw [same] at member
    cases truth <;> exact absurd member List.not_mem_nil
  | not operand range ih =>
    intro trace truth run reading member
    cases run with
    | within run =>
      cases run with
      | went tested later =>
        cases later with
        | intro =>
          rename_i tested'
          refine ih tested reading ?_
          cases tested' <;> exact member
  | and lhs rhs range left right =>
    intro trace truth run reading member
    cases truth with
    | false => exact absurd member List.not_mem_nil
    | true =>
      cases run with
      | within run =>
        cases run with
        | @went _ _ first _ tested later =>
          cases first with
          | false => cases later
          | true =>
            rcases List.mem_append.mp member with ofLeft | ofRight
            · exact left tested reading ofLeft
            · exact right later reading ofRight
  | or lhs rhs range left right =>
    intro trace truth run reading member
    cases truth with
    | true => exact absurd member List.not_mem_nil
    | false =>
      cases run with
      | within run =>
        cases run with
        | @went _ _ first _ tested later =>
          cases first with
          | true => cases later
          | false =>
            rcases List.mem_append.mp member with ofLeft | ofRight
            · exact left tested reading ofLeft
            · exact right later reading ofRight
  | only statement range ih =>
    intro trace truth run reading member
    cases run with
    | within run => exact ih run reading member

end Node

end DuckInfer
