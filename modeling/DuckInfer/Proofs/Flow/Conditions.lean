import DuckInfer.Proofs.Flow.Reading

/-!
Conditions as formulas of arbitrary tests: each test may come out either way each time that it
occurs, and facts may mean anything. Main statement: if the facts of each evaluated test hold for
its outcome, then the facts of the condition hold for its value, and the facts that an `&&` or `||`
tells about its right operand hold whenever this operand is evaluated.
-/

namespace DuckInfer

namespace ConditionFacts

/-- The facts for a value of the condition. -/
def told (facts : ConditionFacts) (truth : Bool) : List Fact :=
  if truth then facts.whenTrue else facts.whenFalse

variable {a b : ConditionFacts} {range : Range} {x y : Bool} {fact : Fact}

/-- Two conditions together tell something only if both hold. -/
theorem mem_told_both (member : fact ∈ (a.both b range).told (x && y)) :
    x = true ∧ y = true ∧ (fact ∈ a.told true ∨ fact ∈ b.told true) := by
  cases x with
  | false => exact absurd member List.not_mem_nil
  | true =>
    cases y with
    | false => exact absurd member List.not_mem_nil
    | true => exact ⟨rfl, rfl, List.mem_append.mp member⟩

/-- One of two conditions tells something only if both fail. -/
theorem mem_told_either (member : fact ∈ (a.either b range).told (x || y)) :
    x = false ∧ y = false ∧ (fact ∈ a.told false ∨ fact ∈ b.told false) := by
  cases x with
  | true => exact absurd member List.not_mem_nil
  | false =>
    cases y with
    | true => exact absurd member List.not_mem_nil
    | false => exact ⟨rfl, rfl, List.mem_append.mp member⟩

end ConditionFacts

/-- The way from a condition to one that it is made of. -/
inductive Turn where
  | operand
  | left
  | right
  /-- to the only statement of a sequence -/
  | only
  deriving DecidableEq, Repr

/-- Where a part of a condition stands: the turns that lead to it. -/
abbrev Occurrence :=
  List Turn

/-- How each test comes out, each time that it occurs. -/
abbrev Outcomes :=
  Occurrence → Bool

/-- The outcomes in a condition that another one is made of. -/
def Outcomes.behind (outcomes : Outcomes) (turn : Turn) : Outcomes :=
  fun place => outcomes (turn :: place)

namespace Node

/-- The condition is not made of others. -/
def IsLeaf : Node → Prop
  | not _ _ | and _ _ _ | or _ _ _ | sequence [_] _ => False
  | _ => True

/-- The value of a condition. -/
def value : Node → Outcomes → Bool
  | not operand _, outcomes => !operand.value (outcomes.behind .operand)
  | and lhs rhs _, outcomes =>
    lhs.value (outcomes.behind .left) && rhs.value (outcomes.behind .right)
  | or lhs rhs _, outcomes =>
    lhs.value (outcomes.behind .left) || rhs.value (outcomes.behind .right)
  | sequence [statement] _, outcomes => statement.value (outcomes.behind .only)
  | _, outcomes => outcomes []
termination_by structural n => n

/-- The parts of a condition with their places, each part behind those that it is made of. -/
def parts : Node → List (Occurrence × Node)
  | not operand range =>
    operand.parts.map (Prod.map (Turn.operand :: ·) id) ++ [([], not operand range)]
  | and lhs rhs range =>
    lhs.parts.map (Prod.map (Turn.left :: ·) id) ++ rhs.parts.map (Prod.map (Turn.right :: ·) id) ++
      [([], and lhs rhs range)]
  | or lhs rhs range =>
    lhs.parts.map (Prod.map (Turn.left :: ·) id) ++ rhs.parts.map (Prod.map (Turn.right :: ·) id) ++
      [([], or lhs rhs range)]
  | sequence [statement] range =>
    statement.parts.map (Prod.map (Turn.only :: ·) id) ++ [([], sequence [statement] range)]
  | n => [([], n)]
termination_by structural n => n

/-- What a condition tells about its own right operand. -/
def ownGuarded : Node → List (Fact × Range)
  | and lhs rhs _ => ConditionFacts.within lhs.conditionFacts.whenTrue rhs.coverage
  | or lhs rhs _ => ConditionFacts.within lhs.conditionFacts.whenFalse rhs.coverage
  | _ => []

/-- Evaluating a condition comes to one that it is made of. To a right operand it comes only if the
left one does not decide. -/
inductive Enters (outcomes : Outcomes) : Node → Turn → Node → Prop where
  | operand (operand : Node) (range : Range) :
      Enters outcomes (.not operand range) .operand operand
  | leftOfAnd (lhs rhs : Node) (range : Range) : Enters outcomes (.and lhs rhs range) .left lhs
  | rightOfAnd (lhs rhs : Node) (range : Range) : lhs.value (outcomes.behind .left) = true →
      Enters outcomes (.and lhs rhs range) .right rhs
  | leftOfOr (lhs rhs : Node) (range : Range) : Enters outcomes (.or lhs rhs range) .left lhs
  | rightOfOr (lhs rhs : Node) (range : Range) : lhs.value (outcomes.behind .left) = false →
      Enters outcomes (.or lhs rhs range) .right rhs
  | only (statement : Node) (range : Range) :
      Enters outcomes (.sequence [statement] range) .only statement

/-- Evaluating a condition comes to the part at the place. -/
inductive Evaluates : Outcomes → Node → Occurrence → Prop where
  | here (outcomes : Outcomes) (n : Node) : Evaluates outcomes n []
  | step {outcomes : Outcomes} {n part : Node} {turn : Turn} {place : Occurrence} :
      Enters outcomes n turn part → Evaluates (outcomes.behind turn) part place →
      Evaluates outcomes n (turn :: place)

/-- The facts of each test that is evaluated hold for its outcome. -/
def LeavesHold (holds : Fact → Prop) (outcomes : Outcomes) (condition : Node) : Prop :=
  ∀ part ∈ condition.parts, part.2.IsLeaf → condition.Evaluates outcomes part.1 →
    ∀ fact ∈ part.2.conditionFacts.told (outcomes part.1), holds fact

/-- Induction on a condition: a test of any form, or a condition made of others. -/
theorem part_induction {p : Node → Prop} (leaf : ∀ n, n.IsLeaf → p n)
    (not : ∀ operand range, p operand → p (.not operand range))
    (and : ∀ lhs rhs range, p lhs → p rhs → p (.and lhs rhs range))
    (or : ∀ lhs rhs range, p lhs → p rhs → p (.or lhs rhs range))
    (only : ∀ statement range, p statement → p (.sequence [statement] range)) (n : Node) : p n := by
  induction n using induction with
  | not operand range ih => exact not operand range ih
  | and lhs rhs range left right => exact and lhs rhs range left right
  | or lhs rhs range left right => exact or lhs rhs range left right
  | sequence statements range ih =>
    cases statements with
    | nil => exact leaf _ trivial
    | cons statement statements =>
      cases statements with
      | nil => exact only statement range (ih statement List.mem_cons_self)
      | cons _ _ => exact leaf _ trivial
  | _ => exact leaf _ trivial

/-! ### Leaves -/

namespace IsLeaf

variable {n : Node}

theorem value_eq (leaf : n.IsLeaf) (outcomes : Outcomes) : n.value outcomes = outcomes [] := by
  unfold IsLeaf at leaf
  unfold value
  split at leaf <;> simp_all

theorem parts_eq (leaf : n.IsLeaf) : n.parts = [([], n)] := by
  unfold IsLeaf at leaf
  unfold parts
  split at leaf <;> simp_all

theorem guarded_eq (leaf : n.IsLeaf) : n.conditionFacts.guarded = [] := by
  cases n with
  | send receiver method arguments range =>
    cases receiver with
    | none => rfl
    | some receiver => exact guarded_sendFacts receiver method arguments range
  | sequence statements range =>
    match statements, leaf with
    | [], _ => rfl
    | _ :: _ :: _, _ => rfl
  | not operand range => exact leaf.elim
  | and lhs rhs range => exact leaf.elim
  | or lhs rhs range => exact leaf.elim
  | _ => rfl

theorem ownGuarded_eq (leaf : n.IsLeaf) : n.ownGuarded = [] := by
  cases n with
  | and lhs rhs range => exact leaf.elim
  | or lhs rhs range => exact leaf.elim
  | _ => rfl

end IsLeaf

/-! ### Parts and their places -/

theorem mem_parts_nil {n part : Node} : ([], part) ∈ n.parts ↔ part = n := by
  induction n using part_induction with
  | leaf n leaf => simp [leaf.parts_eq]
  | not operand range _ => simp [parts]
  | and lhs rhs range _ _ => simp [parts]
  | or lhs rhs range _ _ => simp [parts]
  | only statement range _ => simp [parts]

theorem Enters.mem_parts {outcomes : Outcomes} {n next part : Node} {turn : Turn}
    (enters : Enters outcomes n turn next) {place : Occurrence} :
    (turn :: place, part) ∈ n.parts ↔ (place, part) ∈ next.parts := by
  cases enters <;> simp [parts]

section

variable (lhs rhs operand statement : Node) (range : Range)

@[simp] theorem ownGuarded_not : (not operand range).ownGuarded = [] :=
  rfl

@[simp] theorem ownGuarded_and : (and lhs rhs range).ownGuarded =
    ConditionFacts.within lhs.conditionFacts.whenTrue rhs.coverage :=
  rfl

@[simp] theorem ownGuarded_or : (or lhs rhs range).ownGuarded =
    ConditionFacts.within lhs.conditionFacts.whenFalse rhs.coverage :=
  rfl

@[simp] theorem ownGuarded_only : (sequence [statement] range).ownGuarded = [] :=
  rfl

end

/-- A condition tells about right operands what its parts tell about theirs. -/
theorem guarded_eq_parts (n : Node) :
    n.conditionFacts.guarded = n.parts.flatMap fun part => part.2.ownGuarded := by
  -- a place does not matter for what is told
  have moved : ∀ (turn : Turn) (parts : List (Occurrence × Node)),
      (parts.map (Prod.map (turn :: ·) id)).flatMap (fun part => part.2.ownGuarded) =
        parts.flatMap fun part => part.2.ownGuarded := by
    intro turn parts
    simp [List.flatMap_map]
  induction n using part_induction with
  | leaf n leaf => simp [leaf.guarded_eq, leaf.parts_eq, leaf.ownGuarded_eq]
  | not operand range ih => simp [conditionFacts, parts, moved, ih, ConditionFacts.negated]
  | and lhs rhs range left right =>
    simp [conditionFacts, parts, moved, left, right, ConditionFacts.both]
  | or lhs rhs range left right =>
    simp [conditionFacts, parts, moved, left, right, ConditionFacts.either]
  | only statement range ih => simp [conditionFacts, parts, moved, ih]

/-! ### Facts that hold -/

namespace LeavesHold

variable {holds : Fact → Prop} {outcomes : Outcomes} {n : Node}

theorem behind (leaves : n.LeavesHold holds outcomes) {turn : Turn} {next : Node}
    (enters : Enters outcomes n turn next) : next.LeavesHold holds (outcomes.behind turn) := by
  intro part member leaf reached
  exact leaves (turn :: part.1, part.2) (enters.mem_parts.mpr member) leaf (.step enters reached)

/-- The facts for the value of a condition hold. -/
theorem told (leaves : n.LeavesHold holds outcomes) :
    ∀ fact ∈ n.conditionFacts.told (n.value outcomes), holds fact := by
  -- outcomes are generalised: an operand sees those behind the turn to it
  induction n using part_induction generalizing outcomes with
  | leaf n leaf =>
    rw [leaf.value_eq]
    exact leaves ([], n) (mem_parts_nil.mpr rfl) leaf (.here outcomes n)
  | not operand range ih =>
    intro fact member
    refine ih (leaves.behind (.operand operand range)) fact ?_
    rw [value] at member
    cases truth : operand.value (outcomes.behind .operand) <;> rw [truth] at member <;> exact member
  | and lhs rhs range left right =>
    intro fact member
    rw [value, conditionFacts] at member
    obtain ⟨truth, truth', either⟩ := ConditionFacts.mem_told_both member
    have first := left (leaves.behind (.leftOfAnd lhs rhs range)) fact
    have second := right (leaves.behind (.rightOfAnd lhs rhs range truth)) fact
    rw [truth] at first
    rw [truth'] at second
    exact either.elim first second
  | or lhs rhs range left right =>
    intro fact member
    rw [value, conditionFacts] at member
    obtain ⟨truth, truth', either⟩ := ConditionFacts.mem_told_either member
    have first := left (leaves.behind (.leftOfOr lhs rhs range)) fact
    have second := right (leaves.behind (.rightOfOr lhs rhs range truth)) fact
    rw [truth] at first
    rw [truth'] at second
    exact either.elim first second
  | only statement range ih => exact ih (leaves.behind (.only statement range))

/-- What a condition tells about its own right operand holds if evaluation comes to it. -/
theorem ownGuarded (leaves : n.LeavesHold holds outcomes) {next : Node}
    (enters : Enters outcomes n .right next) : ∀ entry ∈ n.ownGuarded, holds entry.1 := by
  intro entry member
  cases enters with
  | rightOfAnd lhs rhs range truth =>
    obtain ⟨fact, told, rfl⟩ := List.mem_map.mp member
    refine (leaves.behind (.leftOfAnd lhs next range)).told fact ?_
    rw [truth]
    exact told
  | rightOfOr lhs rhs range truth =>
    obtain ⟨fact, told, rfl⟩ := List.mem_map.mp member
    refine (leaves.behind (.leftOfOr lhs next range)).told fact ?_
    rw [truth]
    exact told

/-- What a part tells about its right operand holds if evaluation comes to it. -/
theorem guarded (leaves : n.LeavesHold holds outcomes) {place : Occurrence} {part : Node}
    (member : (place, part) ∈ n.parts) (reached : n.Evaluates outcomes (place ++ [.right])) :
    ∀ entry ∈ part.ownGuarded, holds entry.1 := by
  -- each turn leads into a condition that evaluation enters, and whose own leaves hold
  induction place generalizing n outcomes with
  | nil =>
    obtain rfl := mem_parts_nil.mp member
    cases reached with
    | step enters _ => exact leaves.ownGuarded enters
  | cons turn place ih =>
    cases reached with
    | step enters later => exact ih (leaves.behind enters) (enters.mem_parts.mp member) later

end LeavesHold

/-- Whatever facts mean and however tests come out: if the facts of each evaluated test hold for its
outcome, then so do the facts of the condition for its value. What it tells about right operands is
what each `&&` and `||` in it tells about its own, and this holds if the operand is evaluated. -/
theorem conditionFacts_hold (condition : Node) (outcomes : Outcomes) (holds : Fact → Prop)
    (leaves : condition.LeavesHold holds outcomes) :
    (condition.value outcomes = true → ∀ fact ∈ condition.conditionFacts.whenTrue, holds fact) ∧
      (condition.value outcomes = false →
        ∀ fact ∈ condition.conditionFacts.whenFalse, holds fact) ∧
      condition.conditionFacts.guarded =
        (condition.parts.flatMap fun part => part.2.ownGuarded) ∧
      ∀ part ∈ condition.parts, condition.Evaluates outcomes (part.1 ++ [.right]) →
        ∀ entry ∈ part.2.ownGuarded, holds entry.1 := by
  refine ⟨fun truth => ?_, fun truth => ?_, guarded_eq_parts condition, fun part member reached =>
    leaves.guarded member reached⟩
  · have told := leaves.told
    rwa [truth] at told
  · have told := leaves.told
    rwa [truth] at told

section NilGuard

/-- `foo` from a column on -/
def fooAt (column : Nat) : Node :=
  .var .localVar "foo" ⟨⟨0, column⟩, ⟨0, column + 3⟩⟩

/-- `!foo.nil? && foo.is_a?(Foo)` -/
def nilGuard : Node :=
  .and (.not (.send (some (fooAt 1)) "nil?" [] ⟨⟨0, 1⟩, ⟨0, 9⟩⟩) ⟨⟨0, 0⟩, ⟨0, 9⟩⟩)
    (.send (some (fooAt 13)) "is_a?" [.const none "Foo" ⟨⟨0, 23⟩, ⟨0, 26⟩⟩] ⟨⟨0, 13⟩, ⟨0, 27⟩⟩)
    ⟨⟨0, 0⟩, ⟨0, 27⟩⟩

/-- `foo` is an instance of `Foo`. -/
def fooOutcomes : Outcomes :=
  fun place => place = [.right]

/-- What is so if `foo` is an instance of `Foo`. -/
def HoldsOfFoo (fact : Fact) : Prop :=
  fact.predicate = .notNil ∨ fact.predicate = .isA "Foo"

/-- The facts of the guarded test hold for an instance of `Foo`, and so does the one that holds
while its right operand is evaluated. -/
theorem conditionFacts_hold_nilGuard :
    nilGuard.LeavesHold HoldsOfFoo fooOutcomes ∧ nilGuard.value fooOutcomes = true ∧
      (∀ fact ∈ nilGuard.conditionFacts.whenTrue, HoldsOfFoo fact) ∧
      ∀ entry ∈ nilGuard.ownGuarded, HoldsOfFoo entry.1 := by
  have leaves : nilGuard.LeavesHold HoldsOfFoo fooOutcomes := by
    intro part member leaf _ fact told
    simp only [nilGuard, parts, List.map_cons, List.map_nil, List.cons_append, List.nil_append,
      List.mem_cons, List.not_mem_nil, or_false] at member
    rcases member with rfl | rfl | rfl | rfl
    · obtain rfl := List.mem_singleton.mp told
      exact Or.inl rfl
    · exact leaf.elim
    · obtain rfl := List.mem_singleton.mp told
      exact Or.inr rfl
    · exact leaf.elim
  obtain ⟨whenTrue, -, -, guarded⟩ := conditionFacts_hold nilGuard fooOutcomes HoldsOfFoo leaves
  refine ⟨leaves, by decide, whenTrue (by decide), ?_⟩
  exact guarded ([], nilGuard) (mem_parts_nil.mpr rfl)
    (.step (.rightOfAnd _ _ _ (by decide)) (.here _ _))

end NilGuard

end Node

end DuckInfer
