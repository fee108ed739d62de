import DuckInfer.Source.Condition
import DuckInfer.Proofs.Flow.Layout

/-!
Executions of statements. An execution comes to statements one after the other; it may be watched to
its end or for a while only. No variable is assigned, so each test of a variable has one outcome,
which `outcome` tells; what other conditions come to is open, every time anew.
-/

namespace DuckInfer

/-- How far an execution has come. -/
inductive Ending where
  /-- to a value, which counts as true or as false -/
  | value (truth : Bool)
  /-- out of the enclosing loop -/
  | left
  /-- it is still going on -/
  | unfinished
  deriving DecidableEq

/-- Executions: the statements that each comes to, in order, and how far it has come. -/
abbrev Behaviour :=
  List Node → Ending → Prop

namespace Behaviour

/-- Nothing to come to, and a fixed value. -/
inductive done (truth : Bool) : Behaviour where
  | intro : done truth [] (.value truth)

/-- Nothing to come to, and a value that satisfies a condition. -/
inductive someValue (allowed : Bool → Prop) : Behaviour where
  | intro {truth : Bool} : allowed truth → someValue allowed [] (.value truth)

/-- Nothing to come to, and the enclosing loop is left. -/
inductive leaving : Behaviour where
  | intro : leaving [] .left

/-- Comes to a statement first. -/
inductive enter (n : Node) (inside : Behaviour) : Behaviour where
  | here : enter n inside [n] .unfinished
  | within {trace : List Node} {ending : Ending} :
      inside trace ending → enter n inside (n :: trace) ending

/-- One execution, and another after it that depends on its value. -/
inductive andThen (first : Behaviour) (next : Bool → Behaviour) : Behaviour where
  | unfinished {trace : List Node} {ending : Ending} :
      first trace ending → andThen first next trace .unfinished
  | left {trace : List Node} : first trace .left → andThen first next trace .left
  | went {trace later : List Node} {truth : Bool} {ending : Ending} :
      first trace (.value truth) → next truth later ending →
      andThen first next (trace ++ later) ending

/-- Rounds of a loop: the condition, and the body as long as the condition comes to true. -/
inductive rounds (condition body : Behaviour) : Behaviour where
  | between : rounds condition body [] .unfinished
  | testing {trace : List Node} {ending : Ending} :
      condition trace ending → rounds condition body trace .unfinished
  | ended {trace : List Node} (truth : Bool) :
      condition trace (.value false) → rounds condition body trace (.value truth)
  | leftTesting {trace : List Node} (truth : Bool) :
      condition trace .left → rounds condition body trace (.value truth)
  | inBody {trace later : List Node} {ending : Ending} :
      condition trace (.value true) → body later ending →
      rounds condition body (trace ++ later) .unfinished
  | left {trace later : List Node} (truth : Bool) :
      condition trace (.value true) → body later .left →
      rounds condition body (trace ++ later) (.value truth)
  | again {trace later rest : List Node} {truth : Bool} {ending : Ending} :
      condition trace (.value true) → body later (.value truth) →
      rounds condition body rest ending → rounds condition body (trace ++ later ++ rest) ending

/-- A test comes to its outcome, any other statement to any value. -/
def answer (outcome : Node → Bool) (n : Node) : Behaviour :=
  someValue fun truth => n.conditionFacts ≠ .nothing → truth = outcome n

end Behaviour

open Behaviour

mutual

/-- The executions of a statement. -/
def Node.run (outcome : Node → Bool) : Node → Behaviour
  | .branch condition thenPart elsePart range =>
    enter (.branch condition thenPart elsePart range)
      ((condition.run outcome).andThen fun truth =>
        if truth then Node.runPart outcome thenPart else Node.runPart outcome elsePart)
  | .loop condition body range =>
    enter (.loop condition body range)
      (rounds (Node.runCondition outcome condition) (body.run outcome))
  | .and lhs rhs range =>
    enter (.and lhs rhs range)
      ((lhs.run outcome).andThen fun truth => if truth then rhs.run outcome else done false)
  | .or lhs rhs range =>
    enter (.or lhs rhs range)
      ((lhs.run outcome).andThen fun truth => if truth then done true else rhs.run outcome)
  | .not operand range =>
    enter (.not operand range) ((operand.run outcome).andThen fun truth => done !truth)
  | .send receiver method arguments range =>
    enter (.send receiver method arguments range)
      ((Node.runPart outcome receiver).andThen fun _ =>
        (Node.runEach outcome arguments).andThen fun _ =>
          answer outcome (.send receiver method arguments range))
  | .var kind name range =>
    enter (.var kind name range) (answer outcome (.var kind name range))
  | .const scope name range =>
    enter (.const scope name range)
      ((Node.runPart outcome scope).andThen fun _ => answer outcome (.const scope name range))
  | .leave range => enter (.leave range) leaving
  | .sequence statements range =>
    enter (.sequence statements range) (Node.runEach outcome statements)
  | .other range => enter (.other range) (answer outcome (.other range))

/-- The executions of an optional part; one that is missing is `nil`. -/
def Node.runPart (outcome : Node → Bool) : Option Node → Behaviour
  | none => done false
  | some n => n.run outcome

/-- The executions of the condition of a loop; one that is missing always holds. -/
def Node.runCondition (outcome : Node → Bool) : Option Node → Behaviour
  | none => done true
  | some n => n.run outcome

/-- The executions of several statements; the value is that of the last one. -/
def Node.runEach (outcome : Node → Bool) : List Node → Behaviour
  | [] => done false
  | [n] => n.run outcome
  | n :: ns => (n.run outcome).andThen fun _ => Node.runEach outcome ns

end

namespace Behaviour

variable {q : Node → Prop} {first second : Behaviour} {next : Bool → Behaviour}

/-! ### What executions come to -/

/-- Executions come to statements of a kind only. -/
def Only (q : Node → Prop) (b : Behaviour) : Prop :=
  ∀ trace ending, b trace ending → ∀ n ∈ trace, q n

theorem Only.imp {q' : Node → Prop} {b : Behaviour} (weaker : ∀ n, q n → q' n) (only : b.Only q) :
    b.Only q' :=
  fun trace ending run n member => weaker n (only trace ending run n member)

theorem Only.done (truth : Bool) : (done truth).Only q := by
  rintro trace ending ⟨⟩ n member
  exact absurd member List.not_mem_nil

theorem Only.someValue (allowed : Bool → Prop) : (someValue allowed).Only q := by
  rintro trace ending ⟨-⟩ n member
  exact absurd member List.not_mem_nil

theorem Only.leaving : leaving.Only q := by
  rintro trace ending ⟨⟩ n member
  exact absurd member List.not_mem_nil

theorem Only.enter {n : Node} (own : q n) (inside : first.Only q) : (enter n first).Only q := by
  intro trace ending run m member
  cases run with
  | here =>
    rw [List.mem_singleton.mp member]
    exact own
  | within run =>
    rcases List.mem_cons.mp member with rfl | later
    · exact own
    · exact inside _ _ run m later

theorem Only.andThen (before : first.Only q) (after : ∀ truth, (next truth).Only q) :
    (first.andThen next).Only q := by
  intro trace ending run m member
  cases run with
  | unfinished run => exact before _ _ run m member
  | left run => exact before _ _ run m member
  | went run later =>
    rcases List.mem_append.mp member with early | late
    · exact before _ _ run m early
    · exact after _ _ _ later m late

/-- A statement that rounds come to is one that the condition comes to, or one that the body comes
to after the condition held. -/
theorem mem_rounds {condition body : Behaviour} {trace : List Node} {ending : Ending} {n : Node}
    (run : rounds condition body trace ending) (member : n ∈ trace) :
    (∃ early ending, condition early ending ∧ n ∈ early) ∨
      ∃ early later ending, condition early (.value true) ∧ body later ending ∧ n ∈ later := by
  have inRound : ∀ {early later : List Node} {ending : Ending},
      condition early (.value true) → body later ending → n ∈ early ++ later →
        (∃ early ending, condition early ending ∧ n ∈ early) ∨
          ∃ early later ending, condition early (.value true) ∧ body later ending ∧ n ∈ later := by
    intro early later ending tested inside here
    rcases List.mem_append.mp here with first | second
    · exact Or.inl ⟨early, _, tested, first⟩
    · exact Or.inr ⟨early, later, ending, tested, inside, second⟩
  induction run with
  | between => exact absurd member List.not_mem_nil
  | testing tested => exact Or.inl ⟨_, _, tested, member⟩
  | ended _ tested => exact Or.inl ⟨_, _, tested, member⟩
  | leftTesting _ tested => exact Or.inl ⟨_, _, tested, member⟩
  | inBody tested inside => exact inRound tested inside member
  | left _ tested inside => exact inRound tested inside member
  | again tested inside _ ih =>
    rcases List.mem_append.mp member with here | later
    · exact inRound tested inside here
    · exact ih later

theorem Only.rounds {condition body : Behaviour} (tests : condition.Only q) (inside : body.Only q) :
    (rounds condition body).Only q := by
  intro trace ending run n member
  rcases mem_rounds run member with ⟨early, _, tested, here⟩ | ⟨_, later, _, -, held, here⟩
  · exact tests _ _ tested n here
  · exact inside _ _ held n here

end Behaviour

namespace Node

variable {q : Node → Prop} {outcome : Node → Bool}

theorem runPart_only {part : Option Node} (each : ∀ n ∈ part, (n.run outcome).Only q) :
    (runPart outcome part).Only q := by
  cases part with
  | none => exact Only.done false
  | some n => exact each n rfl

theorem runCondition_only {part : Option Node} (each : ∀ n ∈ part, (n.run outcome).Only q) :
    (runCondition outcome part).Only q := by
  cases part with
  | none => exact Only.done true
  | some n => exact each n rfl

theorem runEach_only {ns : List Node} (each : ∀ n ∈ ns, (n.run outcome).Only q) :
    (runEach outcome ns).Only q := by
  induction ns with
  | nil => exact Only.done false
  | cons n ns ih =>
    have first := each n List.mem_cons_self
    have later := ih fun m member => each m (List.mem_cons_of_mem n member)
    cases ns with
    | nil => exact first
    | cons m ns => exact first.andThen fun _ => later

/-- A statement comes to its parts and what they come to, besides itself. -/
theorem run_only {n : Node} (own : q n) (parts : ∀ part ∈ n.children, (part.run outcome).Only q) :
    (n.run outcome).Only q := by
  cases n with
  | branch condition thenPart elsePart range =>
    refine Only.enter own (Only.andThen (parts _ List.mem_cons_self) fun truth => ?_)
    cases truth with
    | true => exact runPart_only fun n here => parts n (by simp_all [children])
    | false => exact runPart_only fun n here => parts n (by simp_all [children])
  | loop condition body range =>
    refine Only.enter own (Only.rounds (runCondition_only fun n here => ?_) ?_)
    · exact parts n (by simp_all [children])
    · exact parts body (by simp [children])
  | and lhs rhs range =>
    refine Only.enter own (Only.andThen (parts _ List.mem_cons_self) fun truth => ?_)
    cases truth with
    | true => exact parts rhs (by simp [children])
    | false => exact Only.done false
  | or lhs rhs range =>
    refine Only.enter own (Only.andThen (parts _ List.mem_cons_self) fun truth => ?_)
    cases truth with
    | true => exact Only.done true
    | false => exact parts rhs (by simp [children])
  | not operand range =>
    exact Only.enter own (Only.andThen (parts _ List.mem_cons_self) fun truth => Only.done _)
  | send receiver method arguments range =>
    refine Only.enter own (Only.andThen (runPart_only fun n here => ?_) fun _ =>
      Only.andThen (runEach_only fun n here => ?_) fun _ => Only.someValue _)
    · exact parts n (by simp_all [children])
    · exact parts n (by simp_all [children])
  | var kind name range => exact Only.enter own (Only.someValue _)
  | const scope name range =>
    refine Only.enter own (Only.andThen (runPart_only fun n here => ?_) fun _ => Only.someValue _)
    exact parts n (by simp_all [children])
  | leave range => exact Only.enter own Only.leaving
  | sequence statements range => exact Only.enter own (runEach_only parts)
  | other range => exact Only.enter own (Only.someValue _)

/-- Executions of a statement that is laid out stay inside it. -/
theorem LaidOut.run_inside {n : Node} (laidOut : n.LaidOut) (outcome : Node → Bool) :
    (n.run outcome).Only fun m => n.range.covers m.range = true ∧ m.range.Spans := by
  induction laidOut with
  | intro spans covers _ _ ih =>
    refine run_only ⟨Range.covers_refl spans, spans⟩ fun part member trace ending run m here => ?_
    obtain ⟨inside, takesUp⟩ := ih part member trace ending run m here
    exact ⟨Range.covers_trans (covers part member) inside, takesUp⟩

/-- A statement that leaves the loop whatever happens comes to no value. -/
theorem not_value_of_leavesLoop {n : Node} (leaves : n.leavesLoop = true) {trace : List Node}
    {truth : Bool} : ¬ n.run outcome trace (.value truth) := by
  induction n using induction generalizing trace truth with
  | leave range =>
    rintro (_ | ⟨⟨⟩⟩)
  | sequence statements range ih =>
    intro run
    have last : ∀ (ns : List Node), (∀ m ∈ ns, m ∈ statements) → lastLeavesLoop ns = true →
        ∀ {trace : List Node}, ¬ runEach outcome ns trace (.value truth) := by
      intro ns
      induction ns with
      | nil => intro _ none; exact absurd none Bool.false_ne_true
      | cons m ns lastOf =>
        intro listed leaves trace run
        cases ns with
        | nil => exact ih m (listed m List.mem_cons_self) leaves run
        | cons m' ns =>
          cases run with
          | went _ later =>
            exact lastOf (fun n member => listed n (List.mem_cons_of_mem m member)) leaves later
    cases run with
    | within run => exact last statements (fun _ member => member) leaves run
  | _ => exact absurd leaves Bool.false_ne_true

end Node

/-! ### Executions under other outcomes -/

namespace Behaviour

variable {q : Node → Prop} {first second : Behaviour} {next after : Bool → Behaviour}

/-- Executions that come to statements of a kind only are also executions of the other kind. -/
def Follows (q : Node → Prop) (b other : Behaviour) : Prop :=
  ∀ trace ending, b trace ending → (∀ n ∈ trace, q n) → other trace ending

theorem Follows.refl (b : Behaviour) : b.Follows q b :=
  fun _ _ run _ => run

theorem Follows.enter {n : Node} (inside : q n → first.Follows q second) :
    (enter n first).Follows q (enter n second) := by
  intro trace ending run kind
  cases run with
  | here => exact .here
  | within run =>
    exact .within (inside (kind n List.mem_cons_self) _ _ run fun m member =>
      kind m (List.mem_cons_of_mem n member))

theorem Follows.andThen (before : first.Follows q second)
    (later : ∀ truth, (next truth).Follows q (after truth)) :
    (first.andThen next).Follows q (second.andThen after) := by
  intro trace ending run kind
  cases run with
  | unfinished run => exact .unfinished (before _ _ run kind)
  | left run => exact .left (before _ _ run kind)
  | went run rest =>
    exact .went (before _ _ run fun n member => kind n (List.mem_append_left _ member))
      (later _ _ _ rest fun n member => kind n (List.mem_append_right _ member))

theorem Follows.rounds {condition body condition' body' : Behaviour}
    (tests : condition.Follows q condition') (inside : body.Follows q body') :
    (rounds condition body).Follows q (rounds condition' body') := by
  intro trace ending run kind
  induction run with
  | between => exact .between
  | testing tested => exact .testing (tests _ _ tested kind)
  | ended truth tested => exact .ended truth (tests _ _ tested kind)
  | leftTesting truth tested => exact .leftTesting truth (tests _ _ tested kind)
  | inBody tested held =>
    exact .inBody (tests _ _ tested fun n member => kind n (List.mem_append_left _ member))
      (inside _ _ held fun n member => kind n (List.mem_append_right _ member))
  | left truth tested held =>
    exact .left truth (tests _ _ tested fun n member => kind n (List.mem_append_left _ member))
      (inside _ _ held fun n member => kind n (List.mem_append_right _ member))
  | again tested held _ ih =>
    have early := fun n member => kind n (List.mem_append_left _ member)
    exact .again (tests _ _ tested fun n member => early n (List.mem_append_left _ member))
      (inside _ _ held fun n member => early n (List.mem_append_right _ member))
      (ih fun n member => kind n (List.mem_append_right _ member))

theorem Follows.answer {outcome outcome' : Node → Bool} {n : Node}
    (same : outcome n = outcome' n) : (answer outcome n).Follows q (answer outcome' n) := by
  rintro trace ending ⟨allowed⟩ -
  exact .intro fun test => (allowed test).trans same

end Behaviour

namespace Node

variable {outcome outcome' : Node → Bool}

/-- The outcomes agree on a statement. -/
abbrev Agree (outcome outcome' : Node → Bool) (n : Node) : Prop :=
  outcome n = outcome' n

theorem runPart_follows {part : Option Node}
    (each : ∀ n ∈ part, (n.run outcome).Follows (Agree outcome outcome') (n.run outcome')) :
    (runPart outcome part).Follows (Agree outcome outcome') (runPart outcome' part) := by
  cases part with
  | none => exact .refl _
  | some n => exact each n rfl

theorem runCondition_follows {part : Option Node}
    (each : ∀ n ∈ part, (n.run outcome).Follows (Agree outcome outcome') (n.run outcome')) :
    (runCondition outcome part).Follows (Agree outcome outcome') (runCondition outcome' part) := by
  cases part with
  | none => exact .refl _
  | some n => exact each n rfl

theorem runEach_follows {ns : List Node}
    (each : ∀ n ∈ ns, (n.run outcome).Follows (Agree outcome outcome') (n.run outcome')) :
    (runEach outcome ns).Follows (Agree outcome outcome') (runEach outcome' ns) := by
  induction ns with
  | nil => exact .refl _
  | cons n ns ih =>
    have first := each n List.mem_cons_self
    have later := ih fun m member => each m (List.mem_cons_of_mem n member)
    cases ns with
    | nil => exact first
    | cons m ns => exact first.andThen fun _ => later

/-- Outcomes that agree on what an execution comes to allow it both. -/
theorem run_follows (n : Node) (outcome outcome' : Node → Bool) :
    (n.run outcome).Follows (Agree outcome outcome') (n.run outcome') := by
  induction n using induction with
  | branch condition thenPart elsePart range test whenTrue whenFalse =>
    refine .enter fun _ => test.andThen fun truth => ?_
    cases truth with
    | true => exact runPart_follows whenTrue
    | false => exact runPart_follows whenFalse
  | loop condition body range test body' =>
    exact .enter fun _ => (runCondition_follows test).rounds body'
  | and lhs rhs range left right =>
    refine .enter fun _ => left.andThen fun truth => ?_
    cases truth with
    | true => exact right
    | false => exact .refl _
  | or lhs rhs range left right =>
    refine .enter fun _ => left.andThen fun truth => ?_
    cases truth with
    | true => exact .refl _
    | false => exact right
  | not operand range ih => exact .enter fun _ => ih.andThen fun _ => .refl _
  | send receiver method arguments range ofReceiver ofArguments =>
    exact .enter fun same => (runPart_follows ofReceiver).andThen fun _ =>
      (runEach_follows ofArguments).andThen fun _ => .answer same
  | var kind name range => exact .enter fun same => .answer same
  | const scope name range ofScope =>
    exact .enter fun same => (runPart_follows ofScope).andThen fun _ => .answer same
  | leave range => exact .refl _
  | sequence statements range each => exact .enter fun _ => runEach_follows each
  | other range => exact .enter fun same => .answer same

end Node

end DuckInfer
