import DuckInfer.Proofs.Flow.Hosting

/-!
Where narrowing is right. A placement is right if its reading holds whenever an execution comes to
its range. Main statement: it is right exactly if no execution comes to the range with the test
unrun, which is always so unless it is marked as a detour.
-/

namespace DuckInfer

namespace Flow

open Behaviour

variable {outcome : Node → Bool} {loop : Option Range} {nested : Bool} {p : Placement}
  {n part : Node}

/-! ### Conditionals -/

/-- The part of a conditional that runs for a value of its condition. -/
def arm (truth : Bool) (thenPart elsePart : Option Node) : Option Node :=
  if truth then thenPart else elsePart

section Conditional

variable {condition : Node} {thenPart elsePart : Option Node} {range : Range}

theorem run_branch : (Node.branch condition thenPart elsePart range).run outcome =
    enter (.branch condition thenPart elsePart range) ((condition.run outcome).andThen fun truth =>
      Node.runPart outcome (arm truth thenPart elsePart)) := by
  simp only [Node.run]
  congr 2
  funext truth
  cases truth <;> rfl

theorem mem_children_of_arm {truth : Bool} (here : part ∈ arm truth thenPart elsePart) :
    part ∈ (Node.branch condition thenPart elsePart range).children := by
  cases truth <;> simp_all [arm, Node.children]

theorem arranged_arms (laidOut : (Node.branch condition thenPart elsePart range).LaidOut) :
    (∀ truth, ∀ part ∈ arm truth thenPart elsePart, condition.range.Apart part.range) ∧
      ∀ truth, ∀ part ∈ arm truth thenPart elsePart, ∀ other ∈ arm (!truth) thenPart elsePart,
        other.range.Apart part.range := by
  obtain ⟨first, parts⟩ := List.pairwise_cons.mp laidOut.arranged
  obtain ⟨-, -, between⟩ := List.pairwise_append.mp parts
  refine ⟨fun truth part here => ?_, fun truth part here other there => ?_⟩
  · cases truth with
    | true => exact first part (List.mem_append_left _ (Option.mem_toList.mpr here))
    | false => exact first part (List.mem_append_right _ (Option.mem_toList.mpr here))
  · cases truth with
    | true =>
      exact (between part (Option.mem_toList.mpr here) other (Option.mem_toList.mpr there)).symm
    | false =>
      exact between other (Option.mem_toList.mpr there) part (Option.mem_toList.mpr here)

theorem mem_branchPlacements
    (member : p ∈ branchPlacements loop nested condition thenPart elsePart range) :
    (∃ truth, p ∈ place (condition.readings.told truth)
        (scopes loop nested range (arm truth thenPart elsePart) (arm (!truth) thenPart elsePart))) ∨
      p ∈ guards condition := by
  rcases List.mem_append.mp member with member | guard
  · rcases List.mem_append.mp member with whenTrue | whenFalse
    · exact Or.inl ⟨true, whenTrue⟩
    · exact Or.inl ⟨false, whenFalse⟩
  · exact Or.inr guard

theorem mem_scopes {branch other : Option Node} {scope : Range × Bool}
    (member : scope ∈ scopes loop nested range branch other) :
    (∃ taken ∈ branch, scope = (taken.coverage, false)) ∨
      ∃ l leaving, loop = some l ∧ leaving ∈ other ∧ leaving.leavesLoop = true ∧
        scope = (⟨range.stop, l.stop⟩, nested) := by
  rcases List.mem_append.mp member with rest | taken
  · cases loop with
    | none => exact absurd rest List.not_mem_nil
    | some l =>
      cases leaves : other.any Node.leavesLoop with
      | false =>
        simp only [leaves, Bool.false_eq_true, if_false] at rest
        exact absurd rest List.not_mem_nil
      | true =>
        obtain ⟨leaving, here, leaves'⟩ := (Option.any_eq_true _ _).mp leaves
        simp only [leaves, if_true] at rest
        exact Or.inr ⟨l, leaving, rfl, here, leaves', List.mem_singleton.mp rest⟩
  · obtain ⟨node, here, same⟩ := Option.map_eq_some_iff.mp (Option.mem_toList.mp taken)
    exact Or.inl ⟨node, here, same.symm⟩

/-- What holds for a part of a conditional is placed over this part. -/
theorem hosts_taken (laidOut : (Node.branch condition thenPart elsePart range).LaidOut)
    {truth : Bool} (here : part ∈ arm truth thenPart elsePart) (covers : p.range = part.coverage)
    (listed : p.reading ∈ condition.readings.told truth) (fails : ¬ p.reading.Holds outcome) :
    Hosts outcome loop nested p (.branch condition thenPart elsePart range) := by
  have child : condition ∈ (Node.branch condition thenPart elsePart range).children :=
    List.mem_cons_self
  have ofCondition := laidOut.part _ child
  obtain ⟨apart, beside⟩ := arranged_arms laidOut
  have outside : ((condition.run outcome).andThen fun value =>
      Node.runPart outcome (arm value thenPart elsePart)).Only
        fun m => ¬ part.coverage.covers m.range = true := by
    refine guarded_only_not_covers (apart truth part here) ofCondition (fun value other => ?_)
      listed fails
    rw [Bool.eq_not_of_ne other]
    refine Node.runPart_only fun m there trace ending run m' member => ?_
    have laid := laidOut.part m (mem_children_of_arm there)
    obtain ⟨inside, spans⟩ := laid.run_inside outcome _ _ run m' member
    exact ((beside truth part here m there).mono inside).not_withColumnBefore_covers spans
  have proper : ¬ part.coverage.covers (Node.branch condition thenPart elsePart range).range := by
    intro all
    exact (apart truth part here).symm.not_withColumnBefore_covers ofCondition.spans
      (Range.covers_trans all (laidOut.covers _ child))
  have home := told_home ofCondition truth p.reading listed
  refine ⟨home.lift laidOut child, ?_, Or.inl ⟨?_, ?_⟩⟩
  · rw [run_branch]
    exact (Bypasses.of_outside (covers ▸ outside)).enter ⟨home.ne child, covers ▸ proper⟩
  · rw [covers]
    exact Range.withColumnBefore_covers (laidOut.covers part (mem_children_of_arm here))
  · rw [covers]
    exact proper

/-- What holds behind a conditional, as its other part leaves the loop, is placed over the rest. -/
theorem hosts_rest {l : Range} {leaving : Node}
    (laidOut : (Node.branch condition thenPart elsePart range).LaidOut) {truth : Bool}
    (there : leaving ∈ arm (!truth) thenPart elsePart) (leaves : leaving.leavesLoop = true)
    (rest : p.range = ⟨range.stop, l.stop⟩) (marked : p.detour = nested)
    (listed : p.reading ∈ condition.readings.told truth) (fails : ¬ p.reading.Holds outcome) :
    Hosts outcome (some l) nested p (.branch condition thenPart elsePart range) := by
  have child : condition ∈ (Node.branch condition thenPart elsePart range).children :=
    List.mem_cons_self
  have home := told_home (laidOut.part _ child) truth p.reading listed
  have start : p.range.start = range.stop := by
    rw [rest]
  have stop : p.range.stop = l.stop := by
    rw [rest]
  refine ⟨home.lift laidOut child, Bypasses.of_outside ?_, Or.inr ⟨⟨?_, ?_, ?_, ?_⟩, ?_⟩⟩
  · intro trace ending run m member covers
    obtain ⟨inside, spans⟩ := laidOut.run_inside outcome _ _ run m member
    have before : m.range.start < p.range.start := by
      rw [start]
      exact lt_of_lt_of_le spans (Range.covers_iff.mp inside).2.2
    exact absurd (before.trans_le (Range.covers_iff.mp covers).1.1) (lt_irrefl _)
  · rw [start]
    exact laidOut.spans
  · exact start.le
  · exact ⟨l, rfl, stop⟩
  · exact fun inner => marked.trans inner
  · rw [run_branch]
    intro trace value run
    cases run with
    | within run =>
      cases run with
      | @went _ _ tested _ run rest =>
        -- the fact fails, so the other part has run, and that leaves the loop
        by_cases same : tested = truth
        · subst same
          exact absurd (condition.holds_of_run run p.reading listed) fails
        · rw [Bool.eq_not_of_ne same] at rest
          rw [Option.mem_def.mp there] at rest
          exact absurd rest (Node.not_value_of_leavesLoop leaves)

/-- A conditional hosts what its parts host: whoever takes the other part makes a detour. -/
theorem hosts_arm (laidOut : (Node.branch condition thenPart elsePart range).LaidOut) {truth : Bool}
    (here : part ∈ arm truth thenPart elsePart) (host : Hosts outcome loop true p part) :
    Hosts outcome loop nested p (.branch condition thenPart elsePart range) := by
  have child : condition ∈ (Node.branch condition thenPart elsePart range).children :=
    List.mem_cons_self
  obtain ⟨apart, beside⟩ := arranged_arms laidOut
  have tests := host.only_foreign (laidOut.part _ child) (apart truth part here)
  have others : (Node.runPart outcome (arm (!truth) thenPart elsePart)).Only (Foreign p) :=
    Node.runPart_only fun m there =>
      host.only_foreign (laidOut.part m (mem_children_of_arm there))
        (beside truth part here m there)
  have taken : Node.runPart outcome (arm truth thenPart elsePart) = part.run outcome := by
    rw [Option.mem_def.mp here]
    rfl
  refine host.lift laidOut (mem_children_of_arm here) run_branch
    (Bypasses.second tests fun value => ?_) ?_
  · by_cases same : value = truth
    · rw [same, taken]
      exact host.bypasses
    · rw [Bool.eq_not_of_ne same]
      exact Bypasses.of_foreign others
  · rcases host.reach with confined | ⟨opened, skips⟩
    · exact Or.inl confined
    · have marked := opened.marked rfl
      refine Or.inr ⟨⟨opened.start, opened.within, opened.stop, fun _ => marked⟩,
        Skips.second (tests.imp fun _ foreign => foreign.1) fun value => ?_⟩
      by_cases same : value = truth
      · rw [same, taken]
        exact skips
      · rw [Bool.eq_not_of_ne same]
        exact Skips.of_marked marked (others.imp fun _ foreign => foreign.1)

end Conditional

/-! ### Loops -/

section Loop

variable {condition : Option Node} {body : Node} {range : Range}

theorem arranged_loop (laidOut : (Node.loop condition body range).LaidOut) :
    ∀ test ∈ condition, test.range.Before body.range := by
  intro test here
  obtain ⟨-, -, between⟩ := List.pairwise_append.mp laidOut.arranged
  exact between test (Option.mem_toList.mpr here) body (List.mem_singleton_self _)

theorem body_mem_children : body ∈ (Node.loop condition body range).children :=
  List.mem_append_right _ (List.mem_singleton_self _)

theorem condition_mem_children {test : Node} (here : test ∈ condition) :
    test ∈ (Node.loop condition body range).children :=
  List.mem_append_left _ (Option.mem_toList.mpr here)

/-- A loop hosts what its body hosts, and the rest of the loop lies in the loop. -/
theorem hosts_body (laidOut : (Node.loop condition body range).LaidOut)
    (host : Hosts outcome (some range) false p body) :
    Hosts outcome loop nested p (.loop condition body range) := by
  have tests : (Node.runCondition outcome condition).Only (Outside p) :=
    Node.runCondition_only fun test here =>
      host.only_outside (laidOut.part test (condition_mem_children here))
        (arranged_loop laidOut test here)
  refine ⟨host.home.lift laidOut body_mem_children, ?_, Or.inl ?_⟩
  · exact (host.bypasses.rounds (tests.imp fun _ => Outside.foreign)).enter
      (host.outside laidOut body_mem_children)
  · rcases host.reach with confined | ⟨opened, -⟩
    · exact confined.lift laidOut body_mem_children
    · exact (opened.lift laidOut body_mem_children).confined

theorem hosts_loopPlacements (laidOut : (Node.loop condition body range).LaidOut)
    (member : p ∈ loopPlacements condition body) (fails : ¬ p.reading.Holds outcome) :
    Hosts outcome loop nested p (.loop condition body range) := by
  cases condition with
  | none => exact absurd member List.not_mem_nil
  | some test =>
    have child : test ∈ (Node.loop (some test) body range).children := condition_mem_children rfl
    have ofTest := laidOut.part test child
    have apart := (arranged_loop laidOut test rfl).apart
    have ofBody := laidOut.part body body_mem_children
    rcases List.mem_append.mp member with own | guard
    · obtain ⟨listed, scope⟩ := mem_place.mp own
      obtain ⟨covers, -⟩ := Prod.mk.inj (List.mem_singleton.mp scope)
      have home := told_home ofTest true p.reading listed
      have outside : (rounds (test.run outcome) (body.run outcome)).Only
          fun m => ¬ body.coverage.covers m.range = true := by
        intro trace ending run m here
        rcases mem_rounds run here with ⟨early, _, tested, here⟩ | ⟨_, _, _, held, _, _⟩
        · obtain ⟨inside, spans⟩ := ofTest.run_inside outcome _ _ tested m here
          exact (apart.mono inside).not_withColumnBefore_covers spans
        · exact absurd (test.holds_of_run held p.reading listed) fails
      have proper : ¬ body.coverage.covers (Node.loop (some test) body range).range = true := by
        intro all
        exact apart.symm.not_withColumnBefore_covers ofTest.spans
          (Range.covers_trans all (laidOut.covers test child))
      refine ⟨home.lift laidOut child, ?_, Or.inl ⟨?_, ?_⟩⟩
      · exact (Bypasses.of_outside (covers ▸ outside)).enter ⟨home.ne child, covers ▸ proper⟩
      · rw [covers]
        exact Range.withColumnBefore_covers (laidOut.covers body body_mem_children)
      · rw [covers]
        exact proper
    · have host := hosts_guards ofTest guard fails
      refine host.lift laidOut child rfl ?_ (Or.inl host.confined)
      exact host.bypasses.testing (host.confined.only_not_covers ofBody apart.symm)

end Loop

/-! ### All statements -/

theorem hosts_operand {operand : Node} {range : Range} (laidOut : (Node.not operand range).LaidOut)
    (host : Hosts outcome loop nested p operand) :
    Hosts outcome loop nested p (.not operand range) := by
  obtain ⟨bypasses, reach⟩ := host.first (fun truth => Only.done !truth) fun _ truth =>
    Only.done !truth
  exact host.lift laidOut List.mem_cons_self rfl bypasses reach

theorem hosts_statement {statements : List Node} {range : Range}
    (laidOut : (Node.sequence statements range).LaidOut) (member : part ∈ statements)
    (host : Hosts outcome loop nested p part) :
    Hosts outcome loop nested p (.sequence statements range) := by
  obtain ⟨bypasses, reach⟩ := host.each laidOut.arranged laidOut.part member
  exact host.lift laidOut member rfl bypasses reach

section Call

variable {receiver : Option Node} {method : String} {arguments : List Node} {range : Range}

theorem hosts_receiver (laidOut : (Node.send receiver method arguments range).LaidOut)
    (here : part ∈ receiver) (host : Hosts outcome loop nested p part) :
    Hosts outcome loop nested p (.send receiver method arguments range) := by
  cases receiver with
  | none => exact absurd here (by simp)
  | some only =>
    obtain rfl : only = part := Option.some.inj here
    obtain ⟨before, -⟩ := List.pairwise_cons.mp laidOut.arranged
    have laid : ∀ m ∈ arguments, m.LaidOut := fun m member =>
      laidOut.part m (List.mem_cons_of_mem _ member)
    have later : ∀ {q : Node → Prop}, (∀ m ∈ arguments, (m.run outcome).Only q) →
        ((Node.runEach outcome arguments).andThen fun _ =>
          answer outcome (.send (some only) method arguments range)).Only q :=
      fun each => Only.andThen (Node.runEach_only each) fun _ => Only.someValue _
    obtain ⟨bypasses, reach⟩ := host.first
      (fun _ => later fun m member =>
        host.home.only_ne (laid m member) (before m member).apart.symm)
      fun confined _ => later fun m member =>
        confined.only_not_covers (laid m member) (before m member).apart.symm
    exact host.lift laidOut List.mem_cons_self rfl bypasses reach

theorem hosts_argument (laidOut : (Node.send receiver method arguments range).LaidOut)
    (member : part ∈ arguments) (host : Hosts outcome loop nested p part) :
    Hosts outcome loop nested p (.send receiver method arguments range) := by
  obtain ⟨-, ordered, between⟩ := List.pairwise_append.mp laidOut.arranged
  have child : part ∈ (Node.send receiver method arguments range).children :=
    List.mem_append_right _ member
  have early : (Node.runPart outcome receiver).Only (Outside p) :=
    Node.runPart_only fun m here =>
      host.only_outside (laidOut.part m (List.mem_append_left _ (Option.mem_toList.mpr here)))
        (between m (Option.mem_toList.mpr here) part member)
  obtain ⟨bypasses, reach⟩ := host.each ordered
    (fun m member => laidOut.part m (List.mem_append_right _ member)) member
  refine host.lift laidOut child rfl (Bypasses.second (early.imp fun _ => Outside.foreign) fun _ =>
    bypasses.first (fun _ => Only.someValue _) (Or.inl fun _ => Only.someValue _)) ?_
  rcases reach with confined | ⟨opened, skips⟩
  · exact Or.inl confined
  · exact Or.inr ⟨opened, Skips.second (early.imp fun _ outside => outside.1) fun _ =>
      skips.first fun _ => Only.someValue _⟩

end Call

/-- Guards of a condition are placements within it, whatever stands around. -/
theorem Hosts.anywhere (host : Hosts outcome none false p n) : Hosts outcome loop nested p n :=
  ⟨host.home, host.bypasses, Or.inl host.confined⟩

theorem hosts_branchPlacements {condition : Node} {thenPart elsePart : Option Node} {range : Range}
    (laidOut : (Node.branch condition thenPart elsePart range).LaidOut)
    (member : p ∈ branchPlacements loop nested condition thenPart elsePart range)
    (fails : ¬ p.reading.Holds outcome) :
    Hosts outcome loop nested p (.branch condition thenPart elsePart range) := by
  rcases mem_branchPlacements member with ⟨truth, placed⟩ | guard
  · obtain ⟨listed, scope⟩ := mem_place.mp placed
    rcases mem_scopes scope with ⟨taken, here, same⟩ | ⟨l, leaving, rfl, there, leaves, same⟩
    · obtain ⟨covers, -⟩ := Prod.mk.inj same
      exact hosts_taken laidOut here covers listed fails
    · obtain ⟨rest, marked⟩ := Prod.mk.inj same
      exact hosts_rest laidOut there leaves rest marked listed fails
  · have child : condition ∈ (Node.branch condition thenPart elsePart range).children :=
      List.mem_cons_self
    have host := hosts_guards (laidOut.part _ child) guard fails
    obtain ⟨apart, -⟩ := arranged_arms laidOut
    have later : ∀ {q : Node → Prop} (truth : Bool),
        (∀ m ∈ arm truth thenPart elsePart, (m.run outcome).Only q) →
          (Node.runPart outcome (arm truth thenPart elsePart)).Only q :=
      fun _ each => Node.runPart_only each
    obtain ⟨bypasses, -⟩ := host.first
      (fun truth => later truth fun m here =>
        host.home.only_ne (laidOut.part m (mem_children_of_arm here)) (apart truth m here).symm)
      fun confined truth => later truth fun m here =>
        confined.only_not_covers (laidOut.part m (mem_children_of_arm here))
          (apart truth m here).symm
    exact host.lift laidOut child run_branch bypasses (Or.inl host.confined)

/-- A statement hosts each of its placements whose reading does not hold. -/
theorem hosts_placements (n : Node) : n.LaidOut → ∀ (loop : Option Range) (nested : Bool),
    ∀ p ∈ placements loop nested n, ¬ p.reading.Holds outcome → Hosts outcome loop nested p n := by
  -- own placements of a statement begin to be hosted there, those of a part are lifted by one level
  induction n using Node.induction with
  | branch condition thenPart elsePart range _ ofThen ofElse =>
    intro laidOut loop nested p member fails
    rcases List.mem_append.mp member with member | inElse
    · rcases List.mem_append.mp member with own | inThen
      · exact hosts_branchPlacements laidOut own fails
      · obtain ⟨part, here, inside⟩ := mem_partPlacements.mp inThen
        have taken : part ∈ arm true thenPart elsePart := here
        have laid := laidOut.part part (mem_children_of_arm taken)
        exact hosts_arm laidOut taken (ofThen part here laid loop true p inside fails)
    · obtain ⟨part, here, inside⟩ := mem_partPlacements.mp inElse
      have taken : part ∈ arm false thenPart elsePart := here
      have laid := laidOut.part part (mem_children_of_arm taken)
      exact hosts_arm laidOut taken (ofElse part here laid loop true p inside fails)
  | loop condition body range _ ofBody =>
    intro laidOut loop nested p member fails
    rcases List.mem_append.mp member with own | inside
    · exact hosts_loopPlacements laidOut own fails
    · exact hosts_body laidOut
        (ofBody (laidOut.part _ body_mem_children) (some range) false p inside fails)
  | and lhs rhs range _ _ =>
    intro laidOut loop nested p member fails
    exact (hosts_guards laidOut member fails).anywhere
  | or lhs rhs range _ _ =>
    intro laidOut loop nested p member fails
    exact (hosts_guards laidOut member fails).anywhere
  | not operand range ih =>
    intro laidOut loop nested p member fails
    exact hosts_operand laidOut
      (ih (laidOut.part _ List.mem_cons_self) loop nested p member fails)
  | send receiver method arguments range ofReceiver ofArguments =>
    intro laidOut loop nested p member fails
    rcases List.mem_append.mp member with inReceiver | inArguments
    · obtain ⟨part, here, inside⟩ := mem_partPlacements.mp inReceiver
      have laid := laidOut.part part (List.mem_append_left _ (Option.mem_toList.mpr here))
      exact hosts_receiver laidOut here (ofReceiver part here laid loop nested p inside fails)
    · obtain ⟨part, here, inside⟩ := mem_eachPlacements.mp inArguments
      have laid := laidOut.part part (List.mem_append_right _ here)
      exact hosts_argument laidOut here (ofArguments part here laid loop nested p inside fails)
  | sequence statements range each =>
    intro laidOut loop nested p member fails
    obtain ⟨part, here, inside⟩ := mem_eachPlacements.mp member
    exact hosts_statement laidOut here (each part here (laidOut.part part here) loop nested p inside
      fails)
  | var _ _ _ => exact fun _ _ _ _ none => absurd none List.not_mem_nil
  | const _ _ _ _ => exact fun _ _ _ _ none => absurd none List.not_mem_nil
  | leave _ => exact fun _ _ _ _ none => absurd none List.not_mem_nil
  | other _ => exact fun _ _ _ _ none => absurd none List.not_mem_nil

/-! ### Where placements are right -/

/-- Whenever an execution comes to a statement in the range of the placement, the reading holds. -/
def Right (root : Node) (p : Placement) : Prop :=
  ∀ outcome trace ending n, root.run outcome trace ending → n ∈ trace →
    p.range.covers n.range = true → p.reading.Holds outcome

/-- Whenever an execution comes to a statement in the range of the placement, it runs the test. -/
def Tested (root : Node) (p : Placement) : Prop :=
  ∀ outcome trace ending n, root.run outcome trace ending → n ∈ trace →
    p.range.covers n.range = true → p.reading.test ∈ trace

/-- An execution that leaves the test unrun is possible with either outcome of the test. -/
theorem Right.tested {root : Node} (right : Right root p) : Tested root p := by
  classical
  intro outcome trace ending n run member covers
  by_contra unrun
  -- the same execution with the test turned round
  let flipped : Node → Bool := fun m => if m = p.reading.test then !p.reading.outcome else outcome m
  have agree : ∀ m ∈ trace, outcome m = flipped m := by
    intro m listed
    have other : m ≠ p.reading.test := fun same => unrun (same ▸ listed)
    simp [flipped, other]
  have holds := right flipped trace ending n (root.run_follows outcome flipped _ _ run agree) member
    covers
  simp [Reading.Holds, flipped] at holds

theorem Tested.right {root : Node} (laidOut : root.LaidOut)
    (member : p ∈ placements loop nested root) (tested : Tested root p) : Right root p := by
  intro outcome trace ending n run here covers
  by_contra fails
  have host := hosts_placements root laidOut loop nested p member fails
  obtain ⟨-, other, ending', run, here, unrun⟩ := host.bypasses _ _ n run here covers
  exact unrun (tested outcome other ending' n run here covers)

theorem right_of_not_detour {root : Node} (laidOut : root.LaidOut)
    (member : p ∈ placements loop nested root) (straight : p.detour = false) : Right root p := by
  intro outcome trace ending n run here covers
  by_contra fails
  have host := hosts_placements root laidOut loop nested p member fails
  obtain ⟨marked, -⟩ := host.bypasses _ _ n run here covers
  exact absurd (straight.symm.trans marked) Bool.false_ne_true

/-- Narrowing adds the shadows of placements and nothing else. A placement is right exactly if no
execution comes to its range with the test unrun. This is so for parts of conditionals, bodies of
loops and guarded operands, and for the rest of a loop unless the conditional stands inside a part
of another one. -/
theorem narrowing_right_iff_tested (root : Node) (laidOut : root.LaidOut) (loop : Option Range) :
    (∀ oracle locals,
      Adds oracle locals (placements loop false root) locals
        (Id.run (narrowAll oracle loop root locals))) ∧
      ∀ p ∈ placements loop false root,
        (Right root p ↔ Tested root p) ∧ (p.detour = false → Right root p) := by
  refine ⟨fun oracle locals => adds_narrowAll oracle root loop false locals, fun p member => ?_⟩
  exact ⟨⟨Right.tested, Tested.right laidOut member⟩, right_of_not_detour laidOut member⟩

section NestedLeave

/-- `foo.nil?` on line 3 -/
def nilTest : Node :=
  .send (some (.var .localVar "foo" ⟨⟨3, 13⟩, ⟨3, 16⟩⟩)) "nil?" [] ⟨⟨3, 13⟩, ⟨3, 21⟩⟩

/-- `break if foo.nil?` as the only statement of another conditional -/
def nestedBreak : Node :=
  .branch (.other ⟨⟨2, 5⟩, ⟨2, 10⟩⟩)
    (some (.branch nilTest (some (.leave ⟨⟨3, 4⟩, ⟨3, 9⟩⟩)) none ⟨⟨3, 4⟩, ⟨3, 21⟩⟩)) none
    ⟨⟨2, 2⟩, ⟨4, 5⟩⟩

/-- `foo.upcase` on line 5 -/
def laterUse : Node :=
  .send (some (.var .localVar "foo" ⟨⟨5, 2⟩, ⟨5, 5⟩⟩)) "upcase" [] ⟨⟨5, 2⟩, ⟨5, 12⟩⟩

/-- The loop of these statements. -/
def nestedLeave : Node :=
  .loop (some (.other ⟨⟨1, 6⟩, ⟨1, 10⟩⟩))
    (.sequence [nestedBreak, laterUse] ⟨⟨2, 2⟩, ⟨5, 12⟩⟩) ⟨⟨1, 0⟩, ⟨6, 3⟩⟩

/-- What the failed test tells is placed over the rest of the loop. -/
def nestedPlacement : Placement :=
  ⟨⟨⟨"foo", ⟨3, 13⟩, .notNil⟩, nilTest, false⟩, ⟨⟨3, 21⟩, ⟨6, 3⟩⟩, true⟩

theorem nestedPlacement_mem : nestedPlacement ∈ placements none false nestedLeave := by
  simp [nestedPlacement, nestedLeave, nestedBreak, nilTest, laterUse, placements, partPlacements,
    eachPlacements, branchPlacements, loopPlacements, place, scopes, guards, Node.readings,
    Readings.ofTest, Readings.nothing, Node.conditionFacts, Node.sendFacts, Node.classTests,
    Node.namedVariable?, ConditionFacts.ofTest, Node.leavesLoop]

theorem nilTest_laidOut : nilTest.LaidOut := by
  refine .intro (by decide) (by decide) (List.pairwise_singleton _ _) fun part member => ?_
  rw [List.mem_singleton.mp member]
  exact .intro (by decide) (by decide) .nil fun _ none => absurd none List.not_mem_nil

theorem laterUse_laidOut : laterUse.LaidOut := by
  refine .intro (by decide) (by decide) (List.pairwise_singleton _ _) fun part member => ?_
  rw [List.mem_singleton.mp member]
  exact .intro (by decide) (by decide) .nil fun _ none => absurd none List.not_mem_nil

theorem nestedLeave_laidOut : nestedLeave.LaidOut := by
  have plain : ∀ range : Range, range.Spans → (Node.other range).LaidOut := fun range spans =>
    .intro spans (fun _ none => absurd none List.not_mem_nil) .nil
      fun _ none => absurd none List.not_mem_nil
  have leaving : ∀ range : Range, range.Spans → (Node.leave range).LaidOut := fun range spans =>
    .intro spans (fun _ none => absurd none List.not_mem_nil) .nil
      fun _ none => absurd none List.not_mem_nil
  refine .intro (by decide) (by decide) (by show List.Pairwise _ _; decide) fun part member => ?_
  rcases List.mem_cons.mp member with rfl | member
  · exact plain _ (by decide)
  rw [List.mem_singleton.mp member]
  refine .intro (by decide) (by decide) (by show List.Pairwise _ _; decide) fun part member => ?_
  rcases List.mem_cons.mp member with rfl | member
  · refine .intro (by decide) (by decide) (by show List.Pairwise _ _; decide) fun part member => ?_
    rcases List.mem_cons.mp member with rfl | member
    · exact plain _ (by decide)
    rw [List.mem_singleton.mp member]
    refine .intro (by decide) (by decide) (by show List.Pairwise _ _; decide) fun part member => ?_
    rcases List.mem_cons.mp member with rfl | member
    · exact nilTest_laidOut
    rw [List.mem_singleton.mp member]
    exact leaving _ (by decide)
  · rw [List.mem_singleton.mp member]
    exact laterUse_laidOut

/-- Narrowing of the loop with a conditional inside another one. -/
theorem narrowing_nestedLeave : nestedLeave.LaidOut ∧
    (∀ oracle locals,
      Adds oracle locals (placements none false nestedLeave) locals
        (Id.run (narrowAll oracle none nestedLeave locals))) ∧
      ∀ p ∈ placements none false nestedLeave,
        (Right nestedLeave p ↔ Tested nestedLeave p) ∧ (p.detour = false → Right nestedLeave p) :=
  ⟨nestedLeave_laidOut, narrowing_right_iff_tested nestedLeave nestedLeave_laidOut none⟩

/-- If the outer condition fails, `foo.upcase` runs without a test of `foo`. -/
theorem not_right_nestedPlacement : nestedPlacement ∈ placements none false nestedLeave ∧
    ¬ Right nestedLeave nestedPlacement := by
  refine ⟨nestedPlacement_mem, fun right => ?_⟩
  let outcome : Node → Bool := fun _ => true
  have comesTo : ∀ (range : Range) (truth : Bool),
      (Node.other range).run outcome [.other range] (.value truth) :=
    fun _ _ => .within (.intro fun tells => absurd rfl tells)
  have skipped : nestedBreak.run outcome [nestedBreak, .other ⟨⟨2, 5⟩, ⟨2, 10⟩⟩] (.value false) :=
    .within (andThen.went (comesTo _ false) done.intro)
  have begun : (Node.runEach outcome [laterUse]) [laterUse] .unfinished := enter.here
  have statements : (Node.runEach outcome [nestedBreak, laterUse]) _ .unfinished :=
    andThen.went skipped begun
  have body : (Node.sequence [nestedBreak, laterUse] ⟨⟨2, 2⟩, ⟨5, 12⟩⟩).run outcome _ .unfinished :=
    enter.within statements
  have comes : nestedLeave.run outcome _ .unfinished :=
    enter.within (rounds.inBody (comesTo _ true) body)
  have fails : true = false := right outcome _ _ laterUse comes (by simp) (by decide)
  exact Bool.noConfusion fails

end NestedLeave

end Flow

end DuckInfer
