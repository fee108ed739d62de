import DuckInfer.Proofs.Flow.Detours

/-!
Placements inside the statements of a text. A statement hosts a placement if it contains the test
and executions of it bypass the test as `Bypasses` says; a whole hosts what a part of it hosts. Main
statement: a condition hosts the placements over its guarded operands whose reading does not hold.
-/

namespace DuckInfer

namespace Flow

open Behaviour

variable {outcome : Node → Bool} {loop : Option Range} {nested : Bool} {p : Placement}
  {n part : Node}

/-! ### Where a placement stands -/

/-- The test stands in the statement. -/
structure Home (test n : Node) : Prop where
  covers : n.range.covers test.range = true
  spans : test.range.Spans
  size : sizeOf test ≤ sizeOf n

/-- The range lies in the statement, or in the column before it, and is not all of it. -/
structure Confined (p : Placement) (n : Node) : Prop where
  inside : n.coverage.covers p.range = true
  proper : ¬ p.range.covers n.range = true

/-- The range begins in the statement and goes on to the end of the enclosing loop. -/
structure Open (p : Placement) (loop : Option Range) (nested : Bool) (n : Node) : Prop where
  start : n.range.start < p.range.start
  within : p.range.start ≤ n.range.stop
  stop : ∃ l, loop = some l ∧ p.range.stop = l.stop
  marked : nested = true → p.detour = true

/-- The statement contains the test of the placement, and its executions bypass the test. -/
structure Hosts (outcome : Node → Bool) (loop : Option Range) (nested : Bool) (p : Placement)
    (n : Node) : Prop where
  home : Home p.reading.test n
  bypasses : Bypasses p (n.run outcome)
  reach : Confined p n ∨ Open p loop nested n ∧ Skips p (n.run outcome)

theorem Home.lift {test : Node} (home : Home test part) (laidOut : n.LaidOut)
    (child : part ∈ n.children) : Home test n where
  covers := Range.covers_trans (laidOut.covers part child) home.covers
  spans := home.spans
  size := Nat.le_of_lt (Nat.lt_of_le_of_lt home.size (Node.sizeOf_child child))

theorem Home.ne {test : Node} (home : Home test part) (child : part ∈ n.children) : n ≠ test := by
  rintro rfl
  exact absurd (Nat.lt_of_le_of_lt home.size (Node.sizeOf_child child)) (Nat.lt_irrefl _)

theorem Confined.lift (confined : Confined p part) (laidOut : n.LaidOut)
    (child : part ∈ n.children) : Confined p n where
  inside := Range.covers_trans
    (Range.withColumnBefore_covers (laidOut.covers part child)) confined.inside
  proper := fun covers => confined.proper (Range.covers_trans covers (laidOut.covers part child))

theorem Open.lift (opened : Open p loop nested part) (laidOut : n.LaidOut)
    (child : part ∈ n.children) : Open p loop nested n := by
  have covers := Range.covers_iff.mp (laidOut.covers part child)
  exact ⟨covers.1.1.trans_lt opened.start, opened.within.trans covers.2.2, opened.stop,
    opened.marked⟩

theorem Open.not_covers (opened : Open p loop nested n) : ¬ p.range.covers n.range = true := by
  intro covers
  exact absurd (opened.start.trans_le (Range.covers_iff.mp covers).1.1) (lt_irrefl _)

/-- At the loop the range ends too. -/
theorem Open.confined (opened : Open p (some n.range) nested n) : Confined p n := by
  refine ⟨?_, opened.not_covers⟩
  obtain ⟨start, within, ⟨l, same, stop⟩, -⟩ := opened
  rw [← Option.some.inj same] at stop
  have begins : n.coverage.start ≤ p.range.start :=
    (Position.previousColumn_le n.range.start).trans start.le
  rw [Range.covers_iff, stop]
  exact ⟨⟨begins, within⟩, begins.trans within, le_refl _⟩

/-! ### Statements apart from the host -/

theorem Home.only_ne {test other : Node} (home : Home test part) (laidOut : other.LaidOut)
    (apart : other.range.Apart part.range) : (other.run outcome).Only fun m => m ≠ test := by
  intro trace ending run m member
  rintro rfl
  exact apart.not_covers home.covers (laidOut.run_inside outcome _ _ run m member).1

theorem Confined.only_not_covers {other : Node} (confined : Confined p part)
    (laidOut : other.LaidOut) (apart : other.range.Apart part.range) :
    (other.run outcome).Only fun m => ¬ p.range.covers m.range = true := by
  intro trace ending run m member covers
  obtain ⟨inside, spans⟩ := laidOut.run_inside outcome _ _ run m member
  exact (apart.mono inside).not_withColumnBefore_covers spans
    (Range.covers_trans confined.inside covers)

theorem Open.only_not_covers {other : Node} (opened : Open p loop nested part)
    (laidOut : other.LaidOut) (before : other.range.Before part.range) :
    (other.run outcome).Only fun m => ¬ p.range.covers m.range = true := by
  intro trace ending run m member covers
  have inside := Range.covers_iff.mp (laidOut.run_inside outcome _ _ run m member).1
  have behind : m.range.start < p.range.start :=
    inside.1.2.trans_lt (before.trans opened.start)
  exact absurd (behind.trans_le (Range.covers_iff.mp covers).1.1) (lt_irrefl _)

/-- What runs before the host does not come to the range. -/
theorem Hosts.only_outside {other : Node} (host : Hosts outcome loop nested p part)
    (laidOut : other.LaidOut) (before : other.range.Before part.range) :
    (other.run outcome).Only (Outside p) := by
  have ne : (other.run outcome).Only fun m => m ≠ p.reading.test :=
    host.home.only_ne laidOut before.apart
  have outside : (other.run outcome).Only fun m => ¬ p.range.covers m.range = true := by
    rcases host.reach with confined | ⟨opened, -⟩
    · exact confined.only_not_covers laidOut before.apart
    · exact opened.only_not_covers laidOut before
  exact fun trace ending run m member =>
    ⟨ne trace ending run m member, outside trace ending run m member⟩

/-- What stands apart from a host in a part of a conditional comes to the range only as a detour. -/
theorem Hosts.only_foreign {other : Node} (host : Hosts outcome loop true p part)
    (laidOut : other.LaidOut) (apart : other.range.Apart part.range) :
    (other.run outcome).Only (Foreign p) := by
  have ne : (other.run outcome).Only fun m => m ≠ p.reading.test :=
    host.home.only_ne laidOut apart
  intro trace ending run m member
  refine ⟨ne trace ending run m member, fun covers => ?_⟩
  rcases host.reach with confined | ⟨opened, -⟩
  · exact absurd covers (confined.only_not_covers laidOut apart trace ending run m member)
  · exact opened.marked rfl

theorem Hosts.outside (host : Hosts outcome loop nested p part) (laidOut : n.LaidOut)
    (child : part ∈ n.children) : Outside p n := by
  refine ⟨host.home.ne child, ?_⟩
  rcases host.reach with confined | ⟨opened, -⟩
  · exact (confined.lift laidOut child).proper
  · exact (opened.lift laidOut child).not_covers

/-! ### From a part to the whole -/

/-- A statement hosts what a part of it hosts, if its executions bypass the test too. -/
theorem Hosts.lift {loop' : Option Range} {nested' : Bool} {inside : Behaviour}
    (host : Hosts outcome loop nested p part) (laidOut : n.LaidOut) (child : part ∈ n.children)
    (run : n.run outcome = enter n inside) (bypasses : Bypasses p inside)
    (reach : Confined p part ∨ Open p loop' nested' part ∧ Skips p inside) :
    Hosts outcome loop' nested' p n where
  home := host.home.lift laidOut child
  bypasses := by
    rw [run]
    exact bypasses.enter (host.outside laidOut child)
  reach := by
    rcases reach with confined | ⟨opened, skips⟩
    · exact Or.inl (confined.lift laidOut child)
    · refine Or.inr ⟨opened.lift laidOut child, ?_⟩
      rw [run]
      exact skips.enter (host.outside laidOut child).1

/-- What runs after the host leaves the test unrun, and is in the range only after a detour. -/
theorem Hosts.first {next : Bool → Behaviour} (host : Hosts outcome loop nested p part)
    (ne : ∀ truth, (next truth).Only fun m => m ≠ p.reading.test)
    (outside : Confined p part →
      ∀ truth, (next truth).Only fun m => ¬ p.range.covers m.range = true) :
    Bypasses p ((part.run outcome).andThen next) ∧
      (Confined p part ∨ Open p loop nested part ∧ Skips p ((part.run outcome).andThen next)) := by
  rcases host.reach with confined | ⟨opened, skips⟩
  · exact ⟨host.bypasses.first ne (Or.inl (outside confined)), Or.inl confined⟩
  · exact ⟨host.bypasses.first ne (Or.inr skips), Or.inr ⟨opened, skips.first ne⟩⟩

/-- Statements that run one after the other bypass the test if one of them hosts it. -/
theorem Hosts.each {ns : List Node} (ordered : ns.Pairwise fun a b => a.range.Before b.range)
    (laidOut : ∀ m ∈ ns, m.LaidOut) (member : part ∈ ns)
    (host : Hosts outcome loop nested p part) :
    Bypasses p (Node.runEach outcome ns) ∧
      (Confined p part ∨ Open p loop nested part ∧ Skips p (Node.runEach outcome ns)) := by
  induction ns with
  | nil => exact absurd member List.not_mem_nil
  | cons n ns ih =>
    obtain ⟨before, ordered⟩ := List.pairwise_cons.mp ordered
    have later := fun m member => laidOut m (List.mem_cons_of_mem n member)
    cases ns with
    | nil =>
      obtain rfl := List.mem_singleton.mp member
      exact ⟨host.bypasses, host.reach⟩
    | cons m ns =>
      rcases List.mem_cons.mp member with rfl | member
      · refine host.first (fun _ => Node.runEach_only fun other listed => ?_)
          fun confined _ => Node.runEach_only fun other listed => ?_
        · exact host.home.only_ne (later other listed) (before other listed).apart.symm
        · exact confined.only_not_covers (later other listed) (before other listed).apart.symm
      · obtain ⟨bypasses, reach⟩ := ih ordered later member
        have outside := host.only_outside (laidOut n List.mem_cons_self) (before part member)
        refine ⟨Bypasses.second (outside.imp fun _ => Outside.foreign) fun _ => bypasses, ?_⟩
        rcases reach with confined | ⟨opened, skips⟩
        · exact Or.inl confined
        · exact Or.inr ⟨opened, Skips.second (outside.imp fun _ out => out.1) fun _ => skips⟩

/-! ### Readings of a condition -/

theorem told_home {n : Node} (laidOut : n.LaidOut) :
    ∀ truth, ∀ reading ∈ n.readings.told truth, Home reading.test n := by
  induction n using Node.condition_induction with
  | test n test =>
    intro truth reading member
    rw [test.readings_eq] at member
    obtain ⟨rfl, -, -⟩ := Readings.mem_ofTest member
    exact ⟨Range.covers_refl laidOut.spans, laidOut.spans, Nat.le_refl _⟩
  | nothing n same _ =>
    intro truth reading member
    rw [same] at member
    cases truth <;> exact absurd member List.not_mem_nil
  | not operand range ih =>
    intro truth reading member
    have child : operand ∈ (Node.not operand range).children := List.mem_cons_self
    refine (ih (laidOut.part _ child) (!truth) reading ?_).lift laidOut child
    cases truth <;> exact member
  | and lhs rhs range left right =>
    intro truth reading member
    have first : lhs ∈ (Node.and lhs rhs range).children := List.mem_cons_self
    have second : rhs ∈ (Node.and lhs rhs range).children := by simp [Node.children]
    cases truth with
    | false => exact absurd member List.not_mem_nil
    | true =>
      rcases List.mem_append.mp member with ofLeft | ofRight
      · exact (left (laidOut.part _ first) true reading ofLeft).lift laidOut first
      · exact (right (laidOut.part _ second) true reading ofRight).lift laidOut second
  | or lhs rhs range left right =>
    intro truth reading member
    have first : lhs ∈ (Node.or lhs rhs range).children := List.mem_cons_self
    have second : rhs ∈ (Node.or lhs rhs range).children := by simp [Node.children]
    cases truth with
    | true => exact absurd member List.not_mem_nil
    | false =>
      rcases List.mem_append.mp member with ofLeft | ofRight
      · exact (left (laidOut.part _ first) false reading ofLeft).lift laidOut first
      · exact (right (laidOut.part _ second) false reading ofRight).lift laidOut second
  | only statement range ih =>
    intro truth reading member
    have child : statement ∈ (Node.sequence [statement] range).children := List.mem_cons_self
    exact (ih (laidOut.part _ child) truth reading member).lift laidOut child

/-- What a condition guards runs only if the condition came to the value that the reading is for. -/
theorem guarded_only_not_covers {condition guarded : Node} {next : Bool → Behaviour} {truth : Bool}
    {reading : Reading} (apart : condition.range.Apart guarded.range) (laidOut : condition.LaidOut)
    (others : ∀ value, value ≠ truth →
      (next value).Only fun m => ¬ guarded.coverage.covers m.range = true)
    (listed : reading ∈ condition.readings.told truth) (fails : ¬ reading.Holds outcome) :
    ((condition.run outcome).andThen next).Only
      fun m => ¬ guarded.coverage.covers m.range = true := by
  have early : (condition.run outcome).Only fun m => ¬ guarded.coverage.covers m.range = true := by
    intro trace ending run m member
    obtain ⟨inside, spans⟩ := laidOut.run_inside outcome _ _ run m member
    exact (apart.mono inside).not_withColumnBefore_covers spans
  intro trace ending run m member
  cases run with
  | unfinished run => exact early _ _ run m member
  | left run => exact early _ _ run m member
  | @went _ _ value _ run rest =>
    by_cases same : value = truth
    · subst same
      exact absurd (condition.holds_of_run run reading listed) fails
    · rcases List.mem_append.mp member with here | later
      · exact early _ _ run m here
      · exact others value same _ _ rest m later

/-- Outside of loops there is no rest of a loop. -/
theorem Hosts.confined (host : Hosts outcome none nested p n) : Confined p n := by
  rcases host.reach with confined | ⟨⟨_, _, ⟨_, none, _⟩, _⟩, _⟩
  · exact confined
  · exact absurd none (by simp)

/-- The operands of `&&` and `||`: the right one runs if the left one comes to `truth`. -/
theorem hosts_operands {lhs rhs : Node} (truth : Bool) (laidOut : n.LaidOut)
    (children : n.children = [lhs, rhs]) (ordered : lhs.range.Before rhs.range)
    (run : n.run outcome = enter n ((lhs.run outcome).andThen fun value =>
      if value = truth then rhs.run outcome else done value))
    (left : p ∈ guards lhs → Hosts outcome none false p lhs)
    (right : p ∈ guards rhs → Hosts outcome none false p rhs)
    (member : p ∈ guards lhs ++ guards rhs ++
      place (lhs.readings.told truth) [(rhs.coverage, false)])
    (fails : ¬ p.reading.Holds outcome) : Hosts outcome none false p n := by
  have first : lhs ∈ n.children := by
    rw [children]
    exact List.mem_cons_self
  have second : rhs ∈ n.children := by
    rw [children]
    exact List.mem_cons_of_mem _ (List.mem_singleton_self _)
  have ofLeft := laidOut.part lhs first
  have ofRight := laidOut.part rhs second
  rcases List.mem_append.mp member with member | own
  · rcases List.mem_append.mp member with member | member
    · have host := left member
      have later : ∀ {q : Node → Prop}, (rhs.run outcome).Only q → ∀ value,
          (if value = truth then rhs.run outcome else done value).Only q := by
        intro q only value
        split
        · exact only
        · exact Only.done value
      obtain ⟨bypasses, reach⟩ := host.first
        (later (host.home.only_ne ofRight ordered.apart.symm))
        fun confined => later (confined.only_not_covers ofRight ordered.apart.symm)
      exact host.lift laidOut first run bypasses reach
    · have host := right member
      have outside := host.only_outside ofLeft ordered
      refine host.lift laidOut second run (Bypasses.second (outside.imp fun _ => Outside.foreign)
        fun value => ?_) (Or.inl host.confined)
      split
      · exact host.bypasses
      · exact Bypasses.of_outside (Only.done value)
  · obtain ⟨listed, scope⟩ := mem_place.mp own
    obtain ⟨range, detour⟩ := Prod.mk.inj (List.mem_singleton.mp scope)
    have outside : ((lhs.run outcome).andThen fun value =>
        if value = truth then rhs.run outcome else done value).Only
          fun m => ¬ rhs.coverage.covers m.range = true := by
      refine guarded_only_not_covers ordered.apart ofLeft (fun value other => ?_) listed fails
      rw [if_neg other]
      exact Only.done value
    have proper : ¬ rhs.coverage.covers n.range = true := fun covers =>
      ordered.apart.symm.not_withColumnBefore_covers ofLeft.spans
        (Range.covers_trans covers (laidOut.covers lhs first))
    have ne := (told_home ofLeft truth p.reading listed).ne first
    refine ⟨(told_home ofLeft truth p.reading listed).lift laidOut first, ?_, Or.inl ⟨?_, ?_⟩⟩
    · rw [run]
      exact (Bypasses.of_outside (range ▸ outside)).enter ⟨ne, range ▸ proper⟩
    · rw [range]
      exact Range.withColumnBefore_covers (laidOut.covers rhs second)
    · rw [range]
      exact proper

/-- A condition hosts the placements of what guards its operands. -/
theorem hosts_guards (laidOut : n.LaidOut) (member : p ∈ guards n)
    (fails : ¬ p.reading.Holds outcome) : Hosts outcome none false p n := by
  induction n using Node.condition_induction with
  | test n test =>
    rw [guards, test.readings_eq] at member
    exact absurd member List.not_mem_nil
  | nothing n same _ =>
    rw [guards, same] at member
    exact absurd member List.not_mem_nil
  | not operand range ih =>
    have child : operand ∈ (Node.not operand range).children := List.mem_cons_self
    have host := ih (laidOut.part _ child) member
    obtain ⟨bypasses, reach⟩ := host.first (fun truth => Only.done !truth)
      fun _ truth => Only.done !truth
    exact host.lift laidOut child rfl bypasses reach
  | and lhs rhs range left right =>
    have first : lhs ∈ (Node.and lhs rhs range).children := List.mem_cons_self
    have second : rhs ∈ (Node.and lhs rhs range).children := by simp [Node.children]
    have ordered : lhs.range.Before rhs.range := by
      simpa [Node.Arranged, Node.children] using laidOut.arranged
    refine hosts_operands true laidOut rfl ordered ?_ (left (laidOut.part _ first))
      (right (laidOut.part _ second)) ?_ fails
    · simp only [Node.run]
      congr 2
      funext value
      cases value <;> rfl
    · rwa [guards_and] at member
  | or lhs rhs range left right =>
    have first : lhs ∈ (Node.or lhs rhs range).children := List.mem_cons_self
    have second : rhs ∈ (Node.or lhs rhs range).children := by simp [Node.children]
    have ordered : lhs.range.Before rhs.range := by
      simpa [Node.Arranged, Node.children] using laidOut.arranged
    refine hosts_operands false laidOut rfl ordered ?_ (left (laidOut.part _ first))
      (right (laidOut.part _ second)) ?_ fails
    · simp only [Node.run]
      congr 2
      funext value
      cases value <;> rfl
    · rwa [guards_or] at member
  | only statement range ih =>
    have child : statement ∈ (Node.sequence [statement] range).children := List.mem_cons_self
    have host := ih (laidOut.part _ child) member
    exact host.lift laidOut child rfl host.bypasses (Or.inl host.confined)

end Flow

end DuckInfer
