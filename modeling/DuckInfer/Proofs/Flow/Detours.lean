import DuckInfer.Proofs.Flow.Placement

/-!
How executions come to the range of a placement. Where the reading of a placement does not hold, an
execution comes to the range only if it can come there with the test unrun, and then the placement
is marked as a detour. This is shown from the conditional outwards, part by part.
-/

namespace DuckInfer.Flow

open Behaviour

variable {p : Placement} {start condition body : Behaviour} {next : Bool → Behaviour}

/-! ### Executions that leave a test unrun -/

/-- Whatever comes to the range of the placement can come there with the test unrun, and the
placement is marked. -/
def Bypasses (p : Placement) (b : Behaviour) : Prop :=
  ∀ trace ending n, b trace ending → n ∈ trace → p.range.covers n.range = true →
    p.detour = true ∧ ∃ other ending', b other ending' ∧ n ∈ other ∧ p.reading.test ∉ other

/-- Whatever comes to a value has left the test unrun, and the placement is marked. -/
def Skips (p : Placement) (b : Behaviour) : Prop :=
  ∀ trace truth, b trace (.value truth) → p.detour = true ∧ p.reading.test ∉ trace

/-- A statement other than the test, in the range at most if the placement is marked. -/
def Foreign (p : Placement) (n : Node) : Prop :=
  n ≠ p.reading.test ∧ (p.range.covers n.range = true → p.detour = true)

/-- A statement other than the test and not in the range. -/
def Outside (p : Placement) (n : Node) : Prop :=
  n ≠ p.reading.test ∧ ¬ p.range.covers n.range = true

theorem Outside.foreign {n : Node} (outside : Outside p n) : Foreign p n :=
  ⟨outside.1, fun covers => absurd covers outside.2⟩

theorem test_not_mem {b : Behaviour} (other : b.Only fun n => n ≠ p.reading.test)
    {trace : List Node} {ending : Ending} (run : b trace ending) : p.reading.test ∉ trace :=
  fun member => other trace ending run _ member rfl

theorem Bypasses.of_foreign {b : Behaviour} (foreign : b.Only (Foreign p)) : Bypasses p b := by
  intro trace ending n run member covers
  have unrun := test_not_mem (foreign.imp fun _ foreign => foreign.1) run
  exact ⟨(foreign trace ending run n member).2 covers, trace, ending, run, member, unrun⟩

theorem Bypasses.of_outside {b : Behaviour}
    (outside : b.Only fun n => ¬ p.range.covers n.range = true) : Bypasses p b := by
  intro trace ending n run member covers
  exact absurd covers (outside trace ending run n member)

theorem Bypasses.enter {n : Node} (own : Outside p n) (inside : Bypasses p start) :
    Bypasses p (enter n start) := by
  intro trace ending m run member covers
  cases run with
  | here =>
    rw [List.mem_singleton.mp member] at covers
    exact absurd covers own.2
  | within run =>
    rcases List.mem_cons.mp member with rfl | later
    · exact absurd covers own.2
    · obtain ⟨marked, other, ending', run, here, unrun⟩ := inside _ _ m run later covers
      refine ⟨marked, n :: other, ending', .within run, List.mem_cons_of_mem n here, ?_⟩
      exact fun test => (List.mem_cons.mp test).elim (fun same => own.1 same.symm) unrun

/-- The conditional runs first: what comes after it must not be in the range, or what runs first
skips the test. -/
theorem Bypasses.first (early : Bypasses p start)
    (late : ∀ truth, (next truth).Only fun n => n ≠ p.reading.test)
    (after : (∀ truth, (next truth).Only fun n => ¬ p.range.covers n.range = true) ∨
      Skips p start) : Bypasses p (start.andThen next) := by
  have begins : ∀ {trace : List Node} {ending : Ending} {n : Node}, start trace ending →
      n ∈ trace → p.range.covers n.range = true → p.detour = true ∧
        ∃ other ending', start.andThen next other ending' ∧ n ∈ other ∧ p.reading.test ∉ other := by
    intro trace ending n run member covers
    obtain ⟨marked, other, ending', run, here, unrun⟩ := early _ _ n run member covers
    exact ⟨marked, other, .unfinished, .unfinished run, here, unrun⟩
  intro trace ending n run member covers
  cases run with
  | unfinished run => exact begins run member covers
  | left run => exact begins run member covers
  | went run rest =>
    rcases List.mem_append.mp member with here | later
    · exact begins run here covers
    · rcases after with outside | skips
      · exact absurd covers (outside _ _ _ rest n later)
      · obtain ⟨marked, unrun⟩ := skips _ _ run
        refine ⟨marked, _, _, .went run rest, member, fun test => ?_⟩
        exact (List.mem_append.mp test).elim unrun (test_not_mem (late _) rest)

/-- The conditional runs second. -/
theorem Bypasses.second (early : start.Only (Foreign p)) (late : ∀ truth, Bypasses p (next truth)) :
    Bypasses p (start.andThen next) := by
  have unrunFirst : ∀ {trace : List Node} {ending : Ending}, start trace ending →
      p.reading.test ∉ trace :=
    test_not_mem (early.imp fun _ foreign => foreign.1)
  have begins : ∀ {trace : List Node} {ending : Ending} {n : Node}, start trace ending →
      n ∈ trace → p.range.covers n.range = true → p.detour = true ∧
        ∃ other ending', start.andThen next other ending' ∧ n ∈ other ∧ p.reading.test ∉ other := by
    intro trace ending n run member covers
    exact ⟨(early _ _ run n member).2 covers, trace, .unfinished, .unfinished run, member,
      unrunFirst run⟩
  intro trace ending n run member covers
  cases run with
  | unfinished run => exact begins run member covers
  | left run => exact begins run member covers
  | went run rest =>
    rcases List.mem_append.mp member with here | later
    · exact begins run here covers
    · obtain ⟨marked, other, ending', rest, here, unrun⟩ := late _ _ _ n rest later covers
      refine ⟨marked, _, ending', .went run rest, List.mem_append_right _ here, fun test => ?_⟩
      exact (List.mem_append.mp test).elim (unrunFirst run) unrun

/-- The conditional stands in the body of a loop: one round is enough to come to the range. -/
theorem Bypasses.rounds (tests : condition.Only (Foreign p)) (inside : Bypasses p body) :
    Bypasses p (rounds condition body) := by
  have unrunTesting : ∀ {trace : List Node} {ending : Ending}, condition trace ending →
      p.reading.test ∉ trace :=
    test_not_mem (tests.imp fun _ foreign => foreign.1)
  intro trace ending n run member covers
  rcases mem_rounds run member with ⟨early, _, tested, here⟩ | ⟨early, later, _, held, run, here⟩
  · exact ⟨(tests _ _ tested n here).2 covers, early, .unfinished, .testing tested, here,
      unrunTesting tested⟩
  · obtain ⟨marked, other, ending', run, here, unrun⟩ := inside _ _ n run here covers
    refine ⟨marked, early ++ other, .unfinished, .inBody held run, List.mem_append_right _ here,
      fun test => ?_⟩
    exact (List.mem_append.mp test).elim (unrunTesting held) unrun

/-- The operand stands in the condition of a loop. -/
theorem Bypasses.testing (tests : Bypasses p condition)
    (outside : body.Only fun n => ¬ p.range.covers n.range = true) :
    Bypasses p (Behaviour.rounds condition body) := by
  intro trace ending n run member covers
  rcases mem_rounds run member with ⟨early, _, tested, here⟩ | ⟨_, later, _, -, run, here⟩
  · obtain ⟨marked, other, ending', tested, here, unrun⟩ := tests _ _ n tested here covers
    exact ⟨marked, other, .unfinished, .testing tested, here, unrun⟩
  · exact absurd covers (outside _ _ run n here)

theorem Skips.of_marked {b : Behaviour} (marked : p.detour = true)
    (other : b.Only fun n => n ≠ p.reading.test) : Skips p b :=
  fun _ _ run => ⟨marked, test_not_mem other run⟩

theorem Skips.enter {n : Node} (own : n ≠ p.reading.test) (inside : Skips p start) :
    Skips p (Behaviour.enter n start) := by
  intro trace truth run
  cases run with
  | within run =>
    obtain ⟨marked, unrun⟩ := inside _ _ run
    refine ⟨marked, fun test => ?_⟩
    exact (List.mem_cons.mp test).elim (fun same => own same.symm) unrun

theorem Skips.first (early : Skips p start)
    (late : ∀ truth, (next truth).Only fun n => n ≠ p.reading.test) :
    Skips p (start.andThen next) := by
  intro trace truth run
  cases run with
  | went run rest =>
    obtain ⟨marked, unrun⟩ := early _ _ run
    refine ⟨marked, fun test => ?_⟩
    exact (List.mem_append.mp test).elim unrun (test_not_mem (late _) rest)

theorem Skips.second (early : start.Only fun n => n ≠ p.reading.test)
    (late : ∀ truth, Skips p (next truth)) : Skips p (start.andThen next) := by
  intro trace truth run
  cases run with
  | went run rest =>
    obtain ⟨marked, unrun⟩ := late _ _ _ rest
    refine ⟨marked, fun test => ?_⟩
    exact (List.mem_append.mp test).elim (test_not_mem early run) unrun

end DuckInfer.Flow
