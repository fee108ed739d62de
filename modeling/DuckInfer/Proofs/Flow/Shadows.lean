import DuckInfer.Flow.Narrowing
import DuckInfer.Proofs.Flow.Layout
import Mathlib.Tactic.Choose

/-!
What narrowing adds to the locals. It takes one fact after the other, so what holds of the step for
one fact, and of two steps in a row, holds of it as a whole. Beside it stands a walk that keeps the
range of the enclosing loop along with the locals and changes it on the way. Main statement: the
walk appends derived locals of known type, each of which stands for one of the locals, and leaves
with the range that it came with.
-/

namespace DuckInfer.Flow

/-! ### Steps on the locals -/

/-- A property of steps on the locals that holds of narrowing by one fact and is kept when steps
follow each other. -/
structure StepProperty {m : Type → Type} [Monad m] (oracle : Oracle m)
    (p : (List Pin → m (List Pin)) → Prop) : Prop where
  stay : p fun locals => return locals
  andThen : ∀ {first second : List Pin → m (List Pin)}, p first → p second →
    p fun locals => first locals >>= second
  fact : ∀ fact ranges, p fun locals => shadowFact oracle locals fact ranges

namespace StepProperty

variable {m : Type → Type} [Monad m] {oracle : Oracle m} {p : (List Pin → m (List Pin)) → Prop}
  (steps : StepProperty oracle p)

include steps

theorem foldlM {α : Type} {step : List Pin → α → m (List Pin)}
    (each : ∀ a, p fun locals => step locals a) (as : List α) :
    p fun locals => as.foldlM step locals := by
  induction as with
  | nil => exact steps.stay
  | cons a as ih => exact steps.andThen (each a) ih

theorem shadowFacts (facts : List Fact) (ranges : List Range) :
    p fun locals => Flow.shadowFacts oracle locals facts ranges := by
  unfold Flow.shadowFacts
  split
  · exact steps.stay
  · exact steps.foldlM (fun fact => steps.fact fact ranges) facts

theorem shadowGuarded (guarded : List (Fact × Range)) :
    p fun locals => Flow.shadowGuarded oracle locals guarded := by
  unfold Flow.shadowGuarded
  refine steps.foldlM (fun entry => ?_) guarded
  exact steps.shadowFacts [entry.1] [entry.2]

theorem narrowBranch (loop : Option Range) (n : Node) :
    p fun locals => Flow.narrowBranch oracle loop locals n := by
  cases n with
  | branch condition thenPart elsePart range =>
    exact steps.andThen (steps.shadowFacts _ _)
      (steps.andThen (steps.shadowFacts _ _) (steps.shadowGuarded _))
  | _ => exact steps.stay

theorem narrowLoop (condition : Option Node) (body : Node) :
    p fun locals => Flow.narrowLoop oracle locals condition body := by
  cases condition with
  | none => exact steps.stay
  | some condition => exact steps.andThen (steps.shadowFacts _ _) (steps.shadowGuarded _)

theorem narrowPart {loop : Option Range} {part : Option Node}
    (each : ∀ n ∈ part, p (narrowAll oracle loop n)) : p (Flow.narrowPart oracle loop part) := by
  cases part with
  | none => exact steps.stay
  | some n => exact each n rfl

theorem narrowEach {loop : Option Range} {ns : List Node}
    (each : ∀ n ∈ ns, p (narrowAll oracle loop n)) : p (Flow.narrowEach oracle loop ns) := by
  induction ns with
  | nil => exact steps.stay
  | cons n ns ih =>
    exact steps.andThen (each n List.mem_cons_self)
      (ih fun other member => each other (List.mem_cons_of_mem n member))

/-- The property holds of narrowing by all conditionals in a statement. -/
theorem narrowAll (n : Node) : ∀ loop, p (Flow.narrowAll oracle loop n) := by
  induction n using Node.induction with
  | branch condition thenPart elsePart range _ ofThen ofElse =>
    intro loop
    exact steps.andThen (steps.narrowBranch loop (.branch condition thenPart elsePart range))
      (steps.andThen (steps.narrowPart fun n here => ofThen n here loop)
        (steps.narrowPart fun n here => ofElse n here loop))
  | loop condition body range _ ofBody =>
    exact fun _ => steps.andThen (steps.narrowLoop condition body) (ofBody (some range))
  | and lhs rhs range _ _ => exact fun _ => steps.shadowGuarded _
  | or lhs rhs range _ _ => exact fun _ => steps.shadowGuarded _
  | not operand range ih => exact ih
  | send receiver method arguments range ofReceiver ofArguments =>
    intro loop
    exact steps.andThen (steps.narrowPart fun n here => ofReceiver n here loop)
      (steps.narrowEach fun n here => ofArguments n here loop)
  | sequence statements range each =>
    exact fun loop => steps.narrowEach fun n here => each n here loop
  | var kind name range => exact fun _ => steps.stay
  | const scope name range _ => exact fun _ => steps.stay
  | leave range => exact fun _ => steps.stay
  | other range => exact fun _ => steps.stay

end StepProperty

/-! ### Shadows of known type -/

/-- A derived local with a range and a known type that has the name, closure, location and comments
of another pin. -/
structure StandsFor (pin base : Pin) : Prop where
  name : pin.name = base.name
  closure : pin.closure = base.closure
  location : pin.location = base.location
  comments : pin.comments = base.comments
  derived : ∃ t range, pin.kind = .variable .localVar ⟨some t, none, some range, true⟩ ∧
    t.isUndefined = false

theorem standsFor_narrowed (base : Pin) {t : Ty} (known : t.isUndefined = false) (range : Range) :
    StandsFor (base.narrowed t range) base :=
  ⟨rfl, rfl, rfl, rfl, t, range, rfl, known⟩

theorem StandsFor.trans {pin shadow base : Pin} (stands : StandsFor pin shadow)
    (stands' : StandsFor shadow base) : StandsFor pin base :=
  ⟨stands.name.trans stands'.name, stands.closure.trans stands'.closure,
    stands.location.trans stands'.location, stands.comments.trans stands'.comments, stands.derived⟩

/-- Pins that each stand for one of the locals. -/
abbrev ShadowsOf (locals : List Pin) :=
  { shadows : List Pin // ∀ pin ∈ shadows, ∃ base ∈ locals, StandsFor pin base }

namespace ShadowsOf

variable {locals : List Pin}

def none : ShadowsOf locals :=
  ⟨[], fun _ listed => absurd listed List.not_mem_nil⟩

/-- A later shadow may stand for an earlier one, and so for what that stands for. -/
def append (early : ShadowsOf locals) (late : ShadowsOf (locals ++ early.1)) : ShadowsOf locals :=
  ⟨early.1 ++ late.1, by
    intro pin listed
    rcases List.mem_append.mp listed with listed | listed
    · exact early.2 pin listed
    · obtain ⟨shadow, found, stands⟩ := late.2 pin listed
      rcases List.mem_append.mp found with found | found
      · exact ⟨shadow, found, stands⟩
      · obtain ⟨base, found, stands'⟩ := early.2 shadow found
        exact ⟨base, found, stands.trans stands'⟩⟩

/-- The shadows of a local over some ranges, if the type is known. -/
def spanning {base : Pin} (listed : base ∈ locals) (ranges : List Range) (t : Ty) :
    ShadowsOf locals :=
  if known : t.isUndefined = false then
    ⟨ranges.map fun range => base.narrowed t range, by
      intro pin made
      obtain ⟨range, -, rfl⟩ := List.mem_map.mp made
      exact ⟨base, listed, standsFor_narrowed base known range⟩⟩
  else none

end ShadowsOf

variable {m : Type → Type} [Monad m]

/-- The step finds shadows of the locals, appends them and does nothing else to the locals. -/
def AddsShadows (step : List Pin → m (List Pin)) : Prop :=
  ∀ locals, ∃ shadows : m (ShadowsOf locals), step locals = (locals ++ ·.1) <$> shadows

section

variable [LawfulMonad m] (oracle : Oracle m)

theorem AddsShadows.stay : AddsShadows (m := m) fun locals => return locals := by
  intro locals
  refine ⟨return .none, ?_⟩
  rw [map_pure, ShadowsOf.none, List.append_nil]

theorem AddsShadows.andThen {first second : List Pin → m (List Pin)} (early : AddsShadows first)
    (late : AddsShadows second) : AddsShadows fun locals => first locals >>= second := by
  intro locals
  obtain ⟨shadows, begun⟩ := early locals
  choose more ended using fun found : ShadowsOf locals => late (locals ++ found.1)
  refine ⟨shadows >>= fun found => found.append <$> more found, ?_⟩
  simp only [begun, bind_map_left, ended, map_bind, Functor.map_map, ShadowsOf.append,
    List.append_assoc]

theorem addsShadows_shadowFact (fact : Fact) (ranges : List Range) :
    AddsShadows fun locals => shadowFact oracle locals fact ranges := by
  intro locals
  show ∃ shadows : m (ShadowsOf locals), shadowFact oracle locals fact ranges = _
  unfold shadowFact
  cases found : governing? locals fact.name fact.tested with
  | none => exact AddsShadows.stay (m := m) locals
  | some base =>
    have listed : base ∈ locals := List.mem_of_find?_eq_some found
    refine ⟨ShadowsOf.spanning listed ranges <$> narrowedTy oracle locals base fact.predicate, ?_⟩
    rw [Functor.map_map, map_eq_pure_bind]
    refine bind_congr fun t => ?_
    unfold ShadowsOf.spanning
    by_cases unknown : t.isUndefined = true
    · rw [if_pos unknown, dif_neg (by simp [unknown]), ShadowsOf.none, List.append_nil]
    · rw [if_neg unknown, dif_pos (by simpa using unknown)]

theorem addsShadows : StepProperty oracle AddsShadows :=
  ⟨.stay, .andThen, addsShadows_shadowFact oracle⟩

end

/-! ### The walk with its loop -/

/-- What a walk over statements works on: the locals, and the range of the loop that a break
leaves. -/
structure Walk where
  locals : List Pin
  loop : Option Range

namespace Walk

/-- The conditional at the top of a statement. -/
def throughBranch (oracle : Oracle m) (n : Node) (w : Walk) : m Walk := do
  let locals ← narrowBranch oracle w.loop w.locals n
  return { w with locals := locals }

/-- The operands of a condition that stands for itself. -/
def throughOperands (oracle : Oracle m) (n : Node) (w : Walk) : m Walk := do
  let locals ← narrowOperands oracle w.locals n
  return { w with locals := locals }

mutual

/-- The walk through a statement. The range of a loop takes the place of the one around it, and that
comes back behind the body. -/
def through (oracle : Oracle m) : Node → Walk → m Walk
  | .branch condition thenPart elsePart range, w => do
    let w ← throughBranch oracle (.branch condition thenPart elsePart range) w
    let w ← throughPart oracle thenPart w
    throughPart oracle elsePart w
  | .loop condition body range, w => do
    let outer := w.loop
    let locals ← narrowLoop oracle w.locals condition body
    let w ← through oracle body ⟨locals, some range⟩
    return { w with loop := outer }
  | .and lhs rhs range, w => throughOperands oracle (.and lhs rhs range) w
  | .or lhs rhs range, w => throughOperands oracle (.or lhs rhs range) w
  | .not operand _, w => through oracle operand w
  | .send receiver _ arguments _, w => do
    let w ← throughPart oracle receiver w
    throughEach oracle arguments w
  | .sequence statements _, w => throughEach oracle statements w
  | .var _ _ _, w | .const _ _ _, w | .leave _, w | .other _, w => return w

def throughPart (oracle : Oracle m) : Option Node → Walk → m Walk
  | none, w => return w
  | some n, w => through oracle n w

def throughEach (oracle : Oracle m) : List Node → Walk → m Walk
  | [], w => return w
  | n :: ns, w => do
    let w ← through oracle n w
    throughEach oracle ns w

end

variable [LawfulMonad m] {oracle : Oracle m}

/-- The walk with other locals, found with effects. -/
def withLocals (loop : Option Range) (locals : m (List Pin)) : m Walk :=
  (fun locals => ⟨locals, loop⟩) <$> locals

theorem throughPart_eq {part : Option Node}
    (each : ∀ n ∈ part, ∀ w : Walk,
      through oracle n w = withLocals w.loop (narrowAll oracle w.loop n w.locals)) (w : Walk) :
    throughPart oracle part w = withLocals w.loop (narrowPart oracle w.loop part w.locals) := by
  cases part with
  | none => simp [throughPart, narrowPart, withLocals]
  | some n => exact each n rfl w

theorem throughEach_eq {ns : List Node}
    (each : ∀ n ∈ ns, ∀ w : Walk,
      through oracle n w = withLocals w.loop (narrowAll oracle w.loop n w.locals)) (w : Walk) :
    throughEach oracle ns w = withLocals w.loop (narrowEach oracle w.loop ns w.locals) := by
  induction ns generalizing w with
  | nil => simp [throughEach, narrowEach, withLocals]
  | cons n ns ih =>
    have rest := ih fun other member => each other (List.mem_cons_of_mem n member)
    simp only [throughEach, narrowEach, each n List.mem_cons_self, rest, withLocals, bind_map_left,
      map_bind]

/-- The walk narrows the locals by the loop that it came with, and leaves with that loop. -/
theorem through_eq (n : Node) : ∀ w : Walk,
    through oracle n w = withLocals w.loop (narrowAll oracle w.loop n w.locals) := by
  induction n using Node.induction with
  | branch condition thenPart elsePart range _ ofThen ofElse =>
    intro w
    simp only [through, narrowAll, throughBranch, throughPart_eq ofThen, throughPart_eq ofElse,
      withLocals, bind_assoc, pure_bind, bind_map_left, map_bind]
  | loop condition body range _ ofBody =>
    intro w
    simp only [through, narrowAll, ofBody, withLocals, map_eq_pure_bind, bind_assoc, pure_bind]
  | and lhs rhs range _ _ =>
    intro w
    simp only [through, narrowAll, throughOperands, withLocals, map_eq_pure_bind]
  | or lhs rhs range _ _ =>
    intro w
    simp only [through, narrowAll, throughOperands, withLocals, map_eq_pure_bind]
  | not operand range ih => exact ih
  | send receiver method arguments range ofReceiver ofArguments =>
    intro w
    simp only [through, narrowAll, throughPart_eq ofReceiver, throughEach_eq ofArguments,
      withLocals, bind_map_left, map_bind]
  | sequence statements range each => exact throughEach_eq each
  | var kind name range =>
    intro w
    simp only [through, narrowAll, withLocals, map_pure]
  | const scope name range _ =>
    intro w
    simp only [through, narrowAll, withLocals, map_pure]
  | leave range =>
    intro w
    simp only [through, narrowAll, withLocals, map_pure]
  | other range =>
    intro w
    simp only [through, narrowAll, withLocals, map_pure]

/-- Walking through a statement, a conditional or operands appends shadows to the locals: derived
locals of known type with a range, each with the name, closure, location and comments of one of the
locals. The walk leaves with the loop that it came with, and narrows as if this were the enclosing
loop all the time. -/
theorem through_addsShadows (oracle : Oracle m) (n : Node) (w : Walk) :
    (∃ shadows : m (ShadowsOf w.locals),
        through oracle n w = (fun found => ⟨w.locals ++ found.1, w.loop⟩) <$> shadows) ∧
      (∃ shadows : m (ShadowsOf w.locals),
        throughBranch oracle n w = (fun found => ⟨w.locals ++ found.1, w.loop⟩) <$> shadows) ∧
      (∃ shadows : m (ShadowsOf w.locals),
        throughOperands oracle n w = (fun found => ⟨w.locals ++ found.1, w.loop⟩) <$> shadows) ∧
      through oracle n w = withLocals w.loop (narrowAll oracle w.loop n w.locals) := by
  have steps := addsShadows oracle
  have lift : ∀ {step : List Pin → m (List Pin)}, AddsShadows step →
      ∃ shadows : m (ShadowsOf w.locals), withLocals w.loop (step w.locals) =
        (fun found => ⟨w.locals ++ found.1, w.loop⟩) <$> shadows := by
    intro step adds
    obtain ⟨shadows, found⟩ := adds w.locals
    exact ⟨shadows, by rw [withLocals, found, Functor.map_map]⟩
  refine ⟨?_, ?_, ?_, through_eq n w⟩
  · rw [through_eq]
    exact lift (steps.narrowAll n w.loop)
  · rw [throughBranch, ← map_eq_pure_bind]
    exact lift (steps.narrowBranch w.loop n)
  · rw [throughOperands, ← map_eq_pure_bind]
    exact lift (steps.shadowGuarded n.conditionFacts.guarded)

section NestedLoops

/-- A local `foo` of type `String, nil` on lines 1 to 9. -/
def nilableFoo : Pin :=
  .make "foo" (some .root)
    (.variable .localVar ⟨some (.ofTag "String, nil"), none, some ⟨⟨1, 0⟩, ⟨9, 3⟩⟩, false⟩)

/-- `loop do loop do break if foo.nil? … end; break if foo.nil? … end` on lines 1 to 9, with the
inner loop on lines 2 to 5. -/
def nestedLoops : Node :=
  let leaveIfNil (line : Nat) : Node :=
    .branch (.send (some (.var .localVar "foo" ⟨⟨line, 13⟩, ⟨line, 16⟩⟩)) "nil?" []
      ⟨⟨line, 13⟩, ⟨line, 21⟩⟩) (some (.leave ⟨⟨line, 4⟩, ⟨line, 9⟩⟩)) none ⟨⟨line, 4⟩, ⟨line, 21⟩⟩
  .loop none (.sequence
    [.loop none (.sequence [leaveIfNil 3] ⟨⟨3, 4⟩, ⟨4, 9⟩⟩) ⟨⟨2, 2⟩, ⟨5, 5⟩⟩, leaveIfNil 6]
    ⟨⟨2, 2⟩, ⟨8, 7⟩⟩) ⟨⟨1, 0⟩, ⟨9, 3⟩⟩

/-- Behind the inner loop the rest of the outer one is narrowed, and behind that the walk is in the
loop again that stands around both. -/
theorem through_addsShadows_nestedLoops :
    (∃ shadows : ShadowsOf [nilableFoo],
        Id.run (through none nestedLoops ⟨[nilableFoo], some ⟨⟨0, 0⟩, ⟨12, 3⟩⟩⟩) =
          ⟨[nilableFoo] ++ shadows.1, some ⟨⟨0, 0⟩, ⟨12, 3⟩⟩⟩) ∧
      ((Id.run (through none nestedLoops ⟨[nilableFoo], some ⟨⟨0, 0⟩, ⟨12, 3⟩⟩⟩)).locals.map
        fun pin => (pin.returnTy.tag, pin.extent?)) =
        [("String, nil", some ⟨⟨1, 0⟩, ⟨9, 3⟩⟩), ("nil", some ⟨⟨3, 3⟩, ⟨3, 9⟩⟩),
          ("String", some ⟨⟨3, 21⟩, ⟨5, 5⟩⟩), ("nil", some ⟨⟨6, 3⟩, ⟨6, 9⟩⟩),
          ("String", some ⟨⟨6, 21⟩, ⟨9, 3⟩⟩)] := by
  obtain ⟨⟨shadows, walked⟩, -⟩ := through_addsShadows (m := Id) none nestedLoops
    ⟨[nilableFoo], some ⟨⟨0, 0⟩, ⟨12, 3⟩⟩⟩
  exact ⟨⟨Id.run shadows, congrArg Id.run walked⟩, by decide +kernel⟩

end NestedLoops

end Walk

end DuckInfer.Flow
