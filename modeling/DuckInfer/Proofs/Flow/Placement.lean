import DuckInfer.Flow.Narrowing
import DuckInfer.Proofs.Flow.Reading

/-!
Where facts are placed. A placement is a reading with a range that it is placed over. Main
statement: narrowing adds the shadows that placements ask for, one after the other, and nothing
else.
-/

namespace DuckInfer

/-- A reading placed over a range. `detour` says that the range is the rest of a loop and the
conditional stands inside a part of another one. -/
structure Placement where
  reading : Reading
  range : Range
  detour : Bool

namespace Flow

/-- The ranges for what holds when a condition succeeds: the branch for that, and the rest of the
loop if the other branch leaves it. -/
def scopes (loop : Option Range) (nested : Bool) (range : Range) (branch other : Option Node) :
    List (Range × Bool) :=
  let rest := match loop with
    | some l => if other.any Node.leavesLoop then [(⟨range.stop, l.stop⟩, nested)] else []
    | none => []
  rest ++ (branch.map fun n => (n.coverage, false)).toList

theorem map_fst_scopes (loop : Option Range) (nested : Bool) (range : Range)
    (branch other : Option Node) :
    (scopes loop nested range branch other).map Prod.fst = factRanges loop range branch other := by
  cases loop with
  | none => cases branch <;> rfl
  | some l =>
    simp only [scopes, factRanges]
    split <;> cases branch <;> rfl

/-- Readings over each of the ranges. -/
def place (readings : List Reading) (scopes : List (Range × Bool)) : List Placement :=
  readings.flatMap fun reading => scopes.map fun (range, detour) => ⟨reading, range, detour⟩

theorem mem_place {readings : List Reading} {scopes : List (Range × Bool)} {p : Placement} :
    p ∈ place readings scopes ↔ p.reading ∈ readings ∧ (p.range, p.detour) ∈ scopes := by
  simp only [place, List.mem_flatMap, List.mem_map]
  constructor
  · rintro ⟨reading, listed, scope, member, rfl⟩
    exact ⟨listed, member⟩
  · rintro ⟨listed, member⟩
    exact ⟨p.reading, listed, (p.range, p.detour), member, rfl⟩

/-- The placements of what guards the operands of a condition. -/
def guards (n : Node) : List Placement :=
  n.readings.guarded.map fun (reading, range) => ⟨reading, range, false⟩

theorem place_single (readings : List Reading) (range : Range) :
    place readings [(range, false)] = readings.map fun reading => ⟨reading, range, false⟩ := by
  induction readings with
  | nil => rfl
  | cons reading readings ih => exact congrArg (_ :: ·) ih

theorem guards_and (lhs rhs : Node) (range : Range) :
    guards (.and lhs rhs range) =
      guards lhs ++ guards rhs ++ place (lhs.readings.told true) [(rhs.coverage, false)] := by
  simp [guards, Node.readings, Readings.both, Readings.within, Readings.told, place_single]

theorem guards_or (lhs rhs : Node) (range : Range) :
    guards (.or lhs rhs range) =
      guards lhs ++ guards rhs ++ place (lhs.readings.told false) [(rhs.coverage, false)] := by
  simp [guards, Node.readings, Readings.either, Readings.within, Readings.told, place_single]

/-- The placements of a conditional itself. -/
def branchPlacements (loop : Option Range) (nested : Bool) (condition : Node)
    (thenPart elsePart : Option Node) (range : Range) : List Placement :=
  place condition.readings.whenTrue (scopes loop nested range thenPart elsePart) ++
    place condition.readings.whenFalse (scopes loop nested range elsePart thenPart) ++
    guards condition

/-- The placements of a loop itself. -/
def loopPlacements (condition : Option Node) (body : Node) : List Placement :=
  match condition with
  | none => []
  | some condition =>
    place condition.readings.whenTrue [(body.coverage, false)] ++ guards condition

mutual

/-- The placements of every conditional in a statement; `loop` is the range of the enclosing loop,
and `nested` says that the statement stands inside a part of a conditional in this loop. -/
def placements (loop : Option Range) (nested : Bool) : Node → List Placement
  | .branch condition thenPart elsePart range =>
    branchPlacements loop nested condition thenPart elsePart range ++
      partPlacements loop true thenPart ++ partPlacements loop true elsePart
  | .loop condition body range =>
    loopPlacements condition body ++ placements (some range) false body
  | .and lhs rhs range => guards (.and lhs rhs range)
  | .or lhs rhs range => guards (.or lhs rhs range)
  | .not operand _ => placements loop nested operand
  | .send receiver _ arguments _ =>
    partPlacements loop nested receiver ++ eachPlacements loop nested arguments
  | .sequence statements _ => eachPlacements loop nested statements
  | .var _ _ _ | .const _ _ _ | .leave _ | .other _ => []

def partPlacements (loop : Option Range) (nested : Bool) : Option Node → List Placement
  | none => []
  | some n => placements loop nested n

def eachPlacements (loop : Option Range) (nested : Bool) : List Node → List Placement
  | [] => []
  | n :: ns => placements loop nested n ++ eachPlacements loop nested ns

end

theorem mem_partPlacements {loop : Option Range} {nested : Bool} {part : Option Node}
    {p : Placement} :
    p ∈ partPlacements loop nested part ↔ ∃ n ∈ part, p ∈ placements loop nested n := by
  cases part <;> simp [partPlacements]

theorem mem_eachPlacements {loop : Option Range} {nested : Bool} {ns : List Node} {p : Placement} :
    p ∈ eachPlacements loop nested ns ↔ ∃ n ∈ ns, p ∈ placements loop nested n := by
  induction ns with
  | nil => simp [eachPlacements]
  | cons n ns ih => simp [eachPlacements, ih]

/-! ### The pins that narrowing adds -/

/-- The local that governs a test does so whatever locals come behind. -/
theorem governing?_of_prefix {locals seen : List Pin} {name : String} {tested : Position}
    {pin : Pin} (since : locals <+: seen) (means : governing? locals name tested = some pin) :
    governing? seen name tested = some pin := by
  obtain ⟨later, rfl⟩ := since
  unfold governing? at means ⊢
  rw [List.find?_append, means, Option.some_or]

/-- The shadow that a placement asks for, given the locals that are seen. There is none if no local
is the variable or nothing is known about its type. -/
def shadow? (oracle : Oracle Id) (seen : List Pin) (p : Placement) : Option Pin := do
  let fact := p.reading.fact
  let pin ← governing? seen fact.name fact.tested
  let t := Id.run (narrowedTy oracle seen pin fact.predicate)
  if t.isUndefined then none else some (pin.narrowed t p.range)

/-- Placements add their shadows to the locals, one after the other. Each sees the locals of some
time since `first`. -/
inductive Adds (oracle : Oracle Id) (first : List Pin) :
    List Placement → List Pin → List Pin → Prop where
  | nil {locals : List Pin} : Adds oracle first [] locals locals
  | cons {p : Placement} {ps : List Placement} {seen locals result : List Pin} :
      first <+: seen → seen <+: locals →
      Adds oracle first ps (locals ++ (shadow? oracle seen p).toList) result →
      Adds oracle first (p :: ps) locals result

variable {oracle : Oracle Id} {first locals middle result : List Pin} {ps qs : List Placement}

theorem Adds.keeps (adds : Adds oracle first ps locals result) : locals <+: result := by
  induction adds with
  | nil => exact List.prefix_refl _
  | cons _ _ _ ih => exact (List.prefix_append _ _).trans ih

theorem Adds.since {later : List Pin} (begins : first <+: later)
    (adds : Adds oracle later ps locals result) : Adds oracle first ps locals result := by
  induction adds with
  | nil => exact .nil
  | cons since seen _ ih => exact .cons (begins.trans since) seen ih

theorem Adds.trans (early : Adds oracle first ps locals middle)
    (late : Adds oracle first qs middle result) : Adds oracle first (ps ++ qs) locals result := by
  induction early with
  | nil => exact late
  | cons since seen _ ih => exact .cons since seen (ih late)

/-- Two steps of narrowing, each seen from its own beginning. -/
theorem Adds.append (early : Adds oracle locals ps locals middle)
    (late : Adds oracle middle qs middle result) : Adds oracle locals (ps ++ qs) locals result :=
  early.trans (late.since early.keeps)

variable (oracle)

theorem adds_shadowFact (locals : List Pin) (reading : Reading) (scopes : List (Range × Bool)) :
    Adds oracle locals (place [reading] scopes) locals
      (Id.run (shadowFact oracle locals reading.fact (scopes.map Prod.fst))) := by
  have single : place [reading] scopes =
      scopes.map fun (range, detour) => ⟨reading, range, detour⟩ := List.append_nil _
  -- the shadows over the ranges of one fact all see the same locals
  have each : ∀ (scopes : List (Range × Bool)) (now : List Pin), locals <+: now →
      Adds oracle locals (scopes.map fun (range, detour) => ⟨reading, range, detour⟩) now
        (now ++ scopes.filterMap fun scope =>
          shadow? oracle locals ⟨reading, scope.1, scope.2⟩) := by
    intro scopes
    induction scopes with
    | nil =>
      intro now _
      rw [List.filterMap_nil, List.append_nil]
      exact .nil
    | cons scope scopes ih =>
      intro now grown
      refine .cons (List.prefix_refl _) grown ?_
      have rest := ih (now ++ (shadow? oracle locals ⟨reading, scope.1, scope.2⟩).toList)
        (grown.trans (List.prefix_append _ _))
      rw [List.append_assoc] at rest
      cases shadow : shadow? oracle locals ⟨reading, scope.1, scope.2⟩ with
      | none => simpa [shadow] using rest
      | some pin => simpa [shadow] using rest
  have added : Id.run (shadowFact oracle locals reading.fact (scopes.map Prod.fst)) =
      locals ++ scopes.filterMap fun scope =>
        shadow? oracle locals ⟨reading, scope.1, scope.2⟩ := by
    unfold shadowFact
    cases found : governing? locals reading.fact.name reading.fact.tested with
    | none => simp [shadow?, found]
    | some pin =>
      simp only [Id.run_bind]
      split
      · rename_i unknown
        simp [shadow?, found, unknown]
      · rename_i known
        simp [shadow?, found, known]
  rw [single, added]
  exact each scopes locals (List.prefix_refl _)

theorem adds_shadowFacts (readings : List Reading) (scopes : List (Range × Bool)) :
    ∀ locals : List Pin, Adds oracle locals (place readings scopes) locals
      (Id.run (shadowFacts oracle locals (readings.map Reading.fact) (scopes.map Prod.fst))) := by
  intro locals
  unfold shadowFacts
  split
  · rename_i none
    have nowhere : scopes = [] := List.map_eq_nil_iff.mp (List.isEmpty_iff.mp none)
    have nothing : place readings scopes = [] := by
      simp [place, nowhere]
    rw [nothing]
    exact .nil
  · induction readings generalizing locals with
    | nil => exact .nil
    | cons reading readings ih =>
      simp only [List.map_cons, List.foldlM_cons, Id.run_bind]
      have one : place (reading :: readings) scopes =
          place [reading] scopes ++ place readings scopes := by
        simp [place]
      rw [one]
      exact (adds_shadowFact oracle locals reading scopes).append (ih _)

theorem adds_shadowGuarded (n : Node) (locals : List Pin) :
    Adds oracle locals (guards n) locals
      (Id.run (shadowGuarded oracle locals n.conditionFacts.guarded)) := by
  have each : ∀ (guarded : List (Reading × Range)) (locals : List Pin),
      Adds oracle locals (guarded.map fun (reading, range) => ⟨reading, range, false⟩) locals
        (Id.run (shadowGuarded oracle locals
          (guarded.map fun (reading, range) => (reading.fact, range)))) := by
    intro guarded
    induction guarded with
    | nil => exact fun locals => .nil
    | cons guard guarded ih =>
      intro locals
      simp only [shadowGuarded, List.map_cons, List.foldlM_cons, Id.run_bind]
      exact (adds_shadowFacts oracle [guard.1] [(guard.2, false)] locals).append (ih _)
  have same := n.facts_readings
  rw [← same]
  exact each n.readings.guarded locals

theorem adds_narrowBranch (loop : Option Range) (nested : Bool) (condition : Node)
    (thenPart elsePart : Option Node) (range : Range) (locals : List Pin) :
    Adds oracle locals (branchPlacements loop nested condition thenPart elsePart range) locals
      (Id.run (narrowBranch oracle loop locals (.branch condition thenPart elsePart range))) := by
  have whenTrue :
      condition.conditionFacts.whenTrue = condition.readings.whenTrue.map Reading.fact :=
    (congrArg ConditionFacts.whenTrue condition.facts_readings).symm
  have whenFalse :
      condition.conditionFacts.whenFalse = condition.readings.whenFalse.map Reading.fact :=
    (congrArg ConditionFacts.whenFalse condition.facts_readings).symm
  simp only [narrowBranch, Id.run_bind, whenTrue, whenFalse]
  rw [← map_fst_scopes loop nested range thenPart elsePart,
    ← map_fst_scopes loop nested range elsePart thenPart]
  exact ((adds_shadowFacts oracle _ _ locals).append (adds_shadowFacts oracle _ _ _)).append
    (adds_shadowGuarded oracle condition _)

theorem adds_narrowLoop (condition : Option Node) (body : Node) (locals : List Pin) :
    Adds oracle locals (loopPlacements condition body) locals
      (Id.run (narrowLoop oracle locals condition body)) := by
  cases condition with
  | none => exact .nil
  | some condition =>
    have whenTrue :
        condition.conditionFacts.whenTrue = condition.readings.whenTrue.map Reading.fact :=
      (congrArg ConditionFacts.whenTrue condition.facts_readings).symm
    simp only [narrowLoop, Id.run_bind, whenTrue]
    exact (adds_shadowFacts oracle _ [(body.coverage, false)] locals).append
      (adds_shadowGuarded oracle condition _)

theorem adds_narrowPart {part : Option Node} {loop : Option Range} (nested : Bool)
    (each : ∀ n ∈ part, ∀ locals : List Pin,
      Adds oracle locals (placements loop nested n) locals
        (Id.run (narrowAll oracle loop n locals)))
    (locals : List Pin) :
    Adds oracle locals (partPlacements loop nested part) locals
      (Id.run (narrowPart oracle loop part locals)) := by
  cases part with
  | none => exact .nil
  | some n => exact each n rfl locals

theorem adds_narrowEach {ns : List Node} {loop : Option Range} (nested : Bool)
    (each : ∀ n ∈ ns, ∀ locals : List Pin,
      Adds oracle locals (placements loop nested n) locals
        (Id.run (narrowAll oracle loop n locals))) :
    ∀ locals : List Pin,
      Adds oracle locals (eachPlacements loop nested ns) locals
        (Id.run (narrowEach oracle loop ns locals)) := by
  induction ns with
  | nil => exact fun locals => .nil
  | cons n ns ih =>
    intro locals
    simp only [narrowEach, Id.run_bind]
    exact (each n List.mem_cons_self locals).append
      (ih (fun m member => each m (List.mem_cons_of_mem n member)) _)

/-- Narrowing adds the shadows of all placements, and nothing else. -/
theorem adds_narrowAll (n : Node) : ∀ (loop : Option Range) (nested : Bool) (locals : List Pin),
    Adds oracle locals (placements loop nested n) locals
      (Id.run (narrowAll oracle loop n locals)) := by
  induction n using Node.induction with
  | branch condition thenPart elsePart range _ ofThen ofElse =>
    intro loop nested locals
    simp only [narrowAll, Id.run_bind]
    exact ((adds_narrowBranch oracle loop nested condition thenPart elsePart range locals).append
      (adds_narrowPart oracle true (fun n here => ofThen n here loop true) _)).append
        (adds_narrowPart oracle true (fun n here => ofElse n here loop true) _)
  | loop condition body range _ ofBody =>
    intro loop nested locals
    simp only [narrowAll, Id.run_bind]
    exact (adds_narrowLoop oracle condition body locals).append (ofBody (some range) false _)
  | and lhs rhs range _ _ =>
    intro loop nested locals
    exact adds_shadowGuarded oracle (.and lhs rhs range) locals
  | or lhs rhs range _ _ =>
    intro loop nested locals
    exact adds_shadowGuarded oracle (.or lhs rhs range) locals
  | not operand range ih => exact ih
  | send receiver method arguments range ofReceiver ofArguments =>
    intro loop nested locals
    simp only [narrowAll, Id.run_bind]
    exact
      (adds_narrowPart oracle nested (fun n here => ofReceiver n here loop nested) locals).append
        (adds_narrowEach oracle nested (fun n here => ofArguments n here loop nested) _)
  | sequence statements range each =>
    intro loop nested locals
    exact adds_narrowEach oracle nested (fun n here => each n here loop nested) locals
  | var kind name range => exact fun _ _ _ => .nil
  | const scope name range _ => exact fun _ _ _ => .nil
  | leave range => exact fun _ _ _ => .nil
  | other range => exact fun _ _ _ => .nil

end Flow

end DuckInfer
