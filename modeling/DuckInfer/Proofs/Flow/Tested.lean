import DuckInfer.Proofs.Flow.Cascade
import DuckInfer.Proofs.Flow.Placement

/-!
The local that a test narrows, beside the one that a lookup at the test finds. Narrowing takes the
first local of the name that governs the test, and the lookup prefers the present ones, those of the
scope and the derived ones. Main statement: if the lookup leaves one local only, a test makes
shadows of it as long as it governs the test and none of its name that stands before does; else they
are shadows of such an earlier one, which has no range, is declared elsewhere, or is not derived.
-/

namespace DuckInfer

/-! ### Lookups with one result -/

theorem exists_preferring_eq_filter {α : Type} (p : α → Bool) (xs : List α) :
    ∃ keep, preferring p xs = xs.filter keep := by
  by_cases none : xs.filter p = []
  · have whole : xs.filter (fun _ => true) = xs := List.filter_eq_self.mpr fun _ _ => rfl
    exact ⟨fun _ => true, (preferring_of_filter_eq_nil none).trans whole.symm⟩
  · exact ⟨p, preferring_of_filter_ne_nil none⟩

section

variable {locals : List Pin} {name : String} {scope p q : Pin} {position : Option Position}

/-- A lookup filters the locals, and keeps none of another name. -/
theorem governingPins_eq_filter (locals : List Pin) (name : String) (scope : Pin)
    (position : Option Position) :
    ∃ keep : Pin → Bool, governingPins locals name scope position = locals.filter keep ∧
      ∀ pin, keep pin = true → pin.name = name := by
  by_cases absent : (locals.filter (·.name == name)).filter (·.coversPosition position) = []
  · exact ⟨_, governingPins_of_absent absent, fun _ => beq_iff_eq.mp⟩
  by_cases elsewhere : ((locals.filter (·.name == name)).filter (·.coversPosition position)).filter
      (·.declaredIn scope) = []
  · refine ⟨_, (governingPins_of_elsewhere absent elsewhere).trans List.filter_filter, ?_⟩
    simp
  · obtain ⟨derived, last⟩ := exists_preferring_eq_filter Pin.isDerived
      (((locals.filter (·.name == name)).filter (·.coversPosition position)).filter
        (·.declaredIn scope))
    have whole := governingPins_of_here elsewhere
    rw [cascade, preferring_of_filter_ne_nil absent, preferring_of_filter_ne_nil elsewhere, last,
      List.filter_filter, List.filter_filter, List.filter_filter] at whole
    exact ⟨_, whole, by simp⟩

/-- The only result of a lookup is one of the locals, and stands among them once. -/
theorem exists_of_governingPins_single (alone : governingPins locals name scope position = [p]) :
    p.name = name ∧ ∃ before after, locals = before ++ p :: after ∧ p ∉ before ∧ p ∉ after := by
  obtain ⟨keep, filtered, named⟩ := governingPins_eq_filter locals name scope position
  obtain ⟨before, after, split, dropped, kept, others⟩ :=
    List.filter_eq_cons_iff.mp (filtered.symm.trans alone)
  refine ⟨named p kept, before, after, split, fun early => dropped p early kept, fun late => ?_⟩
  exact List.filter_eq_nil_iff.mp others p late kept

/-- A lookup that leaves one local passes over another one that is present, because that is declared
elsewhere, or is not derived as the one that is left. -/
theorem passedOver_of_governingPins_single
    (alone : governingPins locals name scope position = [p]) (listed : q ∈ locals)
    (named : q.name = name) (present : q.coversPosition position = true) (other : q ≠ p) :
    q.declaredIn scope = false ∨ q.isDerived = false ∧ p.isDerived = true := by
  have covers : q ∈ (locals.filter (·.name == name)).filter (·.coversPosition position) :=
    List.mem_filter.mpr ⟨List.mem_filter.mpr ⟨listed, beq_iff_eq.mpr named⟩, present⟩
  have some : (locals.filter (·.name == name)).filter (·.coversPosition position) ≠ [] :=
    List.ne_nil_of_mem covers
  by_cases elsewhere : ((locals.filter (·.name == name)).filter (·.coversPosition position)).filter
      (·.declaredIn scope) = []
  · exact .inl (by simpa using List.filter_eq_nil_iff.mp elsewhere q covers)
  · cases here : q.declaredIn scope with
    | false => exact .inl rfl
    | true =>
      have declared : q ∈ ((locals.filter (·.name == name)).filter
          (·.coversPosition position)).filter (·.declaredIn scope) :=
        List.mem_filter.mpr ⟨covers, here⟩
      have left : preferring Pin.isDerived (((locals.filter (·.name == name)).filter
          (·.coversPosition position)).filter (·.declaredIn scope)) = [p] := by
        rw [← alone, governingPins_of_here elsewhere, cascade, preferring_of_filter_ne_nil some,
          preferring_of_filter_ne_nil elsewhere]
      by_cases none : (((locals.filter (·.name == name)).filter
          (·.coversPosition position)).filter (·.declaredIn scope)).filter Pin.isDerived = []
      · rw [preferring_of_filter_eq_nil none] at left
        exact absurd (List.mem_singleton.mp (left ▸ declared)) other
      · rw [preferring_of_filter_ne_nil none] at left
        have kept : p.isDerived = true :=
          (List.mem_filter.mp (left ▸ List.mem_singleton_self p)).2
        refine .inr ⟨Bool.eq_false_iff.mpr fun derived => other ?_, kept⟩
        exact List.mem_singleton.mp (left ▸ List.mem_filter.mpr ⟨declared, derived⟩)

/-- If the only result of a lookup is not present, no other local has the name. -/
theorem eq_of_governingPins_single (alone : governingPins locals name scope position = [p])
    (absent : p.coversPosition position = false) (listed : q ∈ locals) (named : q.name = name) :
    q = p := by
  have candidate : q ∈ locals.filter (·.name == name) :=
    List.mem_filter.mpr ⟨listed, beq_iff_eq.mpr named⟩
  by_cases none : (locals.filter (·.name == name)).filter (·.coversPosition position) = []
  · exact List.mem_singleton.mp (alone ▸ governingPins_of_absent none ▸ candidate)
  · have present : ∀ pin ∈ governingPins locals name scope position,
        pin.coversPosition position = true := by
      intro pin found
      by_cases elsewhere : ((locals.filter (·.name == name)).filter
          (·.coversPosition position)).filter (·.declaredIn scope) = []
      · rw [governingPins_of_elsewhere none elsewhere] at found
        exact (List.mem_filter.mp found).2
      · rw [governingPins_of_here elsewhere, cascade, preferring_of_filter_ne_nil none] at found
        have kept := (preferring_sublist _ _).subset ((preferring_sublist _ _).subset found)
        exact (List.mem_filter.mp kept).2
    have covers := present p (alone ▸ List.mem_singleton_self p)
    exact absurd (absent.symm.trans covers) Bool.false_ne_true

theorem Pin.governsAt_eq (pin : Pin) (tested : Position) :
    pin.governsAt tested = (pin.extent?.isNone || pin.coversPosition (some tested)) := by
  unfold Pin.governsAt Pin.coversPosition
  cases pin.extent? <;> rfl

end

namespace Flow

/-! ### The local that a test narrows -/

section

variable {m : Type → Type} [Monad m]

/-- The shadows of a local that a fact gives rise to over some ranges. -/
def shadowsOf (oracle : Oracle m) (locals : List Pin) (fact : Fact) (ranges : List Range)
    (pin : Pin) : m (List Pin) := do
  let t ← narrowedTy oracle locals pin fact.predicate
  return if t.isUndefined then [] else ranges.map fun range => pin.narrowed t range

/-- A fact adds the shadows of the first local of the name that governs the test. -/
theorem shadowFact_eq [LawfulMonad m] (oracle : Oracle m) (locals : List Pin) (fact : Fact)
    (ranges : List Range) :
    shadowFact oracle locals fact ranges =
      match governing? locals fact.name fact.tested with
      | none => pure locals
      | some pin => (locals ++ ·) <$> shadowsOf oracle locals fact ranges pin := by
  unfold shadowFact shadowsOf
  cases governing? locals fact.name fact.tested with
  | none => rfl
  | some pin =>
    simp only [map_bind, map_pure]
    refine congrArg _ (funext fun t => ?_)
    split
    · rw [List.append_nil]
    · rfl

variable [LawfulMonad m] {locals : List Pin} {scope p : Pin}

/-- If a lookup at a test leaves a single local, the test makes the shadows of this local if it
governs the test and none of the name that stands before it does, and no shadows if it does not
govern the test. If one before it does, the test makes the shadows of such an earlier one, which has
no range, is declared elsewhere, or is not derived as the local that the lookup leaves. -/
theorem shadowFact_of_governingPins (oracle : Oracle m) (fact : Fact) (ranges : List Range)
    (alone : governingPins locals fact.name scope (some fact.tested) = [p]) :
    ∃ before after, locals = before ++ p :: after ∧ p ∉ before ∧ p ∉ after ∧
      (p.governsAt fact.tested = true →
        (∀ q ∈ before, q.name = fact.name → q.governsAt fact.tested = false) →
          shadowFact oracle locals fact ranges =
            (locals ++ ·) <$> shadowsOf oracle locals fact ranges p) ∧
      (p.governsAt fact.tested = false → shadowFact oracle locals fact ranges = pure locals) ∧
      ((∃ q ∈ before, q.name = fact.name ∧ q.governsAt fact.tested = true) →
        ∃ base ∈ before, base.name = fact.name ∧ base.governsAt fact.tested = true ∧
          (base.extent? = none ∨ base.declaredIn scope = false ∨
            base.isDerived = false ∧ p.isDerived = true) ∧
          shadowFact oracle locals fact ranges =
            (locals ++ ·) <$> shadowsOf oracle locals fact ranges base) := by
  obtain ⟨named, before, after, rfl, early, late⟩ := exists_of_governingPins_single alone
  refine ⟨before, after, rfl, early, late, fun governs first => ?_, fun absent => ?_, ?_⟩
  · have means : governing? (before ++ p :: after) fact.name fact.tested = some p := by
      refine List.find?_eq_some_iff_append.mpr ⟨by simp [named, governs], before, after, rfl, ?_⟩
      intro q stands
      by_cases same : q.name = fact.name
      · simp [first q stands same]
      · simp [same]
    rw [shadowFact_eq, means]
  · have means : governing? (before ++ p :: after) fact.name fact.tested = none := by
      refine List.find?_eq_none.mpr fun q listed => ?_
      rw [Bool.and_eq_true, beq_iff_eq]
      rintro ⟨same, governs⟩
      have uncovered : p.coversPosition (some fact.tested) = false := by
        rw [Pin.governsAt_eq, Bool.or_eq_false_iff] at absent
        exact absent.2
      obtain rfl := eq_of_governingPins_single alone uncovered listed same
      exact absurd (absent.symm.trans governs) Bool.false_ne_true
    rw [shadowFact_eq, means]
  · rintro ⟨q, stands, same, governs⟩
    have any : (governing? before fact.name fact.tested).isSome = true :=
      List.find?_isSome.mpr ⟨q, stands, by simp [same, governs]⟩
    obtain ⟨base, found⟩ := Option.isSome_iff_exists.mp any
    have means := governing?_of_prefix (List.prefix_append before (p :: after)) found
    have inside := List.mem_of_find?_eq_some found
    have holds := List.find?_some found
    rw [Bool.and_eq_true, beq_iff_eq] at holds
    refine ⟨base, inside, holds.1, holds.2, ?_, by rw [shadowFact_eq, means]⟩
    cases range : base.extent? with
    | none => exact .inl rfl
    | some extent =>
      have covers : base.coversPosition (some fact.tested) = true := by
        have there := holds.2
        rwa [Pin.governsAt_eq, range, Option.isNone_some, Bool.false_or] at there
      exact .inr (passedOver_of_governingPins_single alone (List.mem_append_left _ inside) holds.1
        covers fun same => early (same ▸ inside))

end

section BlockLocal

/-- A local `foo` of the block in the method, with type `Integer, nil`. -/
def blockFoo : Pin :=
  .make "foo" (some innerBlock)
    (.variable .localVar ⟨some (.ofTag "Integer, nil"), none, some ⟨⟨2, 0⟩, ⟨6, 8⟩⟩, false⟩)

/-- `foo` is not `nil`, tested in the block. -/
def testedInBlock : Fact :=
  ⟨"foo", ⟨3, 5⟩, .notNil⟩

/-- With the local of the block in front, the test makes its shadow of it. -/
theorem shadowFact_of_governingPins_blockFirst :
    governingPins [blockFoo, methodFoo] "foo" innerBlock (some ⟨3, 5⟩) = [blockFoo] ∧
      (Id.run (shadowFact none [blockFoo, methodFoo] testedInBlock [⟨⟨3, 8⟩, ⟨4, 2⟩⟩])).map
        (·.returnTy.tag) = ["Integer, nil", "String, nil", "Integer"] := by
  have alone : governingPins [blockFoo, methodFoo] "foo" innerBlock (some ⟨3, 5⟩) = [blockFoo] :=
    rfl
  obtain ⟨before, after, split, early, -, first, -⟩ := shadowFact_of_governingPins (m := Id)
    none testedInBlock [⟨⟨3, 8⟩, ⟨4, 2⟩⟩] alone
  have front : before = [] := by
    cases before with
    | nil => rfl
    | cons pin before =>
      obtain ⟨same, -⟩ := List.cons.inj split
      exact absurd (same ▸ List.mem_cons_self) early
  have shadows := first rfl fun q stands => absurd (front ▸ stands) List.not_mem_nil
  refine ⟨alone, ?_⟩
  rw [shadows]
  decide +kernel

/-- With the local of the method in front, the test in the block makes its shadow of that one, and a
lookup at the test finds the local of the block alone. -/
theorem shadowFact_ne_methodFirst : ¬ ∀ (locals : List Pin) (fact : Fact) (scope p : Pin)
    (ranges : List Range), governingPins locals fact.name scope (some fact.tested) = [p] →
      Id.run (shadowFact none locals fact ranges) =
        locals ++ Id.run (shadowsOf none locals fact ranges p) := by
  intro claimed
  have same := claimed [methodFoo, blockFoo] testedInBlock innerBlock blockFoo
    [⟨⟨3, 8⟩, ⟨4, 2⟩⟩] rfl
  have types := congrArg (List.map fun pin : Pin => pin.returnTy.tag) same
  revert types
  decide +kernel

end BlockLocal

end Flow

end DuckInfer
