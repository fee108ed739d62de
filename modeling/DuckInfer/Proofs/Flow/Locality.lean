import DuckInfer.Proofs.Flow.Shadows
import DuckInfer.Proofs.Infer.Steady

/-!
What narrowing changes outside of its ranges. It only appends shadows to the locals, and a lookup
prefers the pins that are present at its position, so shadows elsewhere do not matter as long as
some pin is present. Main statement: outside of the shadows of a name, its lookup gives what it gave
before, and besides all shadows of the name in case that none of its locals has a range around the
position.
-/

namespace DuckInfer

/-! ### Lookups after more locals -/

section

variable {locals shadows : List Pin} {name : String} {p : Option Position}

theorem filter_covering_append
    (outside : ∀ shadow ∈ shadows, shadow.name = name → shadow.coversPosition p = false) :
    ((locals ++ shadows).filter (·.name == name)).filter (·.coversPosition p) =
      (locals.filter (·.name == name)).filter (·.coversPosition p) := by
  have none : (shadows.filter (·.name == name)).filter (·.coversPosition p) = [] := by
    refine List.filter_eq_nil_iff.mpr fun shadow member => ?_
    obtain ⟨listed, named⟩ := List.mem_filter.mp member
    simp [outside shadow listed (beq_iff_eq.mp named)]
  rw [List.filter_append, List.filter_append, none, List.append_nil]

/-- Further locals of a name that are not present at the position govern it only along with all
others of the name, if none of these is present. -/
theorem governingPins_append (scope : Pin)
    (outside : ∀ shadow ∈ shadows, shadow.name = name → shadow.coversPosition p = false) :
    governingPins (locals ++ shadows) name scope p =
      governingPins locals name scope p ++
        if locals.any fun pin => pin.name == name && pin.coversPosition p then []
        else shadows.filter (·.name == name) := by
  have present : ((locals.filter (·.name == name)).filter (·.coversPosition p)).isEmpty =
      !locals.any fun pin => pin.name == name && pin.coversPosition p := by
    rw [List.filter_filter, Bool.eq_iff_iff]
    simp [List.isEmpty_iff, List.filter_eq_nil_iff, imp.swap]
  -- the choice goes on from the same present pins; only its fallback sees the other locals
  unfold governingPins
  simp only [filter_covering_append outside, present]
  cases locals.any fun pin => pin.name == name && pin.coversPosition p with
  | true => simp
  | false => simp [List.filter_append]

end

namespace Flow

/-- The pin is one of the locals with another type in a range. -/
def IsShadow (locals : List Pin) (pin : Pin) : Prop :=
  ∃ declared ∈ locals, ∃ t range, pin = declared.narrowed t range

/-- A shadow of a shadow is one of what that shadows. -/
theorem IsShadow.of_append {locals shadows : List Pin} {pin : Pin}
    (shadow : IsShadow (locals ++ shadows) pin) (each : ∀ pin ∈ shadows, IsShadow locals pin) :
    IsShadow locals pin := by
  obtain ⟨declared, member, t, range, rfl⟩ := shadow
  rcases List.mem_append.mp member with first | later
  · exact ⟨declared, first, t, range, rfl⟩
  · obtain ⟨original, listed, t', range', rfl⟩ := each declared later
    exact ⟨original, listed, t, range, rfl⟩

section

variable {m : Type → Type} [Monad m] [ConstantLookup m] {σ : Type} (r : SteadyRunner m σ)

/-- The step appends shadows to the locals and does nothing else to them. -/
def Appends (step : List Pin → m (List Pin)) : Prop :=
  ∀ s locals, ∃ shadows, (r.run (step locals) s).1 = locals ++ shadows ∧
    ∀ pin ∈ shadows, IsShadow locals pin

namespace Appends

variable {r}

theorem stay : Appends r fun locals => pure locals := by
  intro s locals
  exact ⟨[], by rw [r.run_pure, List.append_nil], by simp⟩

theorem andThen {step next : List Pin → m (List Pin)} (first : Appends r step)
    (second : Appends r next) : Appends r fun locals => step locals >>= next := by
  intro s locals
  obtain ⟨early, begun, shadows⟩ := first s locals
  obtain ⟨late, ended, shadows'⟩ := second (r.run (step locals) s).2 (locals ++ early)
  refine ⟨early ++ late, ?_, fun pin member => ?_⟩
  · rw [r.run_bind, begun, ended, List.append_assoc]
  · rcases List.mem_append.mp member with first | second
    · exact shadows pin first
    · exact (shadows' pin second).of_append shadows

end Appends

end

/-! ### Narrowing -/

section

variable {m : Type → Type} [Monad m] [ConstantLookup m] {σ : Type} (r : SteadyRunner m σ)
  (oracle : Oracle m)

theorem appends_shadowFact (fact : Fact) (ranges : List Range) :
    Appends r fun locals => shadowFact oracle locals fact ranges := by
  intro s locals
  simp only [shadowFact]
  cases found : governing? locals fact.name fact.tested with
  | none => exact Appends.stay s locals
  | some pin =>
    simp only [r.run_bind]
    split
    · exact Appends.stay _ locals
    · refine ⟨_, congrArg Prod.fst (r.run_pure _ _), fun shadow member => ?_⟩
      obtain ⟨range, -, rfl⟩ := List.mem_map.mp member
      exact ⟨pin, List.mem_of_find?_eq_some found, _, range, rfl⟩

theorem appends : StepProperty oracle (Appends r) :=
  ⟨.stay, .andThen, appends_shadowFact r oracle⟩

/-- Narrowing appends shadows of the locals and does nothing else to them. -/
theorem appends_narrowAll (n : Node) : ∀ loop, Appends r (narrowAll oracle loop n) :=
  (appends r oracle).narrowAll n

/-- Narrowing appends shadows of the locals. At a position outside of all shadows of a name, the
name is governed by the same pins as before, and by all of its shadows besides if none of its locals
has a range around the position. -/
theorem governingPins_narrowAll (s : σ) (loop : Option Range) (node : Node) (locals : List Pin) :
    ∃ shadows, (r.run (narrowAll oracle loop node locals) s).1 = locals ++ shadows ∧
      (∀ shadow ∈ shadows, IsShadow locals shadow) ∧
      ∀ name scope p,
        (∀ shadow ∈ shadows, shadow.name = name → shadow.coversPosition (some p) = false) →
        governingPins (r.run (narrowAll oracle loop node locals) s).1 name scope (some p) =
          governingPins locals name scope (some p) ++
            if locals.any fun pin => pin.name == name && pin.coversPosition (some p) then []
            else shadows.filter (·.name == name) := by
  obtain ⟨shadows, result, each⟩ := appends_narrowAll r oracle node loop s locals
  refine ⟨shadows, result, each, fun name scope p outside => ?_⟩
  rw [result]
  exact governingPins_append scope outside

end

section Unbounded

/-- A local `foo` that governs its name everywhere. -/
def unboundedFoo : Pin :=
  .make "foo" (some .root) (.variable .localVar ⟨some (.ofTag "String, nil"), none, none, false⟩)

/-- `if foo.nil? … else … end` on lines 1 to 5 -/
def nilBranch : Node :=
  .branch (.send (some (.var .localVar "foo" ⟨⟨1, 5⟩, ⟨1, 8⟩⟩)) "nil?" [] ⟨⟨1, 5⟩, ⟨1, 13⟩⟩)
    (some (.other ⟨⟨2, 4⟩, ⟨2, 12⟩⟩)) (some (.other ⟨⟨4, 4⟩, ⟨4, 12⟩⟩)) ⟨⟨1, 2⟩, ⟨5, 5⟩⟩

/-- Behind the conditional, where neither of its shadows is present, the lookup of `foo` gives the
local before narrowing, and the local with both of its shadows after narrowing. -/
theorem governingPins_unboundedFoo : ¬ ∀ (oracle : Oracle Id) (loop : Option Range) (node : Node)
    (locals : List Pin) (name : String) (scope : Pin) (p : Position),
    (∃ declared ∈ locals, declared.name = name ∧ declared.governsAt p = true) →
    (∀ shadow ∈ (Id.run (narrowAll oracle loop node locals)).drop locals.length,
      shadow.name = name → shadow.coversPosition (some p) = false) →
    governingPins (Id.run (narrowAll oracle loop node locals)) name scope (some p) =
      governingPins locals name scope (some p) := by
  intro same
  have before : governingPins [unboundedFoo] "foo" .root (some ⟨7, 2⟩) = [unboundedFoo] := by
    rfl
  have after : ((governingPins (Id.run (narrowAll none none nilBranch [unboundedFoo])) "foo" .root
      (some ⟨7, 2⟩)).map fun pin => pin.returnTy.tag) = ["String, nil", "nil", "String"] := by
    decide +kernel
  have elsewhere : ∀ shadow ∈ (Id.run (narrowAll none none nilBranch [unboundedFoo])).drop 1,
      shadow.coversPosition (some ⟨7, 2⟩) = false := by
    decide +kernel
  rw [same none none nilBranch [unboundedFoo] "foo" .root ⟨7, 2⟩
    ⟨unboundedFoo, List.mem_singleton.mpr rfl, rfl, rfl⟩
    (fun shadow member _ => elsewhere shadow member), before] at after
  exact absurd (congrArg List.length after) (by decide)

end Unbounded

end Flow

end DuckInfer
