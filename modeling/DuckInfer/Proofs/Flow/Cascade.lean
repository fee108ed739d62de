import DuckInfer.Pin.Declared
import DuckInfer.Infer.Governing
import DuckInfer.Ty.Grammar

/-!
The lookup of a variable beside the cascade of its three preferences, in which every preference
falls back to what the one before left. Main statement: a lookup gives a pin whenever one has the
name, and gives at least what the cascade gives; it gives more exactly if one of the first two
preferences has nothing to keep, so that the lookup ends there, and a later preference would still
make a difference.
-/

namespace DuckInfer

/-! ### One preference -/

/-- The elements cannot be told apart by `p`. -/
def Uniform {α : Type} (p : α → Bool) (xs : List α) : Prop :=
  (∀ x ∈ xs, p x = true) ∨ ∀ x ∈ xs, p x = false

section

variable {α : Type} {p q : α → Bool} {xs : List α}

theorem preferring_of_filter_eq_nil (none : xs.filter p = []) : preferring p xs = xs := by
  have absent : ¬ xs.any p = true := by
    rw [List.any_eq_true]
    rintro ⟨x, listed, holds⟩
    exact List.filter_eq_nil_iff.mp none x listed holds
  rw [preferring, if_neg absent]

theorem preferring_of_filter_ne_nil (some : xs.filter p ≠ []) :
    preferring p xs = xs.filter p := by
  obtain ⟨x, kept⟩ := List.exists_mem_of_ne_nil _ some
  obtain ⟨listed, holds⟩ := List.mem_filter.mp kept
  rw [preferring, if_pos (List.any_eq_true.mpr ⟨x, listed, holds⟩)]

theorem preferring_sublist (p : α → Bool) (xs : List α) : (preferring p xs).Sublist xs := by
  by_cases none : xs.filter p = []
  · simp only [preferring_of_filter_eq_nil none, List.Sublist.refl]
  · rw [preferring_of_filter_ne_nil none]
    exact List.filter_sublist

theorem preferring_eq_nil_iff : preferring p xs = [] ↔ xs = [] := by
  by_cases none : xs.filter p = []
  · rw [preferring_of_filter_eq_nil none]
  · rw [preferring_of_filter_ne_nil none]
    have nonempty : xs ≠ [] := by
      rintro rfl
      exact none rfl
    simp only [none, nonempty]

/-- A preference makes no difference to elements that it cannot tell apart, and to no others. -/
theorem preferring_eq_self_iff : preferring p xs = xs ↔ Uniform p xs := by
  by_cases none : xs.filter p = []
  · have absent : ∀ x ∈ xs, p x = false := by
      simpa [List.filter_eq_nil_iff] using none
    exact ⟨fun _ => Or.inr absent, fun _ => preferring_of_filter_eq_nil none⟩
  · rw [preferring_of_filter_ne_nil none, List.filter_eq_self]
    constructor
    · exact Or.inl
    · rintro (all | absent)
      · exact all
      · have nothing : xs.filter p = [] := by
          simpa [List.filter_eq_nil_iff] using absent
        exact absurd nothing none

/-- Two preferences make no difference only if neither of them does. -/
theorem preferring_preferring_eq_self_iff :
    preferring q (preferring p xs) = xs ↔ Uniform p xs ∧ Uniform q xs := by
  rw [← preferring_eq_self_iff, ← preferring_eq_self_iff]
  constructor
  · intro whole
    have long : xs.length ≤ (preferring p xs).length := by
      have shorter := (preferring_sublist q (preferring p xs)).length_le
      rwa [whole] at shorter
    have first : preferring p xs = xs := (preferring_sublist p xs).eq_of_length_le long
    rw [first] at whole
    exact ⟨first, whole⟩
  · rintro ⟨first, second⟩
    rw [first, second]

end

/-! ### The cascade -/

/-- The variables of a name that three preferences leave: those present at the position, those
declared right in the scope, those derived from the flow of control. -/
def cascade (locals : List Pin) (name : String) (scope : Pin) (position : Option Position) :
    List Pin :=
  preferring Pin.isDerived (preferring (·.declaredIn scope)
    (preferring (·.coversPosition position) (locals.filter (·.name == name))))

section

variable {locals : List Pin} {name : String} {scope : Pin} {position : Option Position}

/-- Without a present pin the lookup ends with all pins of the name. -/
theorem governingPins_of_absent
    (absent : (locals.filter (·.name == name)).filter (·.coversPosition position) = []) :
    governingPins locals name scope position = locals.filter (·.name == name) := by
  simp only [governingPins, absent, List.isEmpty_nil, if_true]

/-- Without a present pin of the scope the lookup ends with all present pins. -/
theorem governingPins_of_elsewhere
    (present : (locals.filter (·.name == name)).filter (·.coversPosition position) ≠ [])
    (elsewhere : ((locals.filter (·.name == name)).filter (·.coversPosition position)).filter
      (·.declaredIn scope) = []) :
    governingPins locals name scope position =
      (locals.filter (·.name == name)).filter (·.coversPosition position) := by
  have some : ¬ ((locals.filter (·.name == name)).filter
      (·.coversPosition position)).isEmpty = true := by
    rwa [List.isEmpty_iff]
  rw [governingPins]
  simp only [if_neg some, elsewhere, List.isEmpty_nil, if_true]

/-- With a present pin of the scope the lookup is the cascade. -/
theorem governingPins_of_here
    (here : ((locals.filter (·.name == name)).filter (·.coversPosition position)).filter
      (·.declaredIn scope) ≠ []) :
    governingPins locals name scope position = cascade locals name scope position := by
  have present : (locals.filter (·.name == name)).filter (·.coversPosition position) ≠ [] := by
    intro none
    rw [none] at here
    exact here rfl
  have some : ¬ ((locals.filter (·.name == name)).filter
      (·.coversPosition position)).isEmpty = true := by
    rwa [List.isEmpty_iff]
  have some' : ¬ (((locals.filter (·.name == name)).filter (·.coversPosition position)).filter
      (·.declaredIn scope)).isEmpty = true := by
    rwa [List.isEmpty_iff]
  rw [governingPins, cascade, preferring_of_filter_ne_nil present, preferring_of_filter_ne_nil here]
  simp only [if_neg some, if_neg some']

/-- The lookup of a variable gives nothing only if no pin has the name, it gives all that the
cascade gives, and it gives the same as the cascade exactly if the preferences behind its end make
no difference. It ends at a preference that has nothing to keep: no pin of the name is present, or
no present one is declared right in the scope. -/
theorem governingPins_eq_cascade_iff (locals : List Pin) (name : String) (scope : Pin)
    (position : Option Position) :
    let named := locals.filter (·.name == name)
    let present := named.filter (·.coversPosition position)
    (governingPins locals name scope position = [] ↔ ∀ pin ∈ locals, pin.name ≠ name) ∧
      (cascade locals name scope position).Sublist (governingPins locals name scope position) ∧
      (governingPins locals name scope position = cascade locals name scope position ↔
        (present = [] → Uniform (·.declaredIn scope) named ∧ Uniform Pin.isDerived named) ∧
          (present ≠ [] → present.filter (·.declaredIn scope) = [] →
            Uniform Pin.isDerived present)) := by
  intro named present
  have nameless : named = [] ↔ ∀ pin ∈ locals, pin.name ≠ name := by
    simp [named, List.filter_eq_nil_iff]
  by_cases absent : present = []
  · have whole : governingPins locals name scope position = named :=
      governingPins_of_absent absent
    have rest : cascade locals name scope position =
        preferring Pin.isDerived (preferring (·.declaredIn scope) named) := by
      rw [cascade, preferring_of_filter_eq_nil absent]
    rw [whole, rest]
    refine ⟨nameless, (preferring_sublist _ _).trans (preferring_sublist _ _), ?_⟩
    rw [eq_comm, preferring_preferring_eq_self_iff]
    simp [absent]
  · have some : named ≠ [] := by
      intro none
      apply absent
      simp only [present, none, List.filter_nil]
    have declared : ¬ ∀ pin ∈ locals, pin.name ≠ name := fun none => some (nameless.mpr none)
    by_cases elsewhere : present.filter (·.declaredIn scope) = []
    · have whole : governingPins locals name scope position = present :=
        governingPins_of_elsewhere absent elsewhere
      have rest : cascade locals name scope position = preferring Pin.isDerived present := by
        rw [cascade, preferring_of_filter_ne_nil absent, preferring_of_filter_eq_nil elsewhere]
      rw [whole, rest]
      refine ⟨by simp [absent, declared], preferring_sublist _ _, ?_⟩
      rw [eq_comm, preferring_eq_self_iff]
      simp [absent, elsewhere]
    · have same : governingPins locals name scope position = cascade locals name scope position :=
        governingPins_of_here elsewhere
      have found : cascade locals name scope position ≠ [] := by
        rw [cascade, ne_eq, preferring_eq_nil_iff, preferring_eq_nil_iff, preferring_eq_nil_iff]
        exact some
      rw [same]
      refine ⟨by simp [found, declared], List.Sublist.refl _, ?_⟩
      simp [absent, elsewhere]

end

section NestedBlock

/-- The local `foo` of a method, with type `String, nil`. -/
def methodFoo : Pin :=
  .make "foo" (some (.make "run" (some .root) (.method .instanceLevel .everyone [])))
    (.variable .localVar ⟨some (.ofTag "String, nil"), none, some ⟨⟨0, 0⟩, ⟨10, 3⟩⟩, false⟩)

/-- A shadow of `foo` of type `String`, on lines 2 to 6. -/
def certainFoo : Pin :=
  methodFoo.narrowed (.ofTag "String") ⟨⟨2, 3⟩, ⟨6, 8⟩⟩

/-- A block in the method. -/
def innerBlock : Pin :=
  .make "" methodFoo.closure (.block none none)

/-- In a block within the range of the shadow, the cascade prefers the shadow, and the lookup gives
the local as well. -/
theorem governingPins_ne_cascade : ¬ ∀ (locals : List Pin) (name : String) (scope : Pin)
    (position : Option Position),
    governingPins locals name scope position = cascade locals name scope position := by
  intro same
  have lookup :
      (governingPins [methodFoo, certainFoo] "foo" innerBlock (some ⟨4, 6⟩)).length = 2 := by
    decide +kernel
  have preferred : (cascade [methodFoo, certainFoo] "foo" innerBlock (some ⟨4, 6⟩)).length = 1 := by
    decide +kernel
  rw [same, preferred] at lookup
  exact absurd lookup (by decide)

end NestedBlock

end DuckInfer
