import DuckInfer.Proofs.Flow.Belonging
import DuckInfer.Proofs.Flow.Cascade
import DuckInfer.Proofs.Flow.Placement
import DuckInfer.Proofs.Ty.Unions

/-!
Several facts about one variable. Main statement: where facts about a declared variable hold, a
lookup gives a shadow for each of them, with what this fact alone leaves of the declared type. A
member that one fact excludes stays out of the union of their types if no other one leaves it, and
is in it again as soon as one does.
-/

namespace DuckInfer

/-- The predicate says of a value that it is not of the member's type. -/
def Predicate.excludes : Predicate → Member → Bool
  | .notNil, member => member.isNil
  | .notA path, member => Flow.isSpelledBy member.name path
  | .isA _, _ | .isNil, _ => false

/-- The predicate holds of an object; `means` gives the class that a written name refers to. -/
def Predicate.HoldsOf (store : Store) (means : String → String) (object : Instance) :
    Predicate → Prop
  | .isA path => object.isKindOf store (means path) = true
  | .notA path => object.isKindOf store (means path) = false
  | .isNil => object = .nil
  | .notNil => object ≠ .nil

namespace Flow

/-! ### Facts about a declaration -/

/-- The pin declares its name alone among some locals, with a known type. -/
structure Declares (locals : List Pin) (declared : Pin) : Prop where
  only : locals.filter (·.name == declared.name) = [declared]
  known : declared.returnTy.isUndefined = false
  plain : declared.isDerived = false

/-- What a predicate alone leaves of the declared type. -/
def remainder (declared : Pin) (predicate : Predicate) : Ty :=
  Id.run (narrowedTy none [] declared predicate)

/-- The placement is about the variable and lies over the position. -/
def coversVariable (name : String) (p : Position) (q : Placement) : Bool :=
  q.range.contains p && q.reading.fact.name == name

/-- What the facts that are placed over a position say about a variable. -/
def predicatesAt (name : String) (p : Position) (ps : List Placement) : List Predicate :=
  (ps.filter (coversVariable name p)).map fun q => q.reading.fact.predicate

/-- The pin has the name and is present at the position. -/
def isPresent (name : String) (p : Position) (pin : Pin) : Bool :=
  pin.coversPosition (some p) && pin.name == name

/-- The shadow of a declaration that a placement asks for. -/
def shadowOf? (declared : Pin) (q : Placement) : Option Pin :=
  let t := remainder declared q.reading.fact.predicate
  if t.isUndefined then none else some (declared.narrowed t q.range)

section

variable {oracle : Oracle Id} {locals seen first result : List Pin} {declared : Pin} {p : Position}
  {ps : List Placement}

theorem narrowedTy_declared (known : declared.returnTy.isUndefined = false) (oracle : Oracle Id)
    (locals : List Pin) (predicate : Predicate) :
    Id.run (narrowedTy oracle locals declared predicate) = remainder declared predicate := by
  cases predicate with
  | isA path => rfl
  | isNil => rfl
  | notNil => simp only [remainder, narrowedTy, baseTy_declared _ _ known]
  | notA path => simp only [remainder, narrowedTy, baseTy_declared _ _ known]

/-- The declaration stands before all shadows, so that it is the variable that a test means. -/
theorem governing?_declared (declares : Declares locals declared) (since : locals <+: seen)
    {tested : Position} (governs : declared.governsAt tested = true) :
    governing? seen declared.name tested = some declared := by
  have split : governing? locals declared.name tested =
      (locals.filter (·.name == declared.name)).find? (·.governsAt tested) := by
    simp only [governing?, List.find?_filter, Bool.decide_and, Bool.decide_eq_true]
  refine governing?_of_prefix since ?_
  rw [split, declares.only]
  simp [governs]

theorem shadow?_declared (declares : Declares locals declared) (since : locals <+: seen)
    {q : Placement} (named : q.reading.fact.name = declared.name)
    (governs : declared.governsAt q.reading.fact.tested = true) :
    shadow? oracle seen q = shadowOf? declared q := by
  have means := governing?_declared declares since governs
  simp only [shadow?, shadowOf?, named, means, Option.bind_eq_bind, Option.bind_some,
    narrowedTy_declared declares.known]

/-- A shadow is present where its placement covers the variable. -/
theorem isPresent_shadow? {q : Placement} {pin : Pin} {name : String}
    (shadow : shadow? oracle seen q = some pin) :
    isPresent name p pin = coversVariable name p q := by
  obtain ⟨base, means, shadow⟩ := Option.bind_eq_some_iff.mp shadow
  have named : base.name = q.reading.fact.name := by
    have tested := List.find?_some means
    simp only [Bool.and_eq_true, beq_iff_eq] at tested
    exact tested.1
  dsimp only at shadow
  split at shadow
  · exact absurd shadow (by simp)
  · obtain rfl := Option.some.inj shadow
    exact congrArg (fun other => q.range.contains p && other == name) named

/-- The pins of the declared name at a position are those from before and the shadows of the facts
that hold there. -/
theorem Adds.filter_isPresent (adds : Adds oracle first ps locals result)
    (declares : Declares first declared)
    (tested : ∀ q ∈ ps.filter (coversVariable declared.name p),
      declared.governsAt q.reading.fact.tested = true) :
    result.filter (isPresent declared.name p) = locals.filter (isPresent declared.name p) ++
      (ps.filter (coversVariable declared.name p)).filterMap (shadowOf? declared) := by
  induction adds with
  | nil => simp
  | @cons q ps seen locals result since before _ ih =>
    have one : (shadow? oracle seen q).toList.filter (isPresent declared.name p) =
        ([q].filter (coversVariable declared.name p)).filterMap (shadowOf? declared) := by
      by_cases covers : coversVariable declared.name p q = true
      · have named : q.reading.fact.name = declared.name := by
          simp only [coversVariable, Bool.and_eq_true, beq_iff_eq] at covers
          exact covers.2
        have governs : declared.governsAt q.reading.fact.tested = true :=
          tested q (List.mem_filter.mpr ⟨List.mem_cons_self, covers⟩)
        have same : shadow? oracle seen q = shadowOf? declared q :=
          shadow?_declared declares since named governs
        cases shadow : shadow? oracle seen q with
        | none => simp [covers, ← same, shadow]
        | some pin =>
          have present : isPresent declared.name p pin = coversVariable declared.name p q :=
            isPresent_shadow? shadow
          simp [covers, ← same, shadow, present]
      · cases shadow : shadow? oracle seen q with
        | none => simp [covers]
        | some pin =>
          have absent : isPresent declared.name p pin = coversVariable declared.name p q :=
            isPresent_shadow? shadow
          simp [covers, absent]
    have later : ∀ other ∈ ps.filter (coversVariable declared.name p),
        declared.governsAt other.reading.fact.tested = true := fun other listed =>
      tested other (((List.sublist_cons_self q ps).filter _).subset listed)
    have split : (q :: ps).filter (coversVariable declared.name p) =
        [q].filter (coversVariable declared.name p) ++
          ps.filter (coversVariable declared.name p) := List.filter_append [q] ps
    rw [ih later, List.filter_append, List.append_assoc, one, split, List.filterMap_append]

/-- The shadows of a declaration, with their types. -/
theorem map_returnTy_shadowOf? (declared : Pin) (ps : List Placement) :
    (ps.filterMap (shadowOf? declared)).map Pin.returnTy =
      ((ps.map fun q => q.reading.fact.predicate).map (remainder declared)).filter
        (!·.isUndefined) := by
  induction ps with
  | nil => rfl
  | cons q ps ih =>
    rw [List.filterMap_cons, List.map_cons, List.map_cons, List.filter_cons, ← ih, shadowOf?]
    cases (remainder declared q.reading.fact.predicate).isUndefined <;> rfl

theorem of_mem_shadows {pin scope : Pin} (listed : pin ∈ ps.filterMap (shadowOf? declared)) :
    pin.isDerived = true ∧ pin.declaredIn scope = declared.declaredIn scope := by
  obtain ⟨q, -, made⟩ := List.mem_filterMap.mp listed
  unfold shadowOf? at made
  dsimp only at made
  split at made
  · exact absurd made (by simp)
  · obtain rfl := Option.some.inj made
    exact ⟨rfl, rfl⟩

/-- Where a fact about a declaration left something, the lookup gives the shadows of the facts that
hold there. -/
theorem governingPins_of_facts (declares : Declares locals declared) {scope : Pin}
    (here : declared.declaredIn scope = true)
    (adds : Adds oracle locals ps locals result)
    (tested : ∀ q ∈ ps.filter (coversVariable declared.name p),
      declared.governsAt q.reading.fact.tested = true)
    (told : (ps.filter (coversVariable declared.name p)).filterMap (shadowOf? declared) ≠ []) :
    governingPins result declared.name scope (some p) =
      (ps.filter (coversVariable declared.name p)).filterMap (shadowOf? declared) := by
  have added := adds.filter_isPresent declares tested
  have of_shadow : ∀ pin ∈ (ps.filter (coversVariable declared.name p)).filterMap
      (shadowOf? declared), pin.isDerived = true ∧
        pin.declaredIn scope = declared.declaredIn scope := fun _ => of_mem_shadows
  generalize (ps.filter (coversVariable declared.name p)).filterMap (shadowOf? declared) = shadows
    at told added of_shadow
  have before : locals.filter (isPresent declared.name p) =
      [declared].filter (·.coversPosition (some p)) := by
    rw [← declares.only, List.filter_filter]
    rfl
  have present : (result.filter (·.name == declared.name)).filter (·.coversPosition (some p)) =
      [declared].filter (·.coversPosition (some p)) ++ shadows := by
    rw [List.filter_filter, ← before]
    exact added
  have allHere : ([declared].filter (·.coversPosition (some p)) ++ shadows).filter
      (·.declaredIn scope) = [declared].filter (·.coversPosition (some p)) ++ shadows := by
    rw [List.filter_eq_self]
    intro pin listed
    rcases List.mem_append.mp listed with listed | listed
    · rw [List.mem_singleton.mp (List.mem_filter.mp listed).1]
      exact here
    · exact (of_shadow pin listed).2.trans here
  have derived : ([declared].filter (·.coversPosition (some p)) ++ shadows).filter Pin.isDerived =
      shadows := by
    rw [List.filter_append, List.filter_eq_self.mpr fun pin listed => (of_shadow pin listed).1,
      List.filter_filter, List.filter_eq_nil_iff.mpr, List.nil_append]
    intro pin listed
    rw [List.mem_singleton.mp listed]
    simp [declares.plain]
  have nonempty : [declared].filter (·.coversPosition (some p)) ++ shadows ≠ [] := by
    simp [told]
  generalize [declared].filter (·.coversPosition (some p)) ++ shadows = all
    at present allHere derived nonempty
  have first : preferring (·.coversPosition (some p)) (result.filter (·.name == declared.name)) =
      all :=
    (preferring_of_filter_ne_nil (by rwa [present])).trans present
  have second : preferring (·.declaredIn scope) all = all :=
    (preferring_of_filter_ne_nil (by rwa [allHere])).trans allHere
  have third : preferring Pin.isDerived all = shadows :=
    (preferring_of_filter_ne_nil (by rwa [derived])).trans derived
  rw [governingPins_of_here (by rwa [present, allHere]), cascade, first, second, third]

/-- Where facts about a declared variable hold, a lookup from the scope of the declaration gives a
shadow for each of them that leaves something, with what this fact alone leaves of the declared
type. So the union of their types has no member that a fact excludes, if none of the facts leaves
one; and it has a member for each one that some fact leaves. -/
theorem governingPins_composed (oracle : Oracle Id) (loop : Option Range) (n : Node) (scope : Pin)
    (declares : Declares locals declared) (here : declared.declaredIn scope = true)
    (tested : ∀ q ∈ (placements loop false n).filter (coversVariable declared.name p),
      declared.governsAt q.reading.fact.tested = true) :
    let facts := predicatesAt declared.name p (placements loop false n)
    let left := (facts.map (remainder declared)).filter (!·.isUndefined)
    let pins := governingPins (Id.run (narrowAll oracle loop n locals)) declared.name scope (some p)
    left ≠ [] → pins.map Pin.returnTy = left ∧
      (∀ fact ∈ facts, (∀ t ∈ left, ∀ member ∈ t.members, fact.excludes member = false) →
        ∀ member ∈ (Ty.unionAll (pins.map Pin.returnTy)).members, fact.excludes member = false) ∧
      ∀ t ∈ left, ∀ member ∈ t.members,
        ∃ kept ∈ (Ty.unionAll (pins.map Pin.returnTy)).members, kept.tag = member.tag := by
  intro facts left pins some
  have types : (((placements loop false n).filter
      (coversVariable declared.name p)).filterMap (shadowOf? declared)).map Pin.returnTy = left :=
    map_returnTy_shadowOf? declared _
  have shadows : pins.map Pin.returnTy = left := by
    rw [← types]
    refine congrArg (List.map Pin.returnTy) (governingPins_of_facts declares here
      (adds_narrowAll oracle n loop false locals) tested fun none => some ?_)
    rw [← types, none]
    rfl
  rw [shadows]
  refine ⟨rfl, fun fact _ without member listed => ?_, fun t part member listed => ?_⟩
  · obtain ⟨t, part, listed⟩ := Ty.exists_of_mem_unionAll some listed
    exact without t part member listed
  · exact Ty.exists_mem_unionAll part listed

end

section NestedTests

/-- The local `foo` of a method, with type `Foo, String, nil`. -/
def unionFoo : Pin :=
  { methodFoo with
    kind := .variable .localVar
      ⟨some (.ofMembers [.named "Foo", .named "String", .named "nil"]), none,
        some ⟨⟨0, 0⟩, ⟨10, 3⟩⟩, false⟩ }

/-- The method around it. -/
def runMethod : Pin :=
  .make "run" (some .root) (.method .instanceLevel .everyone [])

/-- `foo.is_a?(Foo)` with a statement in each branch -/
def innerTest : Node :=
  .branch
    (.send (some (.var .localVar "foo" ⟨⟨4, 7⟩, ⟨4, 10⟩⟩)) "is_a?"
      [.const none "Foo" ⟨⟨4, 17⟩, ⟨4, 20⟩⟩] ⟨⟨4, 7⟩, ⟨4, 20⟩⟩)
    (some (.other ⟨⟨5, 6⟩, ⟨5, 10⟩⟩)) (some (.other ⟨⟨7, 6⟩, ⟨7, 16⟩⟩)) ⟨⟨4, 4⟩, ⟨8, 7⟩⟩

/-- `foo.nil?` with this test in its `else` branch -/
def nestedTests : Node :=
  .branch (.send (some (.var .localVar "foo" ⟨⟨1, 5⟩, ⟨1, 8⟩⟩)) "nil?" [] ⟨⟨1, 5⟩, ⟨1, 13⟩⟩)
    (some (.other ⟨⟨2, 4⟩, ⟨2, 12⟩⟩)) (some innerTest) ⟨⟨1, 2⟩, ⟨9, 5⟩⟩

/-- What a lookup of `foo` in the method gives after narrowing. -/
def fooPins (p : Position) : List Pin :=
  governingPins (Id.run (narrowAll none none nestedTests [unionFoo])) "foo" runMethod (some p)

theorem declares_unionFoo : Declares [unionFoo] unionFoo where
  only := by rw [List.filter_eq_self]; simp
  known := by decide +kernel
  plain := rfl

/-- Where `foo` is no `nil` and a `Foo`, both facts leave `nil` out. -/
theorem governingPins_composed_nestedTests :
    (fooPins ⟨5, 8⟩).map (·.returnTy.tag) = ["Foo, String", "Foo"] ∧
      ∀ member ∈ (Ty.unionAll ((fooPins ⟨5, 8⟩).map Pin.returnTy)).members,
        member.isNil = false := by
  have governed : ∀ q ∈ (placements none false nestedTests).filter
      (coversVariable unionFoo.name ⟨5, 8⟩), unionFoo.governsAt q.reading.fact.tested = true := by
    rw [← List.all_eq_true]
    decide +kernel
  have left : (((predicatesAt unionFoo.name ⟨5, 8⟩ (placements none false nestedTests)).map
      (remainder unionFoo)).filter (!·.isUndefined)).map (fun t => (t.tag, t.mayBeNil)) =
        [("Foo, String", false), ("Foo", false)] := by
    decide +kernel
  obtain ⟨types, without, -⟩ := governingPins_composed none none nestedTests runMethod
    declares_unionFoo rfl governed fun nothing => by
      rw [nothing] at left
      exact absurd left (by simp)
  have shown : ((fooPins ⟨5, 8⟩).map Pin.returnTy).map (fun t => (t.tag, t.mayBeNil)) =
      [("Foo, String", false), ("Foo", false)] :=
    (congrArg (List.map _) types).trans left
  have told : Predicate.notNil ∈
      predicatesAt unionFoo.name ⟨5, 8⟩ (placements none false nestedTests) := by
    decide +kernel
  refine ⟨?_, without .notNil told fun t part member listed => ?_⟩
  · have tags := congrArg (List.map Prod.fst) shown
    rw [List.map_map, List.map_map] at tags
    exact tags
  · have entry : (t.tag, t.mayBeNil) ∈ [("Foo, String", false), ("Foo", false)] :=
      left ▸ List.mem_map.mpr ⟨t, part, rfl⟩
    have proper : t.mayBeNil = false := by
      rcases List.mem_pair.mp entry with same | same
      · exact congrArg Prod.snd same
      · exact congrArg Prod.snd same
    exact Bool.eq_false_iff.mpr fun isNil =>
      Bool.eq_false_iff.mp proper (List.any_eq_true.mpr ⟨member, listed, isNil⟩)

/-- Where `foo` is neither `nil` nor a `Foo`, the second test brings `nil` back, and the first one
`Foo`. -/
theorem governingPins_bringsBack_nestedTests : ¬ ∀ (locals : List Pin) (declared scope : Pin)
    (n : Node) (p : Position), Declares locals declared → declared.extent?.isSome = true →
    declared.declaredIn scope = true →
    (∃ store means object, ∀ fact ∈ predicatesAt declared.name p (placements none false n),
      fact.HoldsOf store means object) →
    ∀ fact ∈ predicatesAt declared.name p (placements none false n),
      ∀ member ∈ (Ty.unionAll ((governingPins (Id.run (narrowAll none none n locals)) declared.name
        scope (some p)).map Pin.returnTy)).members, fact.excludes member = false := by
  intro claimed
  have facts : predicatesAt unionFoo.name ⟨7, 8⟩ (placements none false nestedTests) =
      [.notNil, .notA "Foo"] := by
    decide +kernel
  have other : (Instance.ofClass "String").isKindOf nestedFoo "Foo" = false := by
    rw [← Bool.not_eq_true]
    exact fun kind => absurd (nestedFoo_ancestors (by simp) kind) (by decide)
  have absent := claimed [unionFoo] unionFoo runMethod nestedTests ⟨7, 8⟩ declares_unionFoo rfl rfl
    ⟨nestedFoo, id, .ofClass "String", fun fact told => ?_⟩ .notNil ?_
  · have back : (Ty.unionAll ((fooPins ⟨7, 8⟩).map Pin.returnTy)).mayBeNil = true := by
      decide +kernel
    obtain ⟨member, listed, isNil⟩ := List.any_eq_true.mp back
    exact absurd ((absent member listed).symm.trans isNil) (by simp)
  · rw [facts] at told
    rcases List.mem_pair.mp told with rfl | rfl
    · exact Instance.noConfusion
    · exact other
  · rw [facts]
    exact List.mem_cons_self

end NestedTests

end Flow

end DuckInfer
