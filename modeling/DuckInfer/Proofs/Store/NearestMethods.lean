import DuckInfer.Proofs.Infer.Steady
import DuckInfer.Proofs.Store.Listing
import DuckInfer.Proofs.Store.Specialization

/-!
The nearest methods of a namespace beside the methods of one name that a receiver has. The first are
listed as they are stored and once for each name, the second are rewritten by overriding
documentation and by the generics of their frames. Main statement: both are found in the same
frames, so that a name is listed if and only if the receiver has methods of it, and then the listed
one is declared where the first of them is.
-/

namespace DuckInfer

theorem Pin.location_withOverloads (pin : Pin) (signatures : List Signature) :
    (pin.withOverloads signatures).location = pin.location := by
  obtain ⟨name, closure, location, comments, kind, proxyTy⟩ := pin
  cases kind <;> rfl

namespace Store

/-! ### Receivers without parameters -/

/-- A receiver that has the methods of a namespace in a scope and says nothing about its generics.
-/
structure Bare (receiver : Member) (space : String) (scope : Scope) : Prop where
  space : receiver.space = space
  scope : receiver.scope = scope
  params : (receiverInstance receiver).params = []

/-- The plain type of a namespace, for its instances. -/
theorem bare_named {space : String} (same : (Member.named space).space = space) :
    Bare (.named space) space .instanceLevel where
  space := same
  scope := by simp [Member.scope, Member.isMeta, Member.named]
  params := by simp [receiverInstance, Member.scope, Member.isMeta, Member.named, Member.params]

/-- `Class` of a namespace, for the namespace itself. -/
theorem bare_class (space : String) :
    Bare (.list "Class" [.single (.named space)]) space .classLevel where
  space := by
    have proper : (Member.list "Class" [.single (.named space)]).isDuck = false := by
      simp [Member.isDuck, Member.list, Member.make]
    simp only [Member.space, proper]
    simp [Member.list, Member.make, Member.isMetaName, Ty.name, Ty.single, Member.named]
  scope := rfl
  params := rfl

theorem ofReceiver_eq_empty (generics : List String) {receiver : Member}
    (params : receiver.params = []) : Bindings.ofReceiver generics receiver = .empty := by
  obtain ⟨keys, subs⟩ := List.append_eq_nil_iff.mp params
  have nothing : ∀ values : List Ty, (∀ t ∈ values, t.isUndefined = true) →
      Bindings.ofList ((generics.zip values).filter fun pair => !pair.2.isUndefined) = .empty := by
    intro values unknown
    have filtered : ((generics.zip values).filter fun pair => !pair.2.isUndefined) = [] :=
      List.filter_eq_nil_iff.mpr fun pair listed => by
        simp [unknown pair.2 (List.of_mem_zip listed).2]
    rw [filtered]
    rfl
  have unknown : ∀ t, t = Ty.unionAll [] → t.isUndefined = true := by
    rintro _ rfl
    rfl
  refine nothing _ fun t listed => ?_
  revert listed
  cases receiver.kind with
  | none => simp
  | hash => simpa [Member.keyTy, Member.valueTy, keys, subs] using unknown t
  | list | fixed =>
    simp only [Member.valueTy, subs]
    split
    · simpa using unknown t
    · simp

theorem receiverFrame_eq {store : Store} {receiver : Member} {space : String} {scope : Scope}
    (bare : Bare receiver space scope) : store.receiverFrame receiver = .make space scope := by
  rw [receiverFrame, ofReceiver_eq_empty _ bare.params, bare.space, bare.scope, Frame.make]

/-! ### Methods of the same frames -/

/-- The methods that frames contribute, as they are stored. -/
def declaredIn (store : Store) (frames : List Frame) : List Pin :=
  frames.flatMap fun frame => store.methodsOf frame.path frame.scope

/-- The second pin is what is seen of the first. -/
def SameDeclaration (stored seen : Pin) : Prop :=
  seen.path = stored.path ∧ seen.location = stored.location

theorem forall₂_frameMethods (store : Store) (name : String) (frames : List Frame) :
    List.Forall₂ SameDeclaration ((store.declaredIn frames).filter (·.name == name))
      (frames.flatMap (store.frameMethods name)) := by
  induction frames with
  | nil => exact .nil
  | cons frame frames ih =>
    rw [declaredIn, List.flatMap_cons, List.flatMap_cons, List.filter_append]
    refine List.rel_append ?_ ih
    rw [frameMethods, List.forall₂_map_right_iff, List.forall₂_same]
    exact fun stored _ => ⟨seenFrom_eq Pin.path_withOverloads Pin.path_proxied _ _ _,
      seenFrom_eq Pin.location_withOverloads (fun _ _ => rfl) _ _ _⟩

/-- The nearest method of a name is the first one that is declared. -/
theorem find?_nearest (declared : List Pin) (name : String) :
    (distinctOn Pin.name declared).find? (·.name == name) =
      (declared.filter (·.name == name)).head? := by
  rw [find?_distinctOn Pin.name (· == name), List.head?_filter]

theorem mem_names_nearest {declared : List Pin} {name : String} :
    name ∈ (distinctOn Pin.name declared).map Pin.name ↔
      declared.filter (·.name == name) ≠ [] := by
  have found : ((distinctOn Pin.name declared).find? (·.name == name)).isSome ↔
      declared.filter (·.name == name) ≠ [] := by
    rw [find?_nearest, List.isSome_head?]
  rw [← found, List.find?_isSome]
  simp

theorem found_nearestMethods {m : Type → Type} [Monad m] [ConstantLookup m] {σ : Type}
    {r : SteadyRunner m σ} {s : σ} {store : Store} {space : String} {scope : Scope}
    {pins : List Pin} (nearest : r.Found s (store.nearestMethods space scope) pins) :
    ∃ frames, r.Found s (store.ancestors space scope) frames ∧
      pins = distinctOn Pin.name (store.declaredIn frames) := by
  obtain ⟨frames, searched, listed⟩ := nearest.of_bind fun _ => .pure _
  exact ⟨frames, searched, listed.of_pure.symm⟩

/-- The nearest methods of a namespace have different names. Whoever asks for the methods of a name
that the plain receiver has gets some if and only if the name is listed, and the listed method is
declared where the first of them is. -/
theorem nearestMethods_agree {m : Type → Type} [Monad m] [LawfulMonad m] [ConstantLookup m]
    {σ : Type} {r : SteadyRunner m σ} {s : σ} {store : Store} {receiver : Member}
    {space : String} {scope : Scope} {pins : List Pin} (bare : Bare receiver space scope)
    (nearest : r.Found s (store.nearestMethods space scope) pins) :
    (pins.map Pin.name).Nodup ∧
      ∀ name, ∃ stack, r.Found s (store.methodsNamed receiver name) stack ∧
        (name ∈ pins.map Pin.name ↔ stack ≠ []) ∧
        ∀ pin ∈ pins, pin.name = name →
          ∃ head, stack.head? = some head ∧ SameDeclaration pin head := by
  obtain ⟨frames, searched, rfl⟩ := found_nearestMethods nearest
  have distinct : ((distinctOn Pin.name (store.declaredIn frames)).map Pin.name).Nodup :=
    distinctFrom_nodup Pin.name _ []
  refine ⟨distinct, fun name => ?_⟩
  have sameSearch : store.receiverAncestors receiver (m := m) = store.ancestors space scope := by
    rw [receiverAncestors, ancestors, receiverFrame_eq bare]
  have methods : r.Found s (store.methodsNamed receiver name)
      (frames.flatMap (store.frameMethods name)) :=
    SteadyRunner.found_methodsNamed_of_found (sameSearch ▸ searched)
  have inStep := forall₂_frameMethods store name frames
  refine ⟨_, methods, ?_, fun pin listed named => ?_⟩
  · rw [mem_names_nearest, ← List.length_pos_iff, ← List.length_pos_iff, inStep.length_eq]
  · subst named
    have first : ((store.declaredIn frames).filter (·.name == pin.name)).head? = some pin :=
      (find?_nearest (store.declaredIn frames) pin.name).symm.trans
        (find?_of_mem_distinct distinct listed)
    obtain ⟨others, front⟩ := List.head?_eq_some_iff.mp first
    rw [front] at inStep
    obtain ⟨head, rest, same, -, stack⟩ := List.forall₂_cons_left_iff.mp inStep
    exact ⟨head, by rw [stack, List.head?_cons], same⟩

section Shadowed

/-- A class `Foo` with the methods `bar` and, on itself, `make`. It includes a module with the
methods `bar` and `baz`. -/
def shadowed : Store :=
  let foo : Pin := .make "Foo" (some .root) (.space false [])
  let mixed : Pin := .make "M" (some .root) (.space true [])
  let method (name : String) (closure : Pin) (scope : Scope) : Pin :=
    .make name (some closure) (.method scope .everyone [])
  .ofGroups [("m.rb", [.root, mixed, method "bar" mixed .instanceLevel,
      method "baz" mixed .instanceLevel]),
    ("foo.rb", [foo, .edge foo .includes "M" [], method "bar" foo .instanceLevel,
      method "make" foo .classLevel])]

/-- The methods at these paths are listed for `Foo`, and the receiver has methods of their names and
no others, declared where the listed ones are. -/
def ShadowedListing (receiver : Member) (scope : Scope) (paths : List String) : Prop :=
  ∃ pins, SteadyRunner.plain.Found () (shadowed.nearestMethods "Foo" scope) pins ∧
    pins.map Pin.path = paths ∧ (pins.map Pin.name).Nodup ∧
    ∀ name, ∃ stack, SteadyRunner.plain.Found () (shadowed.methodsNamed receiver name) stack ∧
      (name ∈ pins.map Pin.name ↔ stack ≠ []) ∧
      ∀ pin ∈ pins, pin.name = name → ∃ head, stack.head? = some head ∧ SameDeclaration pin head

/-- The plain type `Foo` and the type `Class<Foo>`. -/
theorem nearestMethods_agree_shadowed :
    ShadowedListing (.named "Foo") .instanceLevel ["Foo#bar", "M#baz"] ∧
      ShadowedListing (.list "Class" [.single (.named "Foo")]) .classLevel ["Foo.make"] := by
  have nearest (scope : Scope) :=
    SteadyRunner.plain.found_run (shadowed.nearestMethods "Foo" scope) ()
  have paths {scope : Scope} := @ancestors_of_within _ shadowed 20 "Foo" scope
    fun frames => (distinctOn Pin.name (shadowed.declaredIn frames)).map Pin.path
  exact ⟨⟨_, nearest _, paths (by decide +kernel),
      nearestMethods_agree (bare_named (by decide +kernel)) (nearest _)⟩,
    ⟨_, nearest _, paths (by decide +kernel),
      nearestMethods_agree (bare_class "Foo") (nearest _)⟩⟩

end Shadowed

end Store

end DuckInfer
