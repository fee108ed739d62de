import DuckInfer.Proofs.Store.LookupOrder
import DuckInfer.Proofs.Store.Omission

/-!
Edges that point nowhere. The ancestor search passes over an edge whose target is not found, but the
edge may still matter: constants are looked up along includes and extends, whose targets are then
looked up in a simpler way, and the first superclass stands in the place of the implicit one. Main
statement: an edge that points nowhere and is not used in one of these ways can be left out of the
store, and every namespace keeps its ancestors.
-/

namespace DuckInfer.Store

/-! ### A store without one of its pins -/

/-- The pins of the groups before the group of a key. -/
def pinsBefore (store : Store) (key : String) : List Pin :=
  (store.groups.takeWhile (·.key != key)).flatMap Group.pins

/-- Two stores, the second of which lacks one edge of the first. -/
structure LeftOut (store rest : Store) (front : List Pin) (edge : Pin) (back : List Pin) :
    Prop where
  coherent : store.Coherent
  coherent_rest : rest.Coherent
  pins : store.everyPin = front ++ edge :: back
  pins_rest : rest.everyPin = front ++ back

theorem leftOut_update {store : Store} (coherent : store.Coherent) {key : String} {group : Group}
    {front back : List Pin} {edge : Pin} (found : store.group? key = some group)
    (listed : group.pins = front ++ edge :: back) :
    ∃ behind, store.LeftOut (store.update key (front ++ back)) (store.pinsBefore key ++ front) edge
      (back ++ behind) := by
  obtain ⟨before, after, split⟩ := coherent.split found
  have other : ∀ g ∈ before, (g.key != key) = true :=
    fun g member => bne_iff_ne.mpr (split.front g member).1
  have own : (group.key != key) = false := by simp [split.own]
  have first : store.pinsBefore key = before.flatMap Group.pins := by
    rw [pinsBefore, split.groups, List.takeWhile_append_of_pos other,
      List.takeWhile_cons_of_neg (by simp [own]), List.append_nil]
  have groups : (store.update key (front ++ back)).groups =
      before ++ { group with pins := front ++ back } :: after :=
    (update_found found (front ++ back)).1.trans (split.setPins (front ++ back))
  refine ⟨after.flatMap Group.pins, coherent, coherent.update key (front ++ back), ?_, ?_⟩
  · simp [everyPin, split.groups, first, listed]
  · simp [everyPin, groups, first]

/-- Nothing but the edges of its kind goes by the edge: the lookup of constants finds no target for
it either, and it is not the first superclass that is declared for its namespace. -/
def Unused (store : Store) (before : List Pin) (edge : Pin) : Prop :=
  match edge.edgeKind? with
  | some .prepends => True
  | some .includes | some .extends =>
    resolveWith? store.directConstant? edge.name edge.targetGates = none
  | some .superclass => ∃ earlier ∈ before, isEdgeFrom edge.space [.superclass] earlier = true
  | some .overrides | none => False

section

variable {store rest : Store} {front back : List Pin} {edge : Pin}

theorem Unused.exists_kind (unused : store.Unused front edge) :
    ∃ kind values, edge.kind = .reference kind values := by
  obtain ⟨name, closure, location, comments, kind, proxyTy⟩ := edge
  cases kind with
  | reference kind values => exact ⟨kind, values, rfl⟩
  | _ => exact unused.elim

/-! ### Lookups without the edge -/

/-- An edge is no namespace. -/
theorem LeftOut.sameSpaces (left : LeftOut store rest front edge back)
    (unused : store.Unused front edge) : SameSpaces store rest where
  coherent := left.coherent
  coherent_rest := left.coherent_rest
  spaces := by
    obtain ⟨kind, values, reference⟩ := unused.exists_kind
    have other : declares edge = false := by
      simp [declares, Pin.isSpace, Pin.isConstant, reference]
    rw [left.pins, left.pins_rest, List.filter_append, List.filter_append,
      List.filter_cons_of_neg (by simp [other])]

theorem LeftOut.edgesFrom (left : LeftOut store rest front edge back) (space : String)
    (kinds : List EdgeKind) :
    store.edgesFrom space kinds = front.filter (isEdgeFrom space kinds) ++
        [edge].filter (isEdgeFrom space kinds) ++ back.filter (isEdgeFrom space kinds) ∧
      rest.edgesFrom space kinds =
        front.filter (isEdgeFrom space kinds) ++ back.filter (isEdgeFrom space kinds) := by
  rw [left.coherent.edgesFrom, left.coherent_rest.edgesFrom, left.pins, left.pins_rest]
  simp [← List.filter_append]

/-- Whatever comes of the edges of some kinds, if nothing comes of the one that is left out. -/
theorem LeftOut.filterMap_edgesFrom {α : Type} (left : LeftOut store rest front edge back)
    {space : String} {kinds : List EdgeKind} {f : Pin → Option α}
    (nothing : isEdgeFrom space kinds edge = true → f edge = none) :
    (rest.edgesFrom space kinds).filterMap f = (store.edgesFrom space kinds).filterMap f := by
  obtain ⟨edges, edges_rest⟩ := left.edgesFrom space kinds
  rw [edges, edges_rest, List.filterMap_append, List.filterMap_append, List.filterMap_append]
  cases own : isEdgeFrom space kinds edge with
  | false => simp [own]
  | true => simp [own, nothing own]

/-- The lookup of constants goes along the same includes and extends. -/
theorem LeftOut.mixinsOf_eq (left : LeftOut store rest front edge back)
    (unused : store.Unused front edge) : rest.mixinsOf = store.mixinsOf := by
  have direct : rest.directConstant? = store.directConstant? := by
    funext gate name
    rw [directConstant?, directConstant?, (left.sameSpaces unused).hasConstant_eq]
  funext space
  rw [mixinsOf, mixinsOf, direct]
  refine left.filterMap_edgesFrom fun own => ?_
  -- an include or extend is not found by assumption, and the other edges are no mixins
  unfold Unused at unused
  unfold isEdgeFrom at own
  cases kind : edge.edgeKind? with
  | none => simp [kind] at own
  | some kind' =>
    cases kind' <;> simp_all [mixinEdges]

theorem LeftOut.dereference?_eq (left : LeftOut store rest front edge back)
    (unused : store.Unused front edge) : rest.dereference? = store.dereference? := by
  have found := resolve?_congr (left.sameSpaces unused).hasConstant_eq (left.mixinsOf_eq unused)
  funext pin
  show Id.run (if _ then _ else _) = Id.run (if _ then _ else _)
  split
  · show rest.resolve? _ _ = store.resolve? _ _
    rw [found]
  · rfl

/-! ### Ancestors without the edge -/

theorem LeftOut.targetFrames_eq (left : LeftOut store rest front edge back)
    (unused : store.Unused front edge) (dangling : store.dereference? edge = none)
    (source : Frame) (kind : EdgeKind) :
    rest.targetFrames source kind = store.targetFrames source kind := by
  have bindings : rest.edgeBindings = store.edgeBindings := by
    funext source edge target
    rw [edgeBindings, edgeBindings, (left.sameSpaces unused).genericsOf_eq]
  rw [targetFrames, targetFrames, left.dereference?_eq unused, bindings]
  exact left.filterMap_edgesFrom fun _ => by simp [dangling]

/-- The first superclass that is declared stays the first. -/
theorem LeftOut.head?_superclass (left : LeftOut store rest front edge back)
    (unused : store.Unused front edge) (space : String) :
    (rest.edges space .superclass).head? = (store.edges space .superclass).head? := by
  obtain ⟨edges, edges_rest⟩ := left.edgesFrom space [.superclass]
  rw [Store.edges, Store.edges, edges, edges_rest]
  cases own : isEdgeFrom space [.superclass] edge with
  | false => simp [own]
  | true =>
    have known : edge.edgeKind? = some .superclass ∧ edge.space = space := by
      unfold isEdgeFrom at own
      cases kind : edge.edgeKind? with
      | none => simp [kind] at own
      | some kind' => cases kind' <;> simp_all
    unfold Unused at unused
    simp only [known.1] at unused
    obtain ⟨earlier, member, superclass⟩ := unused
    rw [known.2] at superclass
    have filled : front.filter (isEdgeFrom space [.superclass]) ≠ [] :=
      List.ne_nil_of_mem (List.mem_filter.mpr ⟨member, superclass⟩)
    rw [List.append_assoc, List.head?_append_of_ne_nil _ filled,
      List.head?_append_of_ne_nil _ filled]

theorem LeftOut.superclassFrame?_eq (left : LeftOut store rest front edge back)
    (unused : store.Unused front edge) (frame : Frame) :
    rest.superclassFrame? frame = store.superclassFrame? frame := by
  have first := left.head?_superclass unused frame.path
  unfold superclassFrame? edgeBindings
  rw [left.dereference?_eq unused, (left.sameSpaces unused).genericsOf_eq,
    (left.sameSpaces unused).hasModule_eq]
  cases edges : store.edges frame.path .superclass <;>
    cases edges' : rest.edges frame.path .superclass <;> simp_all

theorem LeftOut.expansion_eq (left : LeftOut store rest front edge back)
    (unused : store.Unused front edge) (dangling : store.dereference? edge = none)
    (frame : Frame) : Id.run (rest.expansion frame) = Id.run (store.expansion frame) := by
  have targets := left.targetFrames_eq unused dangling frame
  have superclass := left.superclassFrame?_eq unused frame
  cases level : frame.scope with
  | instanceLevel =>
    simp only [run_expansion_instance level, run_followAll_eq, ← level, run_superclassOf_eq,
      targets, superclass]
  | classLevel =>
    simp only [run_expansion_class level, run_followAll_eq, ← level, run_superclassOf_eq, targets,
      superclass]

theorem LeftOut.ancestors_eq (left : LeftOut store rest front edge back)
    (unused : store.Unused front edge) (dangling : store.dereference? edge = none)
    (path : String) (scope : Scope) :
    Id.run (rest.ancestors path scope) = Id.run (store.ancestors path scope) := by
  have entries : rest.entries = store.entries := by
    funext start
    rw [Store.entries, Store.entries, metaPath, metaPath, (left.sameSpaces unused).hasModule_eq]
  refine (run_search rest _).trans (Eq.trans ?_ (run_search store _).symm)
  rw [entries, (left.sameSpaces unused).reachableKeys_eq]
  exact workOff_congr (left.expansion_eq unused dangling) _ _

end

/-- After any history, an edge that points nowhere and is not used otherwise can be left out of its
group, and every namespace has the same ancestors, with the same bindings. -/
theorem ancestors_withoutDangling (changes : List Change) {key : String} {group : Group}
    {front back : List Pin} {edge : Pin}
    (found : (afterChanges changes).group? key = some group)
    (listed : group.pins = front ++ edge :: back)
    (dangling : (afterChanges changes).dereference? edge = none)
    (unused : (afterChanges changes).Unused ((afterChanges changes).pinsBefore key ++ front) edge)
    (path : String) (scope : Scope) :
    Id.run (((afterChanges changes).update key (front ++ back)).ancestors path scope) =
      Id.run ((afterChanges changes).ancestors path scope) := by
  obtain ⟨behind, left⟩ := leftOut_update (coherent_afterChanges changes) found listed
  exact left.ancestors_eq unused dangling path scope

section Dangling

/-- The class `Foo`. -/
def classFoo : Pin :=
  .make "Foo" (some .root) (.space false [])

/-- `include Nowhere` in `Foo`. -/
def includeNowhere : Pin :=
  .edge classFoo .includes "Nowhere" []

/-- `Foo` has the same ancestors with and without the inclusion of what is declared nowhere. -/
theorem ancestors_withoutDangling_nowhere :
    let changes := [Change.update "foo.rb" [.root, classFoo, includeNowhere]]
    (afterChanges changes).dereference? includeNowhere = none ∧
      Id.run (((afterChanges changes).update "foo.rb" [.root, classFoo]).ancestors "Foo"
          .instanceLevel) =
        Id.run ((afterChanges changes).ancestors "Foo" .instanceLevel) := by
  intro changes
  have dangling : (afterChanges changes).dereference? includeNowhere = none := by decide +kernel
  have found : (afterChanges changes).group? "foo.rb" =
      some ⟨"foo.rb", 0, [.root, classFoo, includeNowhere]⟩ := by rfl
  have unused : (afterChanges changes).Unused
      ((afterChanges changes).pinsBefore "foo.rb" ++ [.root, classFoo]) includeNowhere := by
    show resolveWith? (afterChanges changes).directConstant? _ _ = none
    decide +kernel
  have listed : [Pin.root, classFoo, includeNowhere] =
      [.root, classFoo] ++ includeNowhere :: [] := rfl
  exact ⟨dangling,
    ancestors_withoutDangling changes found listed dangling unused "Foo" .instanceLevel⟩

/-- The modules `A`, `A::B`, `A::B::X`, `M` and `M::A`. -/
def nestedSpaces : List Pin :=
  let space (name : String) (closure : Pin) : Pin := .make name (some closure) (.space true [])
  let a := space "A" .root
  let b := space "B" a
  let m := space "M" .root
  [.root, a, b, space "X" b, m, space "A" m]

/-- The class `N`. -/
def classN : Pin :=
  .make "N" (some .root) (.space false [])

/-- An inclusion in `N`. -/
def includeInN (name : String) : Pin :=
  .edge classN .includes name []

/-- All edges of a kind that point nowhere can be left out, and every namespace keeps its
ancestors. -/
def DanglingInert (kind : EdgeKind) : Prop :=
  ∀ (changes : List Change) (key : String) (group : Group) (front back : List Pin) (edge : Pin)
    (path : String) (scope : Scope),
    (afterChanges changes).group? key = some group → group.pins = front ++ edge :: back →
      edge.edgeKind? = some kind → (afterChanges changes).dereference? edge = none →
      Id.run (((afterChanges changes).update key (front ++ back)).ancestors path scope) =
        Id.run ((afterChanges changes).ancestors path scope)

/-- A superclass that is declared nowhere stands in the place of `Object`. And `N` includes `M`,
`A::B` and `X`: the module `A` that `N` sees is `M::A`, so that `A::B` is not found, but the lookup
of `X` takes the inclusion for one of the outer `A::B`. -/
theorem not_danglingInert : ¬ DanglingInert .superclass ∧ ¬ DanglingInert .includes := by
  refine ⟨fun claimed => ?_, fun claimed => ?_⟩
  · let superNowhere : Pin := .edge classFoo .superclass "Nowhere" []
    let declared : List Pin := [.root, classFoo, superNowhere]
    let changes := [Change.update "foo.rb" declared]
    have same := claimed changes "foo.rb" ⟨"foo.rb", 0, declared⟩ [.root, classFoo] []
      superNowhere "Foo" .instanceLevel rfl rfl rfl (by decide +kernel)
    have inStore : (Id.run ((afterChanges changes).ancestors "Foo" .instanceLevel)).map Frame.path =
        ["Foo"] :=
      ancestors_of_within 30 (by decide +kernel)
    have without : (Id.run (((afterChanges changes).update "foo.rb" [.root, classFoo]).ancestors
        "Foo" .instanceLevel)).map Frame.path = ["Foo", "Object", "BasicObject"] :=
      ancestors_of_within 30 (by decide +kernel)
    have paths := congrArg (List.map Frame.path) same
    exact absurd (without.symm.trans (paths.trans inStore)) (by decide)
  · let included : List Pin := [classN, includeInN "M", includeInN "A::B", includeInN "X"]
    let changes := [Change.update "core" nestedSpaces, .update "a.rb" included]
    have same := claimed changes "a.rb" ⟨"a.rb", 1, included⟩ [classN, includeInN "M"]
      [includeInN "X"] (includeInN "A::B") "N" .instanceLevel rfl rfl rfl (by decide +kernel)
    have inStore : (Id.run ((afterChanges changes).ancestors "N" .instanceLevel)).map Frame.path =
        ["N", "A::B::X", "M", "Object", "BasicObject"] :=
      ancestors_of_within 30 (by decide +kernel)
    have without : (Id.run (((afterChanges changes).update "a.rb"
        [classN, includeInN "M", includeInN "X"]).ancestors "N" .instanceLevel)).map Frame.path =
          ["N", "M", "Object", "BasicObject"] :=
      ancestors_of_within 30 (by decide +kernel)
    have paths := congrArg (List.map Frame.path) same
    exact absurd (without.symm.trans (paths.trans inStore)) (by decide)

end Dangling

end DuckInfer.Store
