import DuckInfer.Proofs.Store.LookupOrder
import DuckInfer.Proofs.Store.Specialization

/-!
Ancestors of receivers with parameters. The search goes by namespaces and scopes and never looks at
what is bound. Main statement: receivers of the same namespace have the same ancestors in the same
order whatever their parameters are; what edges bind is closed; and of a receiver without
placeholders the methods show no placeholder that their frame binds.
-/

namespace DuckInfer

/-! ### Values of a receiver -/

/-- What stands in a receiver for so many generics. -/
def Member.valuesFor (count : Nat) (receiver : Member) : List Ty :=
  match receiver.kind with
  | .none => []
  | .hash => [receiver.keyTy, receiver.valueTy]
  | .list | .fixed => if count == 1 then [receiver.valueTy] else receiver.subs

theorem Ty.isGeneric_unionAll_params {ts : List Ty} (ground : ∀ t ∈ ts, t.isGeneric = false) :
    (Ty.unionAll ts).isGeneric = false := by
  cases ts with
  | nil => rfl
  | cons t ts => exact Ty.isGeneric_unionAll (List.cons_ne_nil _ _) ground

theorem Member.isGeneric_of_mem_valuesFor {receiver : Member}
    (ground : ∀ u ∈ receiver.params, u.isGeneric = false) {count : Nat} {t : Ty}
    (value : t ∈ receiver.valuesFor count) : t.isGeneric = false := by
  have keys : receiver.keyTy.isGeneric = false :=
    Ty.isGeneric_unionAll_params fun u key => ground u (List.mem_append_left _ key)
  have values : receiver.valueTy.isGeneric = false :=
    Ty.isGeneric_unionAll_params fun u sub => ground u (List.mem_append_right _ sub)
  have places : t ∈ (if count == 1 then [receiver.valueTy] else receiver.subs) →
      t.isGeneric = false := by
    intro place
    split at place
    · exact List.mem_singleton.mp place ▸ values
    · exact ground t (List.mem_append_right _ place)
  unfold Member.valuesFor at value
  cases kind : receiver.kind with
  | none =>
    rw [kind] at value
    exact absurd value List.not_mem_nil
  | hash =>
    rw [kind] at value
    rcases List.mem_pair.mp value with rfl | rfl
    · exact keys
    · exact values
  | list =>
    rw [kind] at value
    exact places value
  | fixed =>
    rw [kind] at value
    exact places value

/-! ### Places of a search -/

/-- What a step does, and for which namespace. -/
def SearchStep.place : SearchStep → Bool × String × Scope
  | .expand frame => (true, frame.key)
  | .emit frame => (false, frame.key)

namespace Store

open Relation

variable {store : Store}

/-! ### The order -/

theorem keys_targetFrames {source other : Frame} (same : source.path = other.path)
    (kind : EdgeKind) :
    (store.targetFrames source kind).map Frame.key =
      (store.targetFrames other kind).map Frame.key := by
  unfold targetFrames
  rw [List.map_filterMap, List.map_filterMap, same]
  simp only [Option.map_map]
  rfl

theorem keys_superclassFrame? {source other : Frame} (same : source.key = other.key) :
    (store.superclassFrame? source).map Frame.key =
      (store.superclassFrame? other).map Frame.key := by
  obtain ⟨path, scope, bindings⟩ := source
  obtain ⟨path', scope', bindings'⟩ := other
  obtain ⟨rfl, rfl⟩ := Prod.mk.inj same
  unfold superclassFrame?
  cases store.edges path .superclass with
  | nil => rfl
  | cons edge others =>
    simp only [Option.map_map]
    rfl

theorem places_expand {frames others : List Frame}
    (same : frames.map Frame.key = others.map Frame.key) :
    (frames.map SearchStep.expand).map SearchStep.place =
      (others.map SearchStep.expand).map SearchStep.place := by
  have places : ∀ frames : List Frame, (frames.map SearchStep.expand).map SearchStep.place =
      (frames.map Frame.key).map (Prod.mk true) := by
    intro frames
    rw [List.map_map, List.map_map]
    rfl
  rw [places, places, same]

theorem run_superclassOf_of_scope {frame : Frame} {scope : Scope} (level : frame.scope = scope) :
    Id.run (store.superclassOf frame scope) = store.superclassFrame? frame := by
  rw [← level, run_superclassOf_eq]

/-- Frames of the same namespace and scope expand to the same, whatever they bind. -/
theorem places_expansion {frame other : Frame} (same : frame.key = other.key) :
    (Id.run (store.expansion frame)).map SearchStep.place =
      (Id.run (store.expansion other)).map SearchStep.place := by
  have path : frame.path = other.path := congrArg Prod.fst same
  have scope : frame.scope = other.scope := congrArg Prod.snd same
  have targets : ∀ kind,
      ((store.targetFrames frame kind).reverse.map SearchStep.expand).map SearchStep.place =
        ((store.targetFrames other kind).reverse.map SearchStep.expand).map SearchStep.place := by
    intro kind
    apply places_expand
    rw [List.map_reverse, List.map_reverse, keys_targetFrames path]
  have superclass :
      ((store.superclassFrame? frame).map SearchStep.expand).toList.map SearchStep.place =
        ((store.superclassFrame? other).map SearchStep.expand).toList.map SearchStep.place := by
    rw [Option.toList_map, Option.toList_map]
    apply places_expand
    rw [← Option.toList_map, ← Option.toList_map, keys_superclassFrame? same]
  have emits : (SearchStep.emit frame).place = (SearchStep.emit other).place :=
    congrArg (Prod.mk false) same
  cases level : frame.scope with
  | instanceLevel =>
    have level' := scope.symm.trans level
    rw [run_expansion_instance level, run_expansion_instance level',
      run_superclassOf_of_scope level, run_superclassOf_of_scope level']
    simp only [run_followAll_eq, List.map_append, List.map_cons, targets, emits, superclass]
  | classLevel =>
    have level' := scope.symm.trans level
    rw [run_expansion_class level, run_expansion_class level', run_superclassOf_of_scope level,
      run_superclassOf_of_scope level']
    simp only [run_followAll_eq, List.map_append, List.map_cons, targets, emits, superclass]

/-- Stacks with the same steps at the same places list the same keys. -/
theorem keys_workOff (pending : List (String × Scope)) (stack : List SearchStep) :
    ∀ {other : List SearchStep}, stack.map SearchStep.place = other.map SearchStep.place →
      (Id.run (store.workOff pending stack)).map Frame.key =
        (Id.run (store.workOff pending other)).map Frame.key := by
  induction pending, stack using workOff.induct with
  | case1 pending =>
    intro other same
    obtain rfl : other = [] := List.map_eq_nil_iff.mp same.symm
    rfl
  | case2 pending frame stack ih =>
    intro other same
    obtain ⟨step, rest, rfl, place, places⟩ := List.map_eq_cons_iff.mp same.symm
    cases step with
    | expand frame' => exact absurd (congrArg Prod.fst place) (by simp [SearchStep.place])
    | emit frame' =>
      have key : frame'.key = frame.key := congrArg Prod.snd place
      rw [workOff_emit, workOff_emit, List.map_cons, List.map_cons, key, ih places.symm]
  | case3 pending frame stack new ih =>
    intro other same
    obtain ⟨step, rest, rfl, place, places⟩ := List.map_eq_cons_iff.mp same.symm
    cases step with
    | emit frame' => exact absurd (congrArg Prod.fst place) (by simp [SearchStep.place])
    | expand frame' =>
      have key : frame'.key = frame.key := congrArg Prod.snd place
      have new' : frame'.key ∈ pending := key ▸ new
      rw [workOff_expand new, workOff_expand new', key]
      apply ih
      rw [List.map_append, List.map_append, places_expansion key.symm, places]
  | case4 pending frame stack known ih =>
    intro other same
    obtain ⟨step, rest, rfl, place, places⟩ := List.map_eq_cons_iff.mp same.symm
    cases step with
    | emit frame' => exact absurd (congrArg Prod.fst place) (by simp [SearchStep.place])
    | expand frame' =>
      have key : frame'.key = frame.key := congrArg Prod.snd place
      have known' : frame'.key ∉ pending := key ▸ known
      rw [workOff_skip known, workOff_skip known', ih places.symm]

/-- What is visited depends on the namespace and the scope of the start only. -/
theorem visited_congr {start other : Frame} (same : start.key = other.key) :
    store.visited start = store.visited other := by
  have path : start.path = other.path := congrArg Prod.fst same
  have scope : start.scope = other.scope := congrArg Prod.snd same
  unfold visited
  rw [run_search, run_search, path]
  apply keys_workOff
  apply places_expand
  unfold entries
  rw [scope, path]
  cases other.scope <;> simp [same]

/-! ### Where frames come from -/

/-- How one frame leads to another: along an edge, with what the edge binds, or to the superclass of
a class that declares none. -/
inductive LeadsTo (store : Store) (source : Frame) : Frame → Prop where
  | edge {kind : EdgeKind} {edge : Pin} {target : String} {scope : Scope} :
      edge ∈ store.edges source.path kind → store.dereference? edge = some target →
        LeadsTo store source ⟨target, scope, store.edgeBindings source edge target⟩
  | implied {target : String} {scope : Scope} :
      store.edges source.path .superclass = [] →
        defaultSuperclass? source.path (store.hasModule source.path) = some target →
        LeadsTo store source (.make target scope)

theorem leadsTo_of_mem_targetFrames {source frame : Frame} {kind : EdgeKind}
    (member : frame ∈ store.targetFrames source kind) : store.LeadsTo source frame := by
  obtain ⟨edge, listed, followed⟩ := List.mem_filterMap.mp member
  obtain ⟨target, points, rfl⟩ := Option.map_eq_some_iff.mp followed
  exact .edge listed points

theorem leadsTo_of_superclassFrame? {source frame : Frame}
    (found : store.superclassFrame? source = some frame) : store.LeadsTo source frame := by
  unfold superclassFrame? at found
  cases edges : store.edges source.path .superclass with
  | nil =>
    rw [edges] at found
    obtain ⟨target, implied, rfl⟩ := Option.map_eq_some_iff.mp found
    exact .implied edges implied
  | cons edge others =>
    rw [edges] at found
    obtain ⟨target, points, rfl⟩ := Option.map_eq_some_iff.mp found
    exact .edge (edges ▸ List.mem_cons_self) points

theorem leadsTo_of_mem_expansion {source frame : Frame}
    (member : frame ∈ expanded (Id.run (store.expansion source))) : store.LeadsTo source frame := by
  cases level : source.scope with
  | instanceLevel =>
    rw [expanded_expansion_instance level, run_superclassOf_of_scope level] at member
    simp only [run_followAll_eq, List.mem_append, List.mem_reverse, Option.mem_toList] at member
    rcases member with (prepended | included) | superclass
    · exact leadsTo_of_mem_targetFrames prepended
    · exact leadsTo_of_mem_targetFrames included
    · exact leadsTo_of_superclassFrame? superclass
  | classLevel =>
    rw [expanded_expansion_class level, run_superclassOf_of_scope level] at member
    simp only [run_followAll_eq, List.mem_append, List.mem_reverse, Option.mem_toList] at member
    rcases member with extended | superclass
    · exact leadsTo_of_mem_targetFrames extended
    · exact leadsTo_of_superclassFrame? superclass

/-- Every frame that is listed stood on the stack, or a frame that steps reach leads to it. -/
theorem exists_source_of_mem_workOff (pending : List (String × Scope)) (stack : List SearchStep) :
    ∀ frame ∈ Id.run (store.workOff pending stack), frame ∈ emitted stack ∨
      frame ∈ expanded stack ∨ ∃ source,
        (∃ first ∈ expanded stack, ReflTransGen store.AncestorStep first.key source.key) ∧
          store.LeadsTo source frame := by
  induction pending, stack using workOff.induct with
  | case1 pending =>
    intro frame member
    rw [workOff] at member
    exact absurd member List.not_mem_nil
  | case2 pending first stack ih =>
    intro frame member
    rw [workOff_emit] at member
    rcases List.mem_cons.mp member with rfl | later
    · exact Or.inl List.mem_cons_self
    · exact (ih frame later).imp_left (List.mem_cons_of_mem _)
  | case3 pending first stack new ih =>
    intro frame member
    rw [workOff_expand new] at member
    rcases ih _ frame member with emits | expands | ⟨source, ⟨other, listed, steps⟩, leads⟩
    · rw [emitted_append, emitted_expansion] at emits
      rcases List.mem_cons.mp emits with rfl | later
      · exact Or.inr (Or.inl List.mem_cons_self)
      · exact Or.inl later
    · rw [expanded_append] at expands
      rcases List.mem_append.mp expands with next | later
      · have leads := leadsTo_of_mem_expansion next
        exact Or.inr (Or.inr ⟨first, ⟨first, List.mem_cons_self, .refl⟩, leads⟩)
      · exact Or.inr (Or.inl (List.mem_cons_of_mem _ later))
    · refine Or.inr (Or.inr ⟨source, ?_, leads⟩)
      rw [expanded_append] at listed
      rcases List.mem_append.mp listed with next | later
      · have step := mem_expanded_expansion.mp (List.mem_map_of_mem (f := Frame.key) next)
        exact ⟨first, List.mem_cons_self, .head step steps⟩
      · exact ⟨other, List.mem_cons_of_mem _ later, steps⟩
  | case4 pending first stack known ih =>
    intro frame member
    rw [workOff_skip known] at member
    refine (ih frame member).imp_right (Or.imp (List.mem_cons_of_mem _) ?_)
    rintro ⟨source, ⟨other, listed, steps⟩, leads⟩
    exact ⟨source, ⟨other, List.mem_cons_of_mem _ listed, steps⟩, leads⟩

theorem exists_source_of_mem_search {start frame : Frame}
    (member : frame ∈ Id.run (store.search start)) : frame ∈ store.entries start ∨
      ∃ source, store.Reaches start.key source.key ∧ store.LeadsTo source frame := by
  rw [run_search] at member
  rcases exists_source_of_mem_workOff _ _ frame member with emits | entry | ⟨source, steps, leads⟩
  · rw [emitted_map] at emits
    exact absurd emits List.not_mem_nil
  · rw [expanded_map] at entry
    exact Or.inl entry
  · rw [expanded_map, ← reaches_iff_entries] at steps
    exact Or.inr ⟨source, steps, leads⟩

/-! ### What frames bind -/

/-- A frame binds generics of its own namespace only, each to a known type without placeholders. -/
def Closed (store : Store) (frame : Frame) : Prop :=
  ∀ entry ∈ frame.bindings.entries,
    entry.1 ∈ store.genericsOf frame.path ∧ entry.2.isUndefined = false ∧ entry.2.isGeneric = false

theorem closed_make (path : String) (scope : Scope) : store.Closed (.make path scope) :=
  fun _ member => absurd member List.not_mem_nil

/-- What an edge binds is closed, whatever frame it starts from. -/
theorem closed_edge (source : Frame) (edge : Pin) (target : String) (scope : Scope) :
    store.Closed ⟨target, scope, store.edgeBindings source edge target⟩ := by
  intro entry member
  obtain ⟨paired, kept⟩ := List.mem_filter.mp (Bindings.mem_of_mem_ofList member)
  simp only [Bool.and_eq_true, Bool.not_eq_true'] at kept
  exact ⟨(List.of_mem_zip paired).1, kept⟩

/-- Whatever a frame leads to is closed. -/
theorem LeadsTo.closed {source frame : Frame} (leads : store.LeadsTo source frame) :
    store.Closed frame := by
  cases leads with
  | edge _ _ => exact closed_edge source _ _ _
  | implied _ _ => exact closed_make _ _

theorem closed_of_mem_search {start frame : Frame}
    (member : frame ∈ Id.run (store.search start)) : frame = start ∨ store.Closed frame := by
  rcases exists_source_of_mem_search member with entry | ⟨source, -, leads⟩
  · unfold entries at entry
    cases level : start.scope with
    | instanceLevel =>
      rw [level] at entry
      exact Or.inl (List.mem_singleton.mp entry)
    | classLevel =>
      rw [level] at entry
      rcases List.mem_pair.mp entry with same | rfl
      · exact Or.inl same
      · exact Or.inr (closed_make _ _)
  · exact Or.inr leads.closed

/-! ### Receivers without placeholders -/

theorem isGeneric_params {receiver : Member} (ground : (Ty.single receiver).isGeneric = false) :
    ∀ u ∈ receiver.params, u.isGeneric = false :=
  (Ty.isGeneric_single.mp ground).2

theorem isGeneric_receiverInstance {receiver : Member}
    (ground : (Ty.single receiver).isGeneric = false) :
    (Ty.single (receiverInstance receiver)).isGeneric = false := by
  unfold receiverInstance
  cases receiver.scope with
  | instanceLevel => exact ground
  | classLevel =>
    cases subs : receiver.subs with
    | nil => exact ground
    | cons sub others =>
      have param : sub ∈ receiver.params := List.mem_append_right _ (by simp [subs])
      have below := isGeneric_params ground sub param
      exact Ty.isGeneric_single.mpr (Ty.isGeneric_eq_false.mp below sub.first List.mem_cons_self)

/-- The parameters of a receiver bind generics of its namespace to what stands in it. -/
theorem closed_receiverFrame {receiver : Member}
    (ground : (Ty.single receiver).isGeneric = false) :
    store.Closed (store.receiverFrame receiver) := by
  intro entry member
  obtain ⟨paired, known⟩ := List.mem_filter.mp (Bindings.mem_of_mem_ofList member)
  obtain ⟨declared, value⟩ := List.of_mem_zip paired
  refine ⟨declared, by simpa using known, ?_⟩
  exact Member.isGeneric_of_mem_valuesFor (isGeneric_params (isGeneric_receiverInstance ground))
    value

theorem closed_of_mem_receiverAncestors {receiver : Member}
    (ground : (Ty.single receiver).isGeneric = false) {frame : Frame}
    (member : frame ∈ Id.run (store.receiverAncestors receiver)) : store.Closed frame := by
  rcases closed_of_mem_search member with rfl | closed
  · exact closed_receiverFrame ground
  · exact closed

/-- A closed frame leaves no placeholder that it binds in the overloads of its methods. -/
theorem Closed.not_shows {frame : Frame} (closed : store.Closed frame) {name : String} {pin : Pin}
    (seen : pin ∈ store.frameMethods name frame) :
    ∀ signature ∈ pin.signatures, signature.Every fun t =>
      ∀ generic, frame.bindings.contains generic = true → ¬ t.Shows generic := by
  intro signature listed
  obtain ⟨stored, -, -, rfl⟩ := mem_frameMethods.mp seen
  rw [seenFrom, signatures_bindGenerics] at listed
  obtain ⟨old, -, rfl⟩ := List.mem_map.mp listed
  refine Signature.every_mapTys (Signature.every_of_forall (fun t generic bound => ?_) old)
  exact Ty.not_shows_substitute bound (fun entry member => (closed entry member).2.2) t

/-- Two receivers of the same namespace and scope have the same ancestors in the same order, which
are those of the namespace; only what is bound may differ. Every frame but the first binds generics
of its own namespace to known types without placeholders. And for a receiver without placeholders
no method shows a placeholder that its frame binds. -/
theorem receiverAncestors_parameters {receiver other : Member}
    (space : other.space = receiver.space) (scope : other.scope = receiver.scope) :
    ((Id.run (store.receiverAncestors receiver)).map Frame.key =
        (Id.run (store.ancestors receiver.space receiver.scope)).map Frame.key ∧
      (Id.run (store.receiverAncestors other)).map Frame.key =
        (Id.run (store.receiverAncestors receiver)).map Frame.key) ∧
    (∀ frame ∈ Id.run (store.receiverAncestors receiver),
      frame = store.receiverFrame receiver ∨ store.Closed frame) ∧
    ((Ty.single receiver).isGeneric = false → ∀ name,
      Id.run (store.methodsNamed receiver name) =
          (Id.run (store.receiverAncestors receiver)).flatMap (store.frameMethods name) ∧
        ∀ frame ∈ Id.run (store.receiverAncestors receiver),
          ∀ pin ∈ store.frameMethods name frame, ∀ signature ∈ pin.signatures,
            signature.Every fun t =>
              ∀ generic, frame.bindings.contains generic = true → ¬ t.Shows generic) := by
  have start : (store.receiverFrame receiver).key =
      (Frame.make receiver.space receiver.scope).key := rfl
  have start' : (store.receiverFrame other).key = (store.receiverFrame receiver).key :=
    Prod.ext space scope
  refine ⟨⟨visited_congr start, visited_congr start'⟩, ?_, fun ground name => ⟨rfl, ?_⟩⟩
  · exact fun frame member => closed_of_mem_search member
  · intro frame member pin seen
    exact (closed_of_mem_receiverAncestors ground member).not_shows seen

section Crates

/-- A class `Box` of generic `T` with the method `get`, `() -> generic<T>`, and a class `Crate` of
generic `E` with the superclass `Box<Array<generic<E>>>`. -/
def crates : Store :=
  let box : Pin := .make "Box" (some .root) (.space false ["T"])
  let crate : Pin := .make "Crate" (some .root) (.space false ["E"])
  let get : Signature := .returning (.single (.generic "T"))
  .ofGroups [("crate.rb",
    [.root, box, .make "get" (some box) (.method .instanceLevel .everyone [get]), crate,
      .edge crate .superclass "Box" [.single (.list "Array" [.single (.generic "E")])]])]

/-- The type `Crate` of some type. -/
def crateOf (t : Ty) : Member :=
  .list "Crate" [t]

/-- The frame of `Box` as it is reached from a `Crate<String>`. -/
def boxOfArrays : Frame :=
  ⟨"Box", .instanceLevel, ⟨[("T", .single (.list "Array" [.absolute "String"]))]⟩⟩

theorem framesWithin_crates : crates.framesWithin 9 (crateOf (.absolute "String")) =
    some [⟨"Crate", .instanceLevel, ⟨[("E", .absolute "String")]⟩⟩, boxOfArrays,
      .make "Object" .instanceLevel, .make "BasicObject" .instanceLevel] :=
  rfl

/-- A `Crate<String>` and a `Crate<Integer>` have the same ancestors, and what `Box` binds as it is
reached from the first one is closed and replaced in `get`. -/
theorem receiverAncestors_parameters_crates :
    (Id.run (crates.receiverAncestors (crateOf (.absolute "Integer")))).map Frame.path =
        ["Crate", "Box", "Object", "BasicObject"] ∧
      crates.Closed boxOfArrays ∧
      ∀ pin ∈ crates.frameMethods "get" boxOfArrays, ∀ signature ∈ pin.signatures,
        signature.Every fun t => ¬ t.Shows "T" := by
  have searched := receiverAncestors_of_within framesWithin_crates
  obtain ⟨⟨-, keys⟩, closed, methods⟩ := @receiverAncestors_parameters crates
    (crateOf (.absolute "String")) (crateOf (.absolute "Integer")) rfl rfl
  have visited :
      boxOfArrays ∈ Id.run (crates.receiverAncestors (crateOf (.absolute "String"))) := by
    rw [searched]
    exact List.mem_cons_of_mem _ List.mem_cons_self
  refine ⟨?_, ?_, fun pin seen signature listed => ?_⟩
  · have paths := congrArg (List.map Prod.fst) keys
    rwa [searched, List.map_map] at paths
  · refine (closed boxOfArrays visited).resolve_left fun same => ?_
    exact absurd (congrArg Frame.path same) (by decide)
  · have all := (methods rfl "get").2 boxOfArrays visited pin seen signature listed
    exact all.imp fun t hidden => hidden "T" rfl

end Crates

end Store

end DuckInfer
