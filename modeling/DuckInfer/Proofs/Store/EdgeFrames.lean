import DuckInfer.Proofs.Store.Receivers

/-!
What an edge binds against what the same type binds as a receiver. An edge keeps the values of the
written type and binds them place by place; a receiver binds `Hash` keys as well, and the union of
all values to a single generic. Main statement: the frame that an edge leads to, if nothing else
leads there, binds the same as the frame of the type exactly if the same known type stands at the
place of every generic.
-/

namespace DuckInfer

/-! ### Values at places -/

/-- The type that stands at a place, if it is known. -/
def knownAt (values : List Ty) (place : Nat) : Option Ty :=
  values[place]?.filter fun t => !t.isUndefined

namespace Bindings

variable {generics : List String} {values values' : List Ty}

/-- Binds generics place by place, as far as there are known types. -/
def ofPlaces (generics : List String) (values : List Ty) : Bindings :=
  .ofList ((generics.zip values).filter fun (_, t) => !t.isUndefined)

theorem ofReceiver_eq_ofPlaces (generics : List String) (receiver : Member) :
    .ofReceiver generics receiver = ofPlaces generics (receiver.valuesFor generics.length) :=
  rfl

theorem filter_zip_congr (generics : List String) : ∀ {values values' : List Ty},
    (∀ place < generics.length, knownAt values place = knownAt values' place) →
      (generics.zip values).filter (fun (_, t) => !t.isUndefined) =
        (generics.zip values').filter fun (_, t) => !t.isUndefined := by
  induction generics with
  | nil => exact fun _ => rfl
  | cons generic generics ih =>
    intro values values' same
    have split : ∀ values : List Ty,
        ((generic :: generics).zip values).filter (fun (_, t) => !t.isUndefined) =
          (knownAt values 0).toList.map (generic, ·) ++
            (generics.zip values.tail).filter fun (_, t) => !t.isUndefined := by
      intro values
      cases values with
      | nil => simp [knownAt]
      | cons t values => cases known : t.isUndefined <;> simp [knownAt, known, Option.filter]
    have tails : ∀ values : List Ty, ∀ place,
        knownAt values.tail place = knownAt values (place + 1) := by
      intro values place
      cases values <;> rfl
    rw [split, split, same 0 (Nat.zero_lt_succ _)]
    refine congrArg _ (ih fun place inside => ?_)
    rw [tails, tails]
    exact same (place + 1) (Nat.succ_lt_succ inside)

/-- A generic is bound to the known type at its place. -/
theorem find?_ofPlaces (distinct : generics.Nodup) {place : Nat}
    (inside : place < generics.length) :
    (ofPlaces generics values).find? generics[place] = knownAt values place := by
  have nodup : (((generics.zip values).filter fun (_, t) => !t.isUndefined).map Prod.fst).Nodup :=
    distinct.sublist ((List.filter_sublist.map _).trans (map_fst_zip_sublist _ _))
  cases found : knownAt values place with
  | some t =>
    obtain ⟨written, known⟩ := Option.filter_eq_some_iff.mp found
    refine find?_insertAll nodup (List.mem_filter.mpr ⟨?_, known⟩) .empty
    refine List.mem_of_getElem? (i := place) (List.getElem?_zip_eq_some.mpr ⟨?_, written⟩)
    exact List.getElem?_eq_getElem inside
  | none =>
    refine find?_insertAll_of_fresh (fun listed => ?_) .empty
    obtain ⟨⟨name, t⟩, kept, same⟩ := List.mem_map.mp listed
    obtain ⟨paired, known⟩ := List.mem_filter.mp kept
    obtain ⟨other, pair⟩ := List.mem_iff_getElem?.mp paired
    obtain ⟨declared, written⟩ := List.getElem?_zip_eq_some.mp pair
    -- the generic stands at one place only
    have alike : generics[other]? = generics[place]? := by
      rw [declared, List.getElem?_eq_getElem inside]
      exact congrArg some same
    obtain ⟨inside', -⟩ := List.getElem?_eq_some_iff.mp declared
    obtain rfl := (List.getElem?_inj inside' distinct).mp alike
    have bound : knownAt values other = some t := Option.filter_eq_some_iff.mpr ⟨written, known⟩
    exact absurd (found.symm.trans bound) (by simp)

/-- Bindings place by place are the same exactly if the same known types stand at the places. -/
theorem ofPlaces_eq_iff (distinct : generics.Nodup) :
    ofPlaces generics values = ofPlaces generics values' ↔
      ∀ place < generics.length, knownAt values place = knownAt values' place := by
  constructor
  · intro same place inside
    have found := congrArg (fun b => b.find? generics[place]) same
    rwa [find?_ofPlaces distinct inside, find?_ofPlaces distinct inside] at found
  · exact fun same => congrArg Bindings.ofList (filter_zip_congr generics same)

end Bindings

/-- The types that a reference hands to the generics of its target. -/
def Pin.edgeValues (pin : Pin) : List Ty :=
  match pin.kind with
  | .reference _ values => values
  | _ => []

namespace Store

open Relation

variable {store : Store}

/-! ### Frames of a search by key -/

/-- What a search lists for a namespace and a scope. -/
def frameAt (frames : List Frame) (key : String × Scope) : Option Frame :=
  frames.find? fun frame => frame.key == key

theorem frameAt_of_mem {start frame : Frame} (member : frame ∈ Id.run (store.search start)) :
    frameAt (Id.run (store.search start)) frame.key = some frame :=
  find?_of_mem_distinct (visited_nodup store start) member

theorem mem_workOff_of_emitted (pending : List (String × Scope)) (stack : List SearchStep) :
    ∀ frame ∈ emitted stack, frame ∈ Id.run (store.workOff pending stack) := by
  induction pending, stack using workOff.induct with
  | case1 pending => exact fun frame member => absurd member List.not_mem_nil
  | case2 pending first stack ih =>
    intro frame member
    rw [workOff_emit]
    rcases List.mem_cons.mp member with rfl | later
    · exact List.mem_cons_self
    · exact List.mem_cons_of_mem _ (ih frame later)
  | case3 pending first stack new ih =>
    intro frame member
    rw [workOff_expand new]
    apply ih
    rw [emitted_append]
    exact List.mem_append_right _ member
  | case4 pending first stack known ih =>
    intro frame member
    rw [workOff_skip known]
    exact ih frame member

/-- A search lists the frame that it starts from. -/
theorem start_mem_search (start : Frame) : start ∈ Id.run (store.search start) := by
  have front : ∃ others, store.entries start = start :: others := by
    unfold entries
    cases start.scope <;> exact ⟨_, rfl⟩
  obtain ⟨others, front⟩ := front
  have first : start ∈ store.entries start := front ▸ List.mem_cons_self
  rw [run_search, front, List.map_cons, workOff_expand (entries_reachable first)]
  apply mem_workOff_of_emitted
  rw [emitted_append, emitted_expansion]
  exact List.mem_cons_self

/-- A receiver has the frame of its own namespace. -/
theorem frameAt_receiverAncestors (receiver : Member) :
    frameAt (Id.run (store.receiverAncestors receiver)) (receiver.space, receiver.scope) =
      some (store.receiverFrame receiver) :=
  frameAt_of_mem (start_mem_search (store.receiverFrame receiver))

/-! ### The frame of an edge -/

/-- The edge of a namespace leads to a target, and whatever else leads there hands over the same
types. -/
structure OnlyWay (store : Store) (path : String) (edge : Pin) (target : String) : Prop where
  points : store.dereference? edge = some target
  /-- of the declared superclasses only the first counts -/
  first : edge.edgeKind? = some .superclass →
    (store.edges path .superclass).head? = some edge
  apart : target ≠ path
  alone : ∀ source kind other,
    ReflTransGen store.AncestorStep (path, .instanceLevel) (source, .instanceLevel) →
      other ∈ store.edges source kind → store.dereference? other = some target →
        other.edgeValues = edge.edgeValues
  /-- the target is not the superclass of a class that declares none -/
  declared : ∀ source,
    ReflTransGen store.AncestorStep (path, .instanceLevel) (source, .instanceLevel) →
      store.edges source .superclass = [] →
        defaultSuperclass? source (store.hasModule source) ≠ some target

variable {path target : String} {edge : Pin}

theorem edgeKind?_of_mem_edges {kind : EdgeKind} (listed : edge ∈ store.edges path kind) :
    edge.edgeKind? = some kind := by
  have kept := (List.mem_filter.mp listed).2
  cases known : edge.edgeKind? with
  | none => simp [known] at kept
  | some other => simpa [known] using kept

theorem OnlyWay.step {kind : EdgeKind} (way : store.OnlyWay path edge target)
    (listed : edge ∈ store.edges path kind)
    (used : kind = .superclass ∨ kind = .includes ∨ kind = .prepends) :
    store.AncestorStep (path, .instanceLevel) (target, .instanceLevel) := by
  rcases used with rfl | rfl | rfl
  · exact .declared (way.first (edgeKind?_of_mem_edges listed)) way.points
  · exact .included listed way.points
  · exact .prepended listed way.points

/-- Types without placeholders are bound as they are, whatever the edge starts from. -/
theorem edgeBindings_of_ground (ground : ∀ t ∈ edge.edgeValues, t.isGeneric = false)
    (source : Frame) (target : String) :
    store.edgeBindings source edge target =
      .ofPlaces (store.genericsOf target) edge.edgeValues := by
  have same : edge.edgeValues.map (Ty.substitute source.bindings) = edge.edgeValues := by
    refine (List.map_congr_left fun t listed => ?_).trans (List.map_id _)
    simp [Ty.substitute, ground t listed]
  have whole : store.edgeBindings source edge target = .ofList
      (((store.genericsOf target).zip (edge.edgeValues.map (Ty.substitute source.bindings))).filter
        fun (_, t) => !t.isUndefined && !t.isGeneric) := by
    unfold edgeBindings Pin.edgeValues
    cases edge.kind <;> rfl
  rw [whole, same]
  refine congrArg Bindings.ofList (List.filter_congr fun entry paired => ?_)
  simp [ground entry.2 (List.of_mem_zip paired).2]

/-- The frame that the only way leads to binds the generics of the target place by place. -/
theorem OnlyWay.frameAt_ancestors (coherent : store.Coherent) {kind : EdgeKind}
    (way : store.OnlyWay path edge target) (listed : edge ∈ store.edges path kind)
    (used : kind = .superclass ∨ kind = .includes ∨ kind = .prepends)
    (ground : ∀ t ∈ edge.edgeValues, t.isGeneric = false) :
    frameAt (Id.run (store.ancestors path .instanceLevel)) (target, .instanceLevel) =
      some ⟨target, .instanceLevel, .ofPlaces (store.genericsOf target) edge.edgeValues⟩ := by
  have reached : store.Reaches (Frame.make path .instanceLevel).key (target, .instanceLevel) :=
    Or.inl (.single (way.step listed used))
  obtain ⟨frame, member, key⟩ := List.mem_map.mp (mem_visited_of_reaches coherent reached)
  have found := frameAt_of_mem member
  rw [key] at found
  refine found.trans (congrArg some ?_)
  rcases exists_source_of_mem_search member with entry | ⟨source, steps, leads⟩
  · obtain rfl := List.mem_singleton.mp entry
    exact absurd (congrArg Prod.fst key).symm way.apart
  · have steps := steps.resolve_right fun onClass =>
      absurd onClass.1 (by simp [Frame.key, Frame.make])
    have level := scope_of_steps rfl steps
    cases leads with
    | @edge kind other target' scope listed' points =>
      obtain ⟨rfl, rfl⟩ := Prod.mk.inj key
      have values := way.alone source.path kind other (level ▸ steps) listed' points
      rw [edgeBindings_of_ground (values ▸ ground), values]
    | implied none implied =>
      obtain ⟨rfl, -⟩ := Prod.mk.inj key
      exact absurd implied (way.declared source.path (level ▸ steps) none)

end Store

end DuckInfer
