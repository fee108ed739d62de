import DuckInfer.Proofs.Store.Specialization

/-!
Stores from which the pins of one path are left out. Constants and ancestors are found by way of
namespaces, constants and edges. Main statement: if nothing of the kind has the path, every search
finds the same frames without its pins, and what is missing among the methods of a receiver are the
methods of this path.
-/

namespace DuckInfer

/-- The path of an edge ends in a bracket. -/
theorem Pin.getLast?_path_of_edgeKind? {pin : Pin} {kind : EdgeKind}
    (edge : pin.edgeKind? = some kind) : pin.path.toList.getLast? = some '>' := by
  obtain ⟨name, closure, location, comments, declared, ty⟩ := pin
  cases declared with
  | reference kind values =>
    have path : (Pin.mk name closure location comments (.reference kind values) ty).path =
        ((closure.map Pin.path).getD "" ++ "<" ++ kind.text ++ ":" ++ name) ++ ">" := by
      cases closure <;> rfl
    rw [path, String.toList_append]
    exact List.getLast?_concat
  | _ => exact absurd edge (by simp [edgeKind?])

/-- What a lookup does depends on the answers of the store alone. -/
def LooksUpByAnswers (m : Type → Type) [ConstantLookup m] : Prop :=
  ∀ {store rest : Store}, rest.resolve? = store.resolve? → ∀ name gates,
    (ConstantLookup.lookup rest name gates : m _) = ConstantLookup.lookup store name gates

theorem looksUpByAnswers_plain : LooksUpByAnswers Id :=
  fun same name gates => congrFun (congrFun same name) gates

theorem looksUpByAnswers_remembering : LooksUpByAnswers (StateM Memo) := by
  intro store rest same name gates
  funext memo
  show Memo.lookup rest name gates memo = Memo.lookup store name gates memo
  rw [Memo.lookup, Memo.lookup, same]

namespace Store

/-! ### Stores with the same namespaces -/

/-- The pin declares a namespace or a constant. -/
def declares (pin : Pin) : Bool :=
  pin.isSpace || pin.isConstant

/-- Both stores declare the same namespaces and constants, in the same order. -/
structure SameSpaces (store rest : Store) : Prop where
  coherent : store.Coherent
  coherent_rest : rest.Coherent
  spaces : rest.everyPin.filter declares = store.everyPin.filter declares

section

variable {store rest : Store} (same : SameSpaces store rest)
include same

/-- A test that only namespaces and constants pass finds the same pins. -/
theorem SameSpaces.filter_eq {test : Pin → Bool} (only : ∀ pin, test pin = true → declares pin) :
    rest.everyPin.filter test = store.everyPin.filter test := by
  have among : ∀ pins : List Pin, pins.filter test = (pins.filter declares).filter test := by
    intro pins
    rw [List.filter_filter]
    refine List.filter_congr fun pin _ => ?_
    cases passed : test pin with
    | true => rw [only pin passed]; rfl
    | false => rfl
  rw [among, same.spaces, ← among]

theorem SameSpaces.find?_eq {test : Pin → Bool} (only : ∀ pin, test pin = true → declares pin) :
    rest.everyPin.find? test = store.everyPin.find? test := by
  rw [← List.head?_filter, same.filter_eq only, List.head?_filter]

theorem SameSpaces.anyAt_eq {test : Pin → Bool} (only : ∀ pin, test pin = true → declares pin)
    (path : String) : (rest.pinsAt path).any test = (store.pinsAt path).any test := by
  have found := same.find?_eq fun pin passed =>
    only pin (Bool.and_eq_true_iff.mp (passed : (pin.path == path && test pin) = true)).2
  rw [same.coherent_rest.anyAt, same.coherent.anyAt, Bool.eq_iff_iff, List.any_eq_true,
    List.any_eq_true, ← List.find?_isSome, ← List.find?_isSome, found]

theorem SameSpaces.hasConstant_eq : rest.hasConstant = store.hasConstant :=
  funext (same.anyAt_eq fun _ => id)

theorem SameSpaces.hasModule_eq : rest.hasModule = store.hasModule := by
  refine funext (same.anyAt_eq fun pin passed => ?_)
  unfold declaresModule at passed
  unfold declares Pin.isSpace
  split at passed <;> simp_all

theorem SameSpaces.genericsOf_eq : rest.genericsOf = store.genericsOf := by
  funext path
  rw [same.coherent.genericsOf, same.coherent_rest.genericsOf, same.find?_eq fun pin passed => ?_]
  unfold Pin.generics at passed
  unfold declares Pin.isSpace
  split at passed <;> simp_all

theorem SameSpaces.reachableKeys_eq : rest.reachableKeys = store.reachableKeys := by
  funext start
  have spaces : rest.everyPin.filter (fun pin => pin.isSpace || pin.isConstant) =
      store.everyPin.filter fun pin => pin.isSpace || pin.isConstant := same.spaces
  rw [reachableKeys, reachableKeys, reachablePaths, reachablePaths, spaces]

end

/-! ### Stores with the same edges -/

/-- Both stores declare the same edges between the same namespaces. -/
structure SameEdges (store rest : Store) : Prop extends SameSpaces store rest where
  edges : rest.edgesFrom = store.edgesFrom

section

variable {store rest : Store}

theorem resolve?_congr (constants : rest.hasConstant = store.hasConstant)
    (mixins : rest.mixinsOf = store.mixinsOf) : rest.resolve? = store.resolve? := by
  have inGate : rest.constantInGate? = store.constantInGate? := by
    funext gate name
    simp only [constantInGate?, directConstant?, constants, mixins]
  funext name gates
  rw [resolve?, resolve?, inGate]

theorem SameEdges.resolve?_eq (same : SameEdges store rest) : rest.resolve? = store.resolve? := by
  have constants := same.toSameSpaces.hasConstant_eq
  have direct : rest.directConstant? = store.directConstant? := by
    funext gate name
    rw [directConstant?, directConstant?, constants]
  refine resolve?_congr constants (funext fun space => ?_)
  rw [mixinsOf, mixinsOf, same.edges, direct]

/-! ### Searches -/

section

variable {m : Type → Type} [Monad m] [ConstantLookup m]

/-- Stores in which every frame expands alike list the same frames. -/
theorem workOff_congr
    (same : ∀ frame, (rest.expansion frame : m _) = store.expansion frame)
    (pending : List (String × Scope)) (stack : List SearchStep) :
    (rest.workOff pending stack : m _) = store.workOff pending stack := by
  induction pending, stack using workOff.induct with
  | case1 pending => rw [workOff, workOff]
  | case2 pending frame stack ih => rw [workOff, workOff, ih]
  | case3 pending frame stack new ih =>
    rw [workOff, workOff, dif_pos new, dif_pos new, same]
    exact congrArg _ (funext ih)
  | case4 pending frame stack known ih => rw [workOff, workOff, dif_neg known, dif_neg known, ih]

variable (byAnswers : LooksUpByAnswers m) (same : SameEdges store rest)
include byAnswers same

theorem SameEdges.follow_eq (source : Frame) (edge : Pin) (scope : Scope) :
    (rest.follow source edge scope : m _) = store.follow source edge scope := by
  have target : (rest.targetOf edge : m _) = store.targetOf edge :=
    congrArg (fun found => if edge.edgeKind?.isSome then found else pure none)
      (byAnswers same.resolve?_eq edge.name edge.targetGates)
  have bindings : rest.edgeBindings = store.edgeBindings := by
    funext source edge target
    rw [edgeBindings, edgeBindings, same.toSameSpaces.genericsOf_eq]
  rw [follow, follow, target, bindings]

theorem SameEdges.expansion_eq (frame : Frame) :
    (rest.expansion frame : m _) = store.expansion frame := by
  have follows : (rest.follow : Frame → Pin → Scope → m _) = store.follow := by
    funext source edge scope
    exact same.follow_eq byAnswers source edge scope
  have all : (rest.followAll frame : EdgeKind → m _) = store.followAll frame := by
    funext kind
    rw [followAll, followAll, Store.edges, Store.edges, same.edges, follows]
  have superclass : (rest.superclassOf frame : Scope → m _) = store.superclassOf frame := by
    funext scope
    rw [superclassOf, superclassOf, Store.edges, Store.edges, same.edges, follows,
      same.toSameSpaces.hasModule_eq]
  rw [expansion, expansion, all, superclass]

theorem SameEdges.receiverAncestors_eq (receiver : Member) :
    (rest.receiverAncestors receiver : m _) = store.receiverAncestors receiver := by
  have start : rest.receiverFrame receiver = store.receiverFrame receiver := by
    rw [receiverFrame, receiverFrame, same.toSameSpaces.genericsOf_eq]
  rw [receiverAncestors, receiverAncestors, search, search, start, metaPath, metaPath,
    same.toSameSpaces.hasModule_eq, same.toSameSpaces.reachableKeys_eq]
  exact workOff_congr (same.expansion_eq byAnswers) _ _

end

end

/-! ### Leaving out the pins of a path -/

/-- The store without the pins of a path. -/
def without (store : Store) (path : String) : Store :=
  .ofGroups (store.live.map fun (key, pins) => (key, pins.filter (·.path != path)))

/-- No namespace, constant or edge has the path. -/
def OffTheWay (store : Store) (path : String) : Prop :=
  ∀ pin ∈ store.everyPin, pin.path = path → declares pin = false ∧ pin.edgeKind? = none

section

variable {store : Store} {path : String} (coherent : store.Coherent)

theorem coherent_without (store : Store) (path : String) : (store.without path).Coherent := by
  rw [without, ofGroups_eq]
  exact coherent_afterChanges _

include coherent

theorem everyPin_without :
    (store.without path).everyPin = store.everyPin.filter (·.path != path) := by
  have distinct : ((store.live.map fun (key, pins) =>
      (key, pins.filter (·.path != path))).map Prod.fst).Nodup := by
    rw [List.map_map]
    have keys := coherent.keys
    rw [← keysInOrder, keysInOrder_eq] at keys
    exact keys
  rw [everyPin_eq, without, ofGroups_eq, live_afterChanges, liveAfter_updates distinct,
    everyPin_eq, List.flatMap_map, List.filter_flatMap]

/-- A path that is not written like that of an edge is off the way if it names no namespace and no
constant. -/
theorem offTheWay_of_hasConstant (unlike : path.toList.getLast? ≠ some '>')
    (absent : store.hasConstant path = false) : store.OffTheWay path := by
  intro pin listed here
  constructor
  · have undeclared : (store.pinsAt path).any declares = false := absent
    rw [coherent.anyAt] at undeclared
    simpa [here] using List.any_eq_false.mp undeclared pin listed
  · cases edge : pin.edgeKind? with
    | none => rfl
    | some kind => exact absurd (here ▸ Pin.getLast?_path_of_edgeKind? edge) unlike

variable (apart : store.OffTheWay path)
include apart

/-- A test that no pin at the path passes finds the same pins. -/
theorem filter_without {test : Pin → Bool}
    (fails : ∀ pin, declares pin = false → pin.edgeKind? = none → test pin = false) :
    (store.without path).everyPin.filter test = store.everyPin.filter test := by
  rw [everyPin_without coherent, List.filter_filter]
  refine List.filter_congr fun pin listed => ?_
  cases here : pin.path != path with
  | true => rw [Bool.and_true]
  | false =>
    obtain ⟨space, edge⟩ := apart pin listed (by simpa using here)
    rw [fails pin space edge, Bool.false_and]

theorem sameEdges_without : SameEdges store (store.without path) where
  coherent := coherent
  coherent_rest := coherent_without store path
  spaces := filter_without coherent apart fun _ space _ => space
  edges := by
    funext space kinds
    rw [coherent.edgesFrom, (coherent_without store path).edgesFrom]
    refine filter_without coherent apart fun pin _ edge => ?_
    rw [isEdgeFrom, edge]

theorem seenFrom_without : (store.without path).seenFrom = store.seenFrom := by
  have overrides : (store.without path).overrides = store.overrides := by
    funext method
    rw [coherent.overrides, (coherent_without store path).overrides]
    refine filter_without coherent apart fun pin _ edge => ?_
    rw [edge]
    rfl
  funext b pin
  rw [seenFrom, seenFrom, withOverrides, withOverrides, overrides]

theorem frameMethods_without (name : String) (frame : Frame) :
    (store.without path).frameMethods name frame =
      (store.frameMethods name frame).filter (·.path != path) := by
  have path_seenFrom : ∀ pin, (store.seenFrom frame.bindings pin).path = pin.path :=
    seenFrom_eq Pin.path_withOverloads Pin.path_proxied store frame.bindings
  have kept : ((·.path != path) ∘ store.seenFrom frame.bindings) = (·.path != path) := by
    funext pin
    simp [path_seenFrom]
  rw [frameMethods, frameMethods, seenFrom_without coherent apart, List.filter_map, kept,
    (coherent_without store path).methodsOf, coherent.methodsOf, everyPin_without coherent,
    List.filter_filter, List.filter_filter, List.filter_filter, List.filter_filter]
  refine congrArg _ (List.filter_congr fun pin _ => ?_)
  ac_rfl

/-- Of the methods of a receiver exactly those at the path are missing. -/
theorem methodsNamed_without {m : Type → Type} [Monad m] [LawfulMonad m] [ConstantLookup m]
    (byAnswers : LooksUpByAnswers m) (receiver : Member) (name : String) :
    ((store.without path).methodsNamed receiver name : m _) =
      List.filter (·.path != path) <$> store.methodsNamed receiver name := by
  have frames := (sameEdges_without coherent apart).receiverAncestors_eq byAnswers receiver
  have methods : (store.without path).frameMethods name =
      fun frame => (store.frameMethods name frame).filter (·.path != path) :=
    funext (frameMethods_without coherent apart name)
  rw [methodsNamed, methodsNamed, frames, methods, map_bind]
  refine congrArg _ (funext fun frames => ?_)
  rw [map_pure, List.filter_flatMap]

end

end Store

end DuckInfer
