import DuckInfer.Store.NameLookup

/-!
The order in which namespaces are searched for a method, nearest first:

* on instances: the prepended namespaces (last first), the namespace itself, the included ones (last
  first), then the superclass in the same way;
* on the namespace itself: the namespace, the namespaces that it is extended by (as for instances),
  the superclass in the same way, then `Class` or `Module`.

The search works off a stack of frames to expand or emit. A namespace is expanded once for each
scope, so edges in a circle end the search instead of repeating it.
-/

namespace DuckInfer

/-- A namespace in the search, with its generics bound. -/
structure Frame where
  path : String
  scope : Scope
  bindings : Bindings

namespace Frame

/-- A frame without bindings. -/
def make (path : String) (scope : Scope) : Frame :=
  ⟨path, scope, .empty⟩

/-- Frames are the same if they search the same namespace in the same scope. -/
def key (frame : Frame) : String × Scope :=
  (frame.path, frame.scope)

end Frame

/-- What is left to do for a frame. -/
inductive SearchStep where
  /-- find out what comes before and after it -/
  | expand (frame : Frame)
  /-- it is the next in the order -/
  | emit (frame : Frame)

namespace Store

/-- Superclass of a class that is declared without one. -/
def defaultSuperclass? (path : String) (isModule : Bool) : Option String :=
  if isModule || path == "" || path == "BasicObject" then none
  else if path == "Object" then some "BasicObject"
  else if path == "Class" then some "Module"
  else if path == "TrueClass" || path == "FalseClass" then some "Boolean"
  else some "Object"

/-- The class of a namespace: `Module` or `Class`. -/
def metaPath (store : Store) (path : String) : String :=
  if store.hasModule path then "Module" else "Class"

/-- The namespaces that a search can reach from a start. -/
def reachablePaths (store : Store) (start : String) : List String :=
  start :: "Object" :: "BasicObject" :: "Module" :: "Class" :: "Boolean" ::
    ((store.everyPin.filter fun pin => pin.isSpace || pin.isConstant).map Pin.path)

/-- The frames that a search from a start can expand, by key. -/
def reachableKeys (store : Store) (start : String) : List (String × Scope) :=
  (store.reachablePaths start).flatMap fun path => [(path, .instanceLevel), (path, .classLevel)]

/-- The generics of the target of an edge, bound to the values of the edge. Values may mention the
generics bound in the frame that the edge starts from. -/
def edgeBindings (store : Store) (source : Frame) (edge : Pin) (target : String) : Bindings :=
  let values := match edge.kind with
    | .reference _ values => values.map (Ty.substitute source.bindings)
    | _ => []
  .ofList (((store.genericsOf target).zip values).filter fun (_, t) =>
    !t.isUndefined && !t.isGeneric)

/-- Takes a key off the keys that are left. -/
def eraseKeyFrom (pending : List (String × Scope)) (key : String × Scope) :
    List (String × Scope) :=
  pending.filter (· != key)

theorem length_eraseKeyFrom_lt {pending : List (String × Scope)} {key : String × Scope}
    (h : key ∈ pending) : (eraseKeyFrom pending key).length < pending.length := by
  refine Nat.lt_of_le_of_ne (List.length_filter_le _ _) fun e => ?_
  have := List.length_filter_eq_length_iff.mp e key h
  simp at this

variable {m : Type → Type} [Monad m] [ConstantLookup m]

/-- The frame that an edge leads to, if its target is declared. -/
def follow (store : Store) (source : Frame) (edge : Pin) (scope : Scope) : m (Option Frame) := do
  match ← store.targetOf edge with
  | some target => return some ⟨target, scope, store.edgeBindings source edge target⟩
  | none => return none

/-- The frames that the edges of a kind lead to. -/
def followAll (store : Store) (source : Frame) (kind : EdgeKind) : m (List Frame) := do
  let frames ← (store.edges source.path kind).mapM fun edge =>
    store.follow source edge .instanceLevel
  return frames.filterMap id

/-- The frame of the superclass: the first declared one, or the implicit one. -/
def superclassOf (store : Store) (frame : Frame) (scope : Scope) : m (Option Frame) :=
  match (store.edges frame.path .superclass).head? with
  | some edge => store.follow frame edge scope
  | none =>
    return (defaultSuperclass? frame.path (store.hasModule frame.path)).map fun path =>
      .make path scope

/-- What a frame expands to, in order. -/
def expansion (store : Store) (frame : Frame) : m (List SearchStep) :=
  match frame.scope with
  | .instanceLevel => do
    let prepended ← store.followAll frame .prepends
    let superclass ← store.superclassOf frame .instanceLevel
    let included ← store.followAll frame .includes
    return prepended.reverse.map .expand ++ .emit frame :: included.reverse.map .expand ++
      (superclass.map SearchStep.expand).toList
  | .classLevel => do
    let superclass ← store.superclassOf frame .classLevel
    let extended ← store.followAll frame .extends
    return .emit frame :: extended.reverse.map .expand ++ (superclass.map SearchStep.expand).toList

/-- Works off a stack. `pending` holds the keys of the frames that are not expanded yet. -/
def workOff (store : Store) (pending : List (String × Scope)) : List SearchStep → m (List Frame)
  | [] => return []
  | .emit frame :: stack => do
    let frames ← store.workOff pending stack
    return frame :: frames
  | .expand frame :: stack =>
    if _h : frame.key ∈ pending then do
      let steps ← store.expansion frame
      store.workOff (eraseKeyFrom pending frame.key) (steps ++ stack)
    else store.workOff pending stack
termination_by stack => (pending.length, stack.length)
decreasing_by
  · exact Prod.Lex.right _ (Nat.lt_succ_self _)
  · exact Prod.Lex.left _ _ (length_eraseKeyFrom_lt _h)
  · exact Prod.Lex.right _ (Nat.lt_succ_self _)

/-- The frames of a search that begins with a frame. -/
def search (store : Store) (start : Frame) : m (List Frame) :=
  let stack := match start.scope with
    | .instanceLevel => [.expand start]
    | .classLevel => [.expand start, .expand (.make (store.metaPath start.path) .instanceLevel)]
  store.workOff (store.reachableKeys start.path) stack

/-- The frames of a namespace. -/
def ancestors (store : Store) (path : String) (scope : Scope) : m (List Frame) :=
  store.search (.make path scope)

/-- The instance that a receiver stands for: `Class<Array<String>>` has its parameters one level
down. -/
def receiverInstance (receiver : Member) : Member :=
  match receiver.scope with
  | .instanceLevel => receiver
  | .classLevel => (receiver.subs.head?.map Ty.first).getD receiver

/-- The frame of a receiver, with the generics of its namespace bound by its parameters. -/
def receiverFrame (store : Store) (receiver : Member) : Frame :=
  ⟨receiver.space, receiver.scope,
    .ofReceiver (store.genericsOf receiver.space) (receiverInstance receiver)⟩

/-- The frames of a receiver. -/
def receiverAncestors (store : Store) (receiver : Member) : m (List Frame) :=
  store.search (store.receiverFrame receiver)

/-- The declarations of a namespace and of its ancestors on instances. -/
def ancestorSpaces (store : Store) (path : String) : m (List Pin) := do
  let frames ← store.ancestors path .instanceLevel
  return frames.flatMap fun frame => store.spacesAt frame.path

/-- One namespace is the other or among its ancestors on instances. -/
def isAncestorOrSelf (store : Store) (super sub : String) : m Bool :=
  if super == sub then return true
  else do
    let frames ← store.ancestors sub .instanceLevel
    return frames.any (·.path == super)

end Store

end DuckInfer
