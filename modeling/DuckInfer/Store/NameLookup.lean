import DuckInfer.Store.Basic

/-!
Constant lookup. A relative name is tried in each gate, innermost first: among the constants of the
gate, then among those of the namespaces that the gate includes or extends, and no further. The
first segment of a path is looked up this way, each further one inside what was found so far. A
name with `::` in front is looked up in the root gate.
-/

namespace DuckInfer

namespace Store

/-- The constant of a name directly in a gate. -/
def directConstant? (store : Store) (gate name : String) : Option String :=
  let path := Path.join gate name
  if store.hasConstant path then some path else none

/-- Looks up a path, given how a name is looked up in one gate. -/
def resolveWith? (inGate? : String → String → Option String) (name : String)
    (gates : List String) : Option String :=
  let (gates, name) := match Path.stripRoot? name with
    | some absolute => ([""], absolute)
    | none => (gates, name)
  if name.isEmpty then none
  else
    match Path.segments name with
    | [] => none
    | head :: segments =>
      segments.foldl (fun found segment => found.bind fun gate => inGate? gate segment)
        (gates.findSome? fun gate => inGate? gate head)

/-- The edges along which constants of another namespace are visible. -/
def mixinEdges : List EdgeKind :=
  [.includes, .extends]

/-- The namespaces that a namespace includes or extends, themselves looked up without mixins. -/
def mixinsOf (store : Store) (space : String) : List String :=
  (store.edgesFrom space mixinEdges).filterMap fun edge =>
    resolveWith? store.directConstant? edge.name edge.targetGates

/-- The constant of a name in a gate or in one of its mixins. -/
def constantInGate? (store : Store) (gate name : String) : Option String :=
  match store.directConstant? gate name with
  | some path => some path
  | none => (store.mixinsOf gate).findSome? fun target => store.directConstant? target name

/-- The absolute path of the constant that a name means in some gates. -/
def resolve? (store : Store) (name : String) (gates : List String) : Option String :=
  resolveWith? store.constantInGate? name gates

end Store

/-! ### Lookup with and without memory -/

/-- A context in which the constants of a store are looked up. -/
class ConstantLookup (m : Type → Type) where
  lookup : Store → String → List String → m (Option String)

/-- Lookup without memory. -/
instance : ConstantLookup Id :=
  ⟨fun store name gates => store.resolve? name gates⟩

/-- Answers of earlier lookups. An answer is kept under the name and the gates written in one line,
so gates that are written alike share an answer. -/
structure Memo where
  answers : List ((String × String) × Option String)

namespace Memo

def empty : Memo :=
  ⟨[]⟩

/-- The key of a lookup. -/
def key (name : String) (gates : List String) : String × String :=
  (name, "|".intercalate gates)

/-- A kept answer. -/
def find? (memo : Memo) (name : String) (gates : List String) : Option (Option String) :=
  memo.answers.lookup (key name gates)

def keep (memo : Memo) (name : String) (gates : List String) (answer : Option String) : Memo :=
  ⟨(key name gates, answer) :: memo.answers⟩

/-- The kept answer, or a new one that is kept from now on. -/
def lookup (store : Store) (name : String) (gates : List String) (memo : Memo) :
    Option String × Memo :=
  match memo.find? name gates with
  | some answer => (answer, memo)
  | none =>
    let answer := store.resolve? name gates
    (answer, memo.keep name gates answer)

end Memo

/-- Lookup with memory. -/
instance : ConstantLookup (StateM Memo) :=
  ⟨Memo.lookup⟩

namespace Store

variable {m : Type → Type} [Monad m] [ConstantLookup m]

/-- The absolute path of the constant that a name means in some gates. -/
def lookup (store : Store) (name : String) (gates : List String) : m (Option String) :=
  ConstantLookup.lookup store name gates

/-- The path that a reference points at. -/
def targetOf (store : Store) (edge : Pin) : m (Option String) :=
  if edge.edgeKind?.isSome then store.lookup edge.name edge.targetGates else return none

/-- The targets of references, as far as they are declared. -/
def targetsOf (store : Store) (edges : List Pin) : m (List String) := do
  let targets ← edges.mapM fun edge => store.targetOf edge
  return targets.filterMap id

/-- The constants of a namespace, then those of its mixins, one for each path. -/
def visibleConstants (store : Store) (space : String) : m (List Pin) := do
  let targets ← store.targetsOf (store.edgesFrom space mixinEdges)
  return distinctOn Pin.path (store.constantsOf space ++ targets.flatMap store.constantsOf)

/-- Replaces relative names in a type by the absolute ones that they mean in some gates. -/
def qualify (store : Store) (gates : List String) (t : Ty) : m Ty :=
  t.qualifyM fun name => store.lookup name gates

end Store

end DuckInfer
