import DuckInfer.Pin.Basic
import DuckInfer.Toml.Document
import DuckInfer.Toml.Record

/-!
Declaration files: namespaces, methods, constants and overriding documentation, written as TOML.

    [[namespace]]
    name = "Box"
    generics = ["Elem"]
    include = ["Enumerable<generic<Elem>>"]

    [[method]]
    namespace = "Box"
    name = "first"
    signature = [{ returns = "generic<Elem>" }]
-/

namespace DuckInfer.Decl

open Toml (Value Entry Record text? listOf? word?)

/-- A namespace with the types that its edges lead to. -/
structure SpaceEntry where
  name : String
  isModule : Bool
  superclass : Option String
  includes : List String
  prepends : List String
  extendedBy : List String
  generics : List String
  comments : String

structure ParamEntry where
  name : String
  ty : Option String
  form : DuckInfer.ParamForm

structure SignatureEntry where
  generics : List String
  params : List ParamEntry
  returns : Option String
  block : Option SignatureEntry

structure MethodEntry where
  space : String
  name : String
  scope : Scope
  visibility : Visibility
  signatures : List SignatureEntry
  comments : String

structure ConstantEntry where
  space : String
  name : String
  ty : Option String
  comments : String

/-- Another return type for a method, given by its path. -/
structure OverrideEntry where
  method : String
  returns : String

/-- A declaration file. -/
structure File where
  spaces : List SpaceEntry
  methods : List MethodEntry
  constants : List ConstantEntry
  overrides : List OverrideEntry

/-! ### Words -/

/-- The kinds of namespaces; the value says whether it is a module. -/
def spaceKinds : List (String × Bool) :=
  [("class", false), ("module", true)]

def scopes : List (String × Scope) :=
  [("instance", .instanceLevel), ("class", .classLevel)]

def visibilities : List (String × Visibility) :=
  [("public", .everyone), ("protected", .relatives), ("private", .receiver)]

def paramKinds : List (String × DuckInfer.ParamForm) :=
  [("req", .required), ("opt", .optional), ("rest", .rest), ("kw_req", .keyRequired),
    ("kw_opt", .keyOptional), ("kw_rest", .keyRest), ("block", .block)]

/-! ### Reading -/

def texts? : Value → Option (List String) :=
  listOf? text?

def SpaceEntry.ofValue? (v : Value) : Option SpaceEntry := do
  let r ← Record.ofValue?
    ["name", "kind", "superclass", "include", "prepend", "extend", "generics", "comments"] v
  return {
    name := ← r.required "name" text?
    isModule := ← r.orDefault "kind" (word? spaceKinds) false
    superclass := ← r.optional "superclass" text?
    includes := ← r.orDefault "include" texts? []
    prepends := ← r.orDefault "prepend" texts? []
    extendedBy := ← r.orDefault "extend" texts? []
    generics := ← r.orDefault "generics" texts? []
    comments := ← r.orDefault "comments" text? "" }

def ParamEntry.ofValue? (v : Value) : Option ParamEntry := do
  let r ← Record.ofValue? ["name", "type", "kind"] v
  return {
    name := ← r.required "name" text?
    ty := ← r.optional "type" text?
    form := ← r.orDefault "kind" (word? paramKinds) .required }

/-- Reads a signature whose blocks are nested to some depth at most. -/
def SignatureEntry.readWithin? : Nat → Value → Option SignatureEntry
  | 0, _ => none
  | depth + 1, v => do
    let r ← Record.ofValue? ["generics", "params", "returns", "block"] v
    return {
      generics := ← r.orDefault "generics" texts? []
      params := ← r.orDefault "params" (listOf? ParamEntry.ofValue?) []
      returns := ← r.optional "returns" text?
      block := ← r.optional "block" (readWithin? depth) }

def SignatureEntry.ofValue? (v : Value) : Option SignatureEntry :=
  readWithin? (v.depth + 1) v

def MethodEntry.ofValue? (v : Value) : Option MethodEntry := do
  let r ← Record.ofValue? ["namespace", "name", "scope", "visibility", "signature", "comments"] v
  return {
    space := ← r.orDefault "namespace" text? ""
    name := ← r.required "name" text?
    scope := ← r.orDefault "scope" (word? scopes) .instanceLevel
    visibility := ← r.orDefault "visibility" (word? visibilities) .everyone
    signatures := ← r.orDefault "signature" (listOf? SignatureEntry.ofValue?) []
    comments := ← r.orDefault "comments" text? "" }

def ConstantEntry.ofValue? (v : Value) : Option ConstantEntry := do
  let r ← Record.ofValue? ["namespace", "name", "type", "comments"] v
  return {
    space := ← r.orDefault "namespace" text? ""
    name := ← r.required "name" text?
    ty := ← r.optional "type" text?
    comments := ← r.orDefault "comments" text? "" }

def OverrideEntry.ofValue? (v : Value) : Option OverrideEntry := do
  let r ← Record.ofValue? ["method", "returns"] v
  return {
    method := ← r.required "method" text?
    returns := ← r.required "returns" text? }

def File.ofText? (source : String) : Option File := do
  let entries ← Toml.ofText? source
  let r ← Record.ofEntries? ["namespace", "method", "constant", "override"] entries
  return {
    spaces := ← r.orDefault "namespace" (listOf? SpaceEntry.ofValue?) []
    methods := ← r.orDefault "method" (listOf? MethodEntry.ofValue?) []
    constants := ← r.orDefault "constant" (listOf? ConstantEntry.ofValue?) []
    overrides := ← r.orDefault "override" (listOf? OverrideEntry.ofValue?) [] }

end DuckInfer.Decl
