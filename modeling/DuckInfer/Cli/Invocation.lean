import DuckInfer.Cli.Arguments
import DuckInfer.Question

/-!
What a command line asks for: options for the whole program, the name of a question, and the words
and options of that question. The options for the whole program may also stand behind the name; if
one stands on both sides, what is behind the name counts.
-/

namespace DuckInfer.Cli

/-- Which files a question is about. -/
structure Sources where
  config? : Option String
  /-- declaration files besides those of the configuration -/
  declarations : List String

namespace Sources

/-- The options that say which files a question is about. -/
def options : List String :=
  ["config", "decl"]

/-- The files given at one level. A path may not be empty. -/
def ofGiven? (g : Given) : Option Sources := do
  let config? ← g.value? "config"
  let declarations := g.valuesOf "decl"
  if (config?.toList ++ declarations).any String.isEmpty then none
  return ⟨config?, declarations⟩

/-- What is given at an inner level replaces what is given at the outer one. -/
def override (outer inner : Sources) : Sources :=
  ⟨inner.config?.or outer.config?,
    if inner.declarations.isEmpty then outer.declarations else inner.declarations⟩

end Sources

/-- What a command line asks for. -/
structure Invocation where
  sources : Sources
  question : Question

namespace Invocation

/-- The options in front of the name of a question. -/
def outerLevel : Level :=
  ⟨Sources.options, [], false⟩

/-- The level of a question with these options besides those for the whole program. -/
def innerLevel (valued flags : List String) : Level :=
  ⟨valued ++ Sources.options, flags, true⟩

/-- The level behind the name of a question. -/
def levelOf? : String → Option Level
  | "pins" => some (innerLevel [] [])
  | "ancestors" => some (innerLevel [] ["class"])
  | "methods" => some (innerLevel [] ["class"])
  | "constants" => some (innerLevel [] [])
  | "resolve" => some (innerLevel ["gate"] [])
  | "call" => some (innerLevel ["arg", "block-symbol"] [])
  | _ => none

/-- The side of a namespace that is asked for. -/
def scope? (g : Given) : Option Scope :=
  (g.flag? "class").map fun onClass => if onClass then .classLevel else .instanceLevel

/-- The question with a name, if its words are as many as it needs. -/
def question? (name : String) (g : Given) : Option Question := do
  match name, g.words with
  | "pins", [path] => return .pins path
  | "ancestors", [space] => return .ancestors space (← scope? g)
  | "methods", [space] => return .methods space (← scope? g)
  | "constants", [space] => return .constants space
  | "resolve", [constant] => return .resolve constant (g.valuesOf "gate")
  | "call", [receiver, method] =>
    return .call receiver method (g.valuesOf "arg") (← g.value? "block-symbol")
  | _, _ => none

def ofArguments? (arguments : List String) : Option Invocation := do
  let outer ← outerLevel.read? arguments
  match outer.rest with
  | [] => none
  | name :: rest =>
    let level ← levelOf? name
    let inner ← level.read? rest
    let outerSources ← Sources.ofGiven? outer
    let innerSources ← Sources.ofGiven? inner
    let question ← question? name inner
    return ⟨outerSources.override innerSources, question⟩

end Invocation

end DuckInfer.Cli
