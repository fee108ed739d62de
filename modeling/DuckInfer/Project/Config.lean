import DuckInfer.Files.Disk
import DuckInfer.Infer.Analyzer
import DuckInfer.Toml.Document
import DuckInfer.Toml.Record

/-!
The configuration of a project: a file `infer.toml` that lists declaration files and may set the
budget of the inference. It is looked for in the working directory and in the directories above it.
-/

namespace DuckInfer

/-- What a configuration file says. -/
structure Config where
  /-- declaration files, relative to the directory of the configuration file -/
  declarations : List String
  budget? : Option Nat

/-- Why a configuration file cannot be used. -/
inductive ConfigFailure where
  | unreadable (path : String)
  | malformed (path : String)

def ConfigFailure.message : ConfigFailure → String
  | .unreadable path => "failed to read " ++ path
  | .malformed path => "invalid configuration in " ++ path

namespace Config

/-- The configuration of a project that has no configuration file. -/
def empty : Config :=
  ⟨[], none⟩

def fileName : String :=
  "infer.toml"

/-- Reads the section `resolver`, which may set the budget. -/
def budgetOf? (v : Toml.Value) : Option (Option Nat) := do
  let r ← Toml.Record.ofValue? ["max_depth"] v
  r.optional "max_depth" Toml.nat?

def ofText? (source : String) : Option Config := do
  let entries ← Toml.ofText? source
  let r ← Toml.Record.ofEntries? ["declarations", "resolver"] entries
  return {
    declarations := ← r.orDefault "declarations" (Toml.listOf? Toml.text?) []
    budget? := ← r.orDefault "resolver" budgetOf? none }

def budget (c : Config) : Nat :=
  c.budget?.getD Analyzer.defaultBudget

/-- The paths of the declaration files of a configuration file in a directory. -/
def declarationFiles (c : Config) (dir : String) : List String :=
  c.declarations.map (Files.join dir)

variable {m : Type → Type} [Monad m]

def load (disk : Files.Disk m) (path : String) : m (Except ConfigFailure Config) := do
  match ← disk.read? path with
  | none => return .error (.unreadable path)
  | some source =>
    match ofText? source with
    | some c => return .ok c
    | none => return .error (.malformed path)

/-- The configuration file of a directory: the one in it, or else in the nearest directory above it
that has one. -/
def find? (disk : Files.Disk m) (dir : String) : m (Option String) :=
  let candidates := (dir :: Files.above dir).map fun dir => Files.join dir fileName
  candidates.findM? disk.isFile

end Config

end DuckInfer
