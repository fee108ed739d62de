import DuckInfer.Decl.Pins
import DuckInfer.Files.Disk
import DuckInfer.Store.Basic

/-!
The declaration files of a project. Each is a group of pins; a file that is no declaration file
counts as loaded, but has no group.
-/

namespace DuckInfer

/-- Declaration files that were read. -/
structure Workspace where
  /-- the paths and texts of all files, in the order in which they were read -/
  sources : List (String × String)
  /-- the pins of the files that are declaration files -/
  groups : List (String × List Pin)

namespace Workspace

/-- The pins that a text declares as the group of its file. -/
def group? (source : String × String) : Option (String × List Pin) :=
  match Decl.pinsOfSource source.1 source.2 with
  | .ok pins => some (source.1, pins)
  | .error _ => none

/-- The workspace of some files. -/
def ofSources (sources : List (String × String)) : Workspace :=
  ⟨sources, sources.filterMap group?⟩

def store (w : Workspace) : Store :=
  .ofGroups w.groups

/-- The workspaces were read from the same files with the same texts. -/
def sameSources (v w : Workspace) : Bool :=
  v.sources == w.sources

variable {m : Type → Type} [Monad m]

/-- Reads files up to the first one that cannot be read. -/
def readAll (disk : Files.Disk m) :
    List String → m (Except Decl.FileFailure (List (String × String)))
  | [] => return .ok []
  | path :: paths => do
    match ← disk.read? path with
    | none => return .error (.unreadable path)
    | some text =>
      let rest ← readAll disk paths
      return rest.map ((path, text) :: ·)

/-- Loads declaration files. All of them have to be readable. -/
def load (disk : Files.Disk m) (paths : List String) : m (Except Decl.FileFailure Workspace) := do
  let sources ← readAll disk paths
  return sources.map ofSources

end Workspace

end DuckInfer
