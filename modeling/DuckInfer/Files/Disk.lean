import DuckInfer.Files.Path

/-!
Access to files. A disk answers what programs of this library ask about files. A tree is a disk that
is given by the files on it; its directories are those that the files are in.
-/

namespace DuckInfer.Files

/-- What can be asked about files. Relative paths start at the working directory. -/
structure Disk (m : Type → Type) where
  /-- the absolute path of the working directory -/
  workingDir : String
  /-- the text of a file, if the path is that of a readable file -/
  read? : String → m (Option String)
  /-- the path is that of a file, and not of a directory -/
  isFile : String → m Bool

/-- The names from the root to a file or a directory. -/
abbrev Place := List String

/-- Files with their places, the last written first. -/
structure Tree where
  files : List (Place × String)

namespace Tree

def empty : Tree :=
  ⟨[]⟩

/-- The names in a path. -/
def names (path : String) : List String :=
  (pieces path.toList).map String.ofList

/-- Writes a file below a directory, over an older one. -/
def write (t : Tree) (dir : Place) (path text : String) : Tree :=
  let place := dir ++ (names path).filter fun name => name != "" && name != "."
  ⟨(place, text) :: t.files⟩

def file? (t : Tree) (place : Place) : Option String :=
  t.files.lookup place

/-- There is a directory at a place: something is below it, or somebody works in it. -/
def isDir (t : Tree) (cwd place : Place) : Bool :=
  place.isPrefixOf cwd || t.files.any fun (file, _) => file != place && place.isPrefixOf file

/-- Follows a name from a place, which has to be a directory. -/
def follow? (t : Tree) (cwd place : Place) (name : String) : Option Place :=
  if !t.isDir cwd place then none
  else if name == "" || name == "." then some place
  else if name == ".." then some place.dropLast
  else some (place ++ [name])

/-- The place that a path means in a working directory. Nothing needs to be there. -/
def find? (t : Tree) (cwd : Place) (path : String) : Option Place :=
  if path.isEmpty then none
  else (names path).foldlM (t.follow? cwd) (if isAbsolute path then [] else cwd)

/-- The text of the file that a path means. -/
def read? (t : Tree) (cwd : Place) (path : String) : Option String :=
  (t.find? cwd path).bind t.file?

/-- A tree as a disk with a working directory. -/
def disk (t : Tree) (cwd : Place) : Disk Id where
  workingDir := "/" ++ "/".intercalate cwd
  read? path := t.read? cwd path
  isFile path := (t.read? cwd path).isSome

end Tree

end DuckInfer.Files
