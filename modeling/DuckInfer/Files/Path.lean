/-!
Paths of files. A path is absolute if it starts with `/`. Its pieces are separated by `/`; an empty
piece and `.` name nothing of their own, except for a `.` at the very front, which stands for the
working directory.
-/

namespace DuckInfer.Files

/-- The pieces of a path, cut at each `/`. -/
def pieces : List Char → List (List Char)
  | [] => [[]]
  | c :: rest =>
    if c = '/' then [] :: pieces rest
    else
      match pieces rest with
      | [] => [[c]]
      | piece :: others => (c :: piece) :: others

/-- The path leaves the working directory aside. -/
def isAbsolute (path : String) : Bool :=
  path.toList.head? == some '/'

/-- A path inside a directory. An absolute path does not depend on the directory. -/
def join (dir path : String) : String :=
  if isAbsolute path then path
  else if dir.isEmpty || dir.toList.getLast? == some '/' then dir ++ path
  else dir ++ "/" ++ path

/-- What a path starts at, the root or an explicit working directory, and the text behind it. -/
def splitStart : List Char → List Char × List Char
  | '/' :: rest => (['/'], rest)
  | ['.'] => (['.'], [])
  | '.' :: '/' :: rest => (['.'], '/' :: rest)
  | path => ([], path)

/-- A piece that names nothing. -/
def isFiller (piece : List Char) : Bool :=
  piece == [] || piece == ['.']

/-- Drops the last piece that names something. Pieces are given from the last to the first. -/
def dropName? (ps : List (List Char)) : Option (List (List Char)) :=
  match ps.dropWhile isFiller with
  | [] => none
  | _ :: rest => some (rest.dropWhile isFiller)

/-- Dropping a piece leaves fewer pieces. -/
theorem length_lt_of_dropName? {ps qs : List (List Char)} (h : dropName? ps = some qs) :
    qs.length < ps.length := by
  have hps := (List.dropWhile_suffix isFiller (l := ps)).length_le
  unfold dropName? at h
  split at h
  · cases h
  · next rest heq =>
    cases h
    have hrest := (List.dropWhile_suffix isFiller (l := rest)).length_le
    rw [heq, List.length_cons] at hps
    omega

/-- All that is left by dropping one piece after the other. -/
def dropNames (ps : List (List Char)) : List (List (List Char)) :=
  match _h : dropName? ps with
  | none => []
  | some qs => qs :: dropNames qs
termination_by ps.length
decreasing_by exact length_lt_of_dropName? _h

/-- The directories above a path, nearest first. A relative path ends at the working directory. -/
def above (path : String) : List String :=
  let (start, body) := splitStart path.toList
  let dirs := (dropNames (pieces body).reverse).map fun ps =>
    String.ofList (start ++ List.intercalate ['/'] ps.reverse)
  if start == ['.'] then dirs ++ [""] else dirs

/-- The directory that a path is in. -/
def parent? (path : String) : Option String :=
  (above path).head?

end DuckInfer.Files
