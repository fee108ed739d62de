/-!
Constant paths: texts whose segments are separated by `::`.
-/

namespace DuckInfer.Text

/-- The segments of a path, cut at each `::` from left to right. -/
def segments : List Char → List (List Char)
  | [] => [[]]
  | ':' :: ':' :: rest => [] :: segments rest
  | c :: rest =>
    match segments rest with
    | [] => [[c]]
    | segment :: others => (c :: segment) :: others

/-- Number of `::` separators, counted from left to right. -/
def separatorCount (path : List Char) : Nat :=
  (segments path).length - 1

/-- Drops every `::` in front. -/
def dropRoots : List Char → List Char
  | ':' :: ':' :: rest => dropRoots rest
  | path => path

/-- Cuts a path at its last `::`, if it has one. -/
def splitLast? : List Char → Option (List Char × List Char)
  | [] => none
  | c :: rest =>
    match splitLast? rest with
    | some (outer, last) => some (c :: outer, last)
    | none =>
      match c, rest with
      | ':', ':' :: last => some ([], last)
      | _, _ => none

end DuckInfer.Text

namespace DuckInfer.Path

/-- Joins an outer path and a name; the root path is empty. -/
def join (outer name : String) : String :=
  if outer.isEmpty then name else outer ++ "::" ++ name

def segments (path : String) : List String :=
  (Text.segments path.toList).map String.ofList

/-- The path without any `::` in front. -/
def unrooted (path : String) : String :=
  String.ofList (Text.dropRoots path.toList)

/-- The path without one `::` in front, if it starts with one. -/
def stripRoot? (path : String) : Option String :=
  match path.toList with
  | ':' :: ':' :: rest => some (String.ofList rest)
  | _ => none

/-- The outer path and the last segment, if the path has more than one. -/
def splitLast? (path : String) : Option (String × String) :=
  (Text.splitLast? path.toList).map fun (outer, last) => (String.ofList outer, String.ofList last)

end DuckInfer.Path
