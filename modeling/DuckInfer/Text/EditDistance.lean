/-!
The number of insertions, deletions and replacements of characters that lead from one text to
another, and suggestions of similar words.
-/

namespace DuckInfer.Text

/-- The rest of a row of distances for one more character `c`. `left` is the entry before, and
`diagonal` the entry above it; the list holds the row above from the next entry on. -/
def rowFrom (c : Char) (left diagonal : Nat) : List Char → List Nat → List Nat
  | b :: bs, above :: row =>
    let entry := if c = b then diagonal else 1 + min (min diagonal above) left
    entry :: rowFrom c entry above bs row
  | _, _ => []

/-- The row of distances for one more character. -/
def nextRow (bs : List Char) (row : List Nat) (c : Char) : List Nat :=
  match row with
  | [] => []
  | diagonal :: row => (diagonal + 1) :: rowFrom c (diagonal + 1) diagonal bs row

/-- The distance between two texts. A row holds the distances from the text read so far to each
beginning of the other text. -/
def editDistance (a b : List Char) : Nat :=
  ((a.foldl (nextRow b) (List.range (b.length + 1))).getLast?).getD 0

/-- How far a suggestion may be from a word. -/
def maxDistance (word : List Char) : Nat :=
  if word.length ≤ 2 then 1 else if word.length ≤ 4 then 2 else 3

/-- The first of the nearest candidates. -/
def nearest? : List (String × Nat) → Option (String × Nat)
  | [] => none
  | x :: xs =>
    match nearest? xs with
    | some y => if y.2 < x.2 then some y else some x
    | none => some x

end DuckInfer.Text

namespace DuckInfer

/-- The distance between two words. -/
def editDistance (a b : String) : Nat :=
  Text.editDistance a.toList b.toList

/-- The nearest candidate that differs from the word but not beyond tolerance. -/
def suggest? (word : String) (candidates : List String) : Option String :=
  let rated := candidates.map fun candidate => (candidate, editDistance word candidate)
  let near := rated.filter fun x => 1 ≤ x.2 && x.2 ≤ Text.maxDistance word.toList
  (Text.nearest? near).map Prod.fst

end DuckInfer
