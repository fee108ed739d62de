/-!
Replacing every occurrence of a text in another text, from left to right.
-/

namespace DuckInfer.Text

/-- Replaces occurrences of `pattern` in the text behind the next `skip` characters, which are
dropped: they belong to an occurrence that is replaced already. -/
def replaceFrom (pattern value : List Char) (skip : Nat) : List Char → List Char
  | [] => []
  | c :: rest =>
    match skip with
    | skip + 1 => replaceFrom pattern value skip rest
    | 0 =>
      if pattern.isPrefixOf (c :: rest) then
        value ++ replaceFrom pattern value (pattern.length - 1) rest
      else c :: replaceFrom pattern value 0 rest

/-- Replaces every occurrence of `pattern`, which is not empty. -/
def replaceAll (pattern value s : List Char) : List Char :=
  replaceFrom pattern value 0 s

end DuckInfer.Text
