import DuckInfer.Text.Blank

/-!
Tag lines of documentation comments:

    @name word [types] text
    @!name [types] text

The word counts only right before the bracket. The types end at the first closing bracket that does
not close an inner bracket; brackets nest one level deep. A bracket that is never closed belongs to
the text.
-/

namespace DuckInfer.Doc

/-- A tag line, taken apart. -/
structure TagLine where
  /-- the line starts with `@!` -/
  directive : Bool
  name : String
  leadingWord : Option String
  types : Option String
  text : String

/-- Why a line is not a tag line. -/
inductive TagLineError where
  /-- the line does not start with `@` -/
  | notATag (line : String)
  /-- no name follows the marker -/
  | noName

def TagLineError.message : TagLineError → String
  | .notATag line => "not a tag line: `" ++ line ++ "`"
  | .noName => "expected tag_name"

namespace TagLine

/-- Spaces and tabs separate the parts of a line. -/
def isSpace (c : Char) : Bool :=
  c == ' ' || c == '\t'

def isNameStart (c : Char) : Bool :=
  c.isAlpha || c == '_'

def isNameRest (c : Char) : Bool :=
  c.isAlphanum || c == '_'

def isWordChar (c : Char) : Bool :=
  c.isAlphanum || c == '_' || c == '*' || c == '&'

/-- The word in front of an opening bracket, and the rest from behind the word. -/
def readWord? (s : List Char) : Option (List Char × List Char) :=
  if (s.takeWhile isSpace).isEmpty then none
  else
    let s := s.dropWhile isSpace
    let word := s.takeWhile isWordChar
    let rest := s.dropWhile isWordChar
    if !word.isEmpty && (rest.dropWhile isSpace).head? == some '[' then some (word, rest)
    else none

/-- The text up to the closing bracket and the rest behind it; `inner` says that an inner bracket
is open. -/
def readBracketed? (inner : Bool) : List Char → Option (List Char × List Char)
  | [] => none
  | c :: rest =>
    if !inner && c == ']' then some ([], rest)
    else
      (readBracketed? (if inner then c != ']' else c == '[') rest).map fun (text, left) =>
        (c :: text, left)

/-- The text between brackets and the rest behind them. -/
def readTypes? (s : List Char) : Option (List Char × List Char) :=
  match s.dropWhile isSpace with
  | '[' :: rest => readBracketed? false rest
  | _ => none

/-- The parts behind the name. -/
def ofParts (directive : Bool) (name s : List Char) : TagLine :=
  let (word, s) := match readWord? s with
    | some (word, rest) => (some word, rest)
    | none => (none, s)
  let (types, s) := match readTypes? s with
    | some (types, rest) => (some types, rest)
    | none => (none, s)
  { directive
    name := String.ofList name
    leadingWord := word.map String.ofList
    types := types.map fun types => String.ofList (Text.trim types)
    text := String.ofList (Text.trim s) }

/-- Takes a tag line apart. Blanks around the line do not count. -/
def ofLine (line : List Char) : Except TagLineError TagLine :=
  match Text.trim line with
  | '@' :: rest =>
    let (directive, rest) := match rest with
      | '!' :: rest => (true, rest)
      | rest => (false, rest)
    match rest with
    | [] => .error .noName
    | c :: rest =>
      if isNameStart c then
        .ok (ofParts directive (c :: rest.takeWhile isNameRest) (rest.dropWhile isNameRest))
      else .error .noName
  | line => .error (.notATag (String.ofList line))

end TagLine

end DuckInfer.Doc
