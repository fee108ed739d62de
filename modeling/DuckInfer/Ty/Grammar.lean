import DuckInfer.Ty.Basic

/-!
Reading type tags:

    type    = member ("," member)*
    member  = "::"? name params?
    params  = "<" members? ">" | "(" members? ")" | "{" members "=>" members "}"

Names are read greedily and without gaps; between other tokens spaces, tabs and line ends may
stand. Every reader returns what it read and the rest of the text. A union is read on the outside
only: in brackets a comma separates parameters.
-/

namespace DuckInfer.TagGrammar

/-- Characters that may stand between tokens. -/
def isGap (c : Char) : Bool :=
  c == ' ' || c == '\t' || c == '\r' || c == '\n'

/-- Drops the gap in front of a token. -/
def skipGap (s : List Char) : List Char :=
  s.dropWhile isGap

/-- The text after `token`, if it starts with it. -/
def after? (token s : List Char) : Option (List Char) :=
  if token.isPrefixOf s then some (s.drop token.length) else none

/-! ### Names -/

/-- Characters that an identifier starts with. -/
def isIdentStart (c : Char) : Bool :=
  c.isAlpha || c == '_'

/-- Characters inside an identifier. -/
def isIdentRest (c : Char) : Bool :=
  c.isAlphanum || c == '_'

/-- An optional question or exclamation mark. -/
def readMark : List Char → List Char × List Char
  | '?' :: rest => (['?'], rest)
  | '!' :: rest => (['!'], rest)
  | rest => ([], rest)

/-- An identifier: `name`, `name?` or `name!`. -/
def readIdent? : List Char → Option (List Char × List Char)
  | [] => none
  | c :: rest =>
    if isIdentStart c then
      let (mark, left) := readMark (rest.dropWhile isIdentRest)
      some (c :: rest.takeWhile isIdentRest ++ mark, left)
    else none

/-- Operators, each before those that it starts with. -/
def operators : List (List Char) :=
  ["[]=", "[]", "<=>", "===", "==", "=~", "!=", "!~", "<<", ">>", "<=", ">=", "**", "+@", "-@",
    "+", "-", "*", "/", "%", "!", "&", "|", "^", "~"].map String.toList

/-- The first operator that the text starts with. -/
def readOperator? (s : List Char) : Option (List Char × List Char) :=
  operators.findSome? fun op => (after? op s).map fun rest => (op, rest)

/-- A duck type: `#` and a method name, which may be an operator or end in `=`. -/
def readDuck? : List Char → Option (List Char × List Char)
  | '#' :: rest =>
    match readOperator? rest with
    | some (op, rest) => some ('#' :: op, rest)
    | none =>
      match readIdent? rest with
      | some (ident, '=' :: rest) => some ('#' :: ident ++ ['='], rest)
      | some (ident, rest) => some ('#' :: ident, rest)
      | none => none
  | _ => none

/-- A symbol: `:name`. -/
def readSymbol? : List Char → Option (List Char × List Char)
  | ':' :: rest => (readIdent? rest).map fun (ident, rest) => (':' :: ident, rest)
  | _ => none

/-- A text between two equal quotes. -/
def readQuoted? : List Char → Option (List Char × List Char)
  | [] => none
  | quote :: rest =>
    if quote == '\'' || quote == '"' then
      match rest.dropWhile (· != quote) with
      | [] => none
      | _ :: left => some (quote :: rest.takeWhile (· != quote) ++ [quote], left)
    else none

/-- At least one digit. -/
def readDigits? (s : List Char) : Option (List Char × List Char) :=
  match s.takeWhile Char.isDigit with
  | [] => none
  | digits => some (digits, s.dropWhile Char.isDigit)

/-- Digits and, after a point, more digits. -/
def readUnsigned? (s : List Char) : Option (List Char × List Char) :=
  match readDigits? s with
  | none => none
  | some (whole, '.' :: rest) =>
    match readDigits? rest with
    | some (fraction, rest) => some (whole ++ '.' :: fraction, rest)
    | none => some (whole, '.' :: rest)
  | some (whole, rest) => some (whole, rest)

/-- A number with an optional minus sign. -/
def readNumber? : List Char → Option (List Char × List Char)
  | '-' :: rest => (readUnsigned? rest).map fun (number, rest) => ('-' :: number, rest)
  | s => readUnsigned? s

/-- Further segments of a constant path. Every segment takes at least three characters, so `fuel`
may be the length of the text. -/
def readSegments : Nat → List Char → List Char × List Char
  | 0, s => ([], s)
  | fuel + 1, s =>
    match s with
    | ':' :: ':' :: rest =>
      match readIdent? rest with
      | some (ident, left) =>
        let (more, left) := readSegments fuel left
        (':' :: ':' :: ident ++ more, left)
      | none => ([], s)
    | _ => ([], s)

/-- A constant path: `A::B::C`. -/
def readPath? (s : List Char) : Option (List Char × List Char) :=
  (readIdent? s).map fun (ident, rest) =>
    let (more, rest) := readSegments rest.length rest
    (ident ++ more, rest)

/-- The name of a member: a duck type, a literal or a constant path. -/
def readName? (s : List Char) : Option (List Char × List Char) :=
  readDuck? s <|> readSymbol? s <|> readQuoted? s <|> readNumber? s <|> readPath? s

/-! ### Members -/

/-- The bracket style of a member's parameters, its keys and its values. -/
abbrev Params := BracketStyle × List Ty × List Ty

/-- Parameters are written as members, one for each. -/
def slots (ms : List Member) : List Ty :=
  ms.map Ty.single

mutual

/-- A member. Each reader that stands for a nested construct takes one step of `fuel`. -/
def readMember? : Nat → List Char → Option (Member × List Char)
  | 0, _ => none
  | fuel + 1, s =>
    let (marked, s) := match s with
      | ':' :: ':' :: rest => (true, skipGap rest)
      | _ => (false, s)
    match readName? s with
    | none => none
    | some (name, rest) =>
      match readParams? fuel (skipGap rest) with
      | some ((kind, keys, subs), left) =>
        some (.make (String.ofList name) marked kind keys subs, left)
      | none => some (.make (String.ofList name) marked .none [] [], rest)

/-- Parameters in brackets. -/
def readParams? : Nat → List Char → Option (Params × List Char)
  | 0, _ => none
  | fuel + 1, '<' :: rest =>
    let (subs, left) := (readMembers? fuel (skipGap rest)).getD ([], rest)
    match skipGap left with
    | '>' :: left => some ((.list, [], slots subs), left)
    | _ => none
  | fuel + 1, '(' :: rest =>
    let (subs, left) := (readMembers? fuel (skipGap rest)).getD ([], rest)
    match skipGap left with
    | ')' :: left => some ((.fixed, [], slots subs), left)
    | _ => none
  | fuel + 1, '{' :: rest =>
    match readMembers? fuel (skipGap rest) with
    | none => none
    | some (keys, left) =>
      match skipGap left with
      | '=' :: '>' :: left =>
        match readMembers? fuel (skipGap left) with
        | none => none
        | some (subs, left) =>
          match skipGap left with
          | '}' :: left => some ((.hash, slots keys, slots subs), left)
          | _ => none
      | _ => none
  | _ + 1, _ => none

/-- At least one member. -/
def readMembers? : Nat → List Char → Option (List Member × List Char)
  | 0, _ => none
  | fuel + 1, s =>
    match readMember? fuel s with
    | none => none
    | some (m, rest) =>
      let (ms, left) := readMore fuel rest
      some (m :: ms, left)

/-- Further members, each behind a comma. -/
def readMore : Nat → List Char → List Member × List Char
  | 0, s => ([], s)
  | fuel + 1, s =>
    match skipGap s with
    | ',' :: rest =>
      match readMember? fuel (skipGap rest) with
      | some (m, rest) =>
        let (ms, left) := readMore fuel rest
        (m :: ms, left)
      | none => ([], s)
    | _ => ([], s)

end

/-- A whole text as a list of members. A reader takes at most three steps of fuel for a
character. -/
def readAll? (s : List Char) : Option (List Member) :=
  match readMembers? (3 * s.length + 3) (skipGap s) with
  | some (ms, rest) => if (skipGap rest).isEmpty then some ms else none
  | none => none

end DuckInfer.TagGrammar

namespace DuckInfer.Ty

/-- The type that a tag spells, if it spells one. -/
def ofTag? (text : String) : Option Ty :=
  (TagGrammar.readAll? text.toList).map ofMembers

/-- The type that a tag spells; nothing is known about the type of any other text. -/
def ofTag (text : String) : Ty :=
  (ofTag? text).getD undefined

/-- The union of the types that several tags spell. -/
def ofTags (texts : List String) : Ty :=
  unionAll (texts.map ofTag)

end DuckInfer.Ty
