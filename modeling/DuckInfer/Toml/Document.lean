import DuckInfer.Toml.Text
import DuckInfer.Toml.Value

/-!
Reading a TOML document: lines with a key and a value, or with the header of a table or of the next
table of an array. A document that is not well formed, that defines something twice or that is
nested too deep has no value.
-/

namespace DuckInfer.Toml

/-- How deep the brackets of values may be nested, and how many segments a key may have. -/
def maxNesting : Nat :=
  79

/-! ### Keys -/

/-- Characters of a key without quotes. -/
def isBareKeyChar (c : Char) : Bool :=
  c.isAlphanum || c == '-' || c == '_'

/-- One segment of a key. -/
def readSimpleKey? (s : List Char) : Option (String × List Char) :=
  match s with
  | '"' :: rest => (readBasic? s.length rest).map fun (key, rest) => (String.ofList key, rest)
  | '\'' :: rest => (readLiteral? rest).map fun (key, rest) => (String.ofList key, rest)
  | _ =>
    match s.takeWhile isBareKeyChar with
    | [] => none
    | key => some (String.ofList key, s.dropWhile isBareKeyChar)

/-- The segments of a key, as many as `room` at most, with the spaces around: the path to its last
segment, and that one. -/
def readSegments? : Nat → List Char → Option ((List String × String) × List Char)
  | 0, _ => none
  | room + 1, s => do
    let (first, rest) ← readSimpleKey? (skipSpace s)
    match skipSpace rest with
    | '.' :: rest =>
      let ((path, key), rest) ← readSegments? room rest
      return ((first :: path, key), rest)
    | rest => return (([], first), rest)

/-- A key as the path to it and its last segment. -/
def readKey? (s : List Char) : Option ((List String × String) × List Char) :=
  readSegments? maxNesting s

/-! ### Values -/

/-- Drops blanks, line ends and comments. -/
def skipFiller : Nat → List Char → List Char
  | 0, s => s
  | fuel + 1, s =>
    match skipLines s with
    | '#' :: rest =>
      let rest := rest.dropWhile isLineChar
      match newline? rest with
      | some rest => skipFiller fuel rest
      | none => rest
    | s => s

mutual

/-- A value whose brackets are nested `room` deep at most. -/
def readValue? : Nat → Nat → List Char → Option (Value × List Char)
  | 0, _, _ => none
  | fuel + 1, room, s =>
    match s, room with
    | '[' :: rest, room + 1 =>
      (readItems? fuel room rest).map fun (items, rest) => (.array items, rest)
    | '\x7b' :: rest, room + 1 =>
      match skipSpace rest with
      | '\x7d' :: rest => some (.table [], rest)
      | rest => (readPairs? fuel room .empty rest).map fun (t, rest) => (.table t.entries, rest)
    | s, _ =>
      match readText? s with
      | some (text, rest) => some (.string (String.ofList text), rest)
      | none => (readInteger? s).map fun (n, rest) => (.integer n, rest)

/-- The items of an array, up to its closing bracket. -/
def readItems? : Nat → Nat → List Char → Option (List Value × List Char)
  | 0, _, _ => none
  | fuel + 1, room, s =>
    match skipFiller s.length s with
    | ']' :: rest => some ([], rest)
    | s => do
      let (item, rest) ← readValue? fuel room s
      match skipFiller rest.length rest with
      | ']' :: rest => return ([item], rest)
      | ',' :: rest =>
        let (items, rest) ← readItems? fuel room rest
        return (item :: items, rest)
      | _ => none

/-- The entries of a table on one line, up to its closing brace. -/
def readPairs? : Nat → Nat → Table → List Char → Option (Table × List Char)
  | 0, _, _, _ => none
  | fuel + 1, room, t, s => do
    let ((path, key), rest) ← readKey? s
    match rest with
    | '=' :: rest =>
      let (value, rest) ← readValue? fuel room (skipSpace rest)
      let t ← t.insert path key value
      match skipSpace rest with
      | '\x7d' :: rest => return (t, rest)
      | ',' :: rest => readPairs? fuel room t rest
      | _ => none
    | _ => none

end

/-! ### Lines -/

/-- The rest behind the end of a line. -/
def lineEnd? (s : List Char) : Option (List Char) :=
  let s := match skipSpace s with
    | '#' :: rest => rest.dropWhile isLineChar
    | s => s
  if s.isEmpty then some [] else newline? s

/-- A document that is being read: the outermost table, and the path of the open one. -/
structure Draft where
  root : Table
  current : List String

namespace Draft

/-- Puts a value into the open table. -/
def insert (d : Draft) (path : List String) (key : String) (v : Value) : Option Draft :=
  (d.root.modifyAt false (fun t => t.insert path key v) d.current).map fun root =>
    { d with root }

/-- Opens another table. -/
def openWith (d : Draft) (f : String → Table → Option Table) (path : List String) (key : String) :
    Option Draft :=
  (d.root.modifyAt false (f key) path).map fun root => ⟨root, path ++ [key]⟩

end Draft

/-- The header of a table, behind its first bracket, or of the next table of an array. -/
def readHeader? (d : Draft) (s : List Char) : Option (Draft × List Char) :=
  match s with
  | '[' :: rest => do
    let ((path, key), rest) ← readKey? rest
    match rest with
    | ']' :: ']' :: rest => return (← d.openWith Table.pushTable path key, rest)
    | _ => none
  | _ => do
    let ((path, key), rest) ← readKey? s
    match rest with
    | ']' :: rest => return (← d.openWith Table.openTable path key, rest)
    | _ => none

/-- A key with its value. -/
def readEntry? (d : Draft) (s : List Char) : Option (Draft × List Char) := do
  let ((path, key), rest) ← readKey? s
  match rest with
  | '=' :: rest =>
    let (value, rest) ← readValue? (2 * rest.length + 2) maxNesting (skipSpace rest)
    return (← d.insert path key value, rest)
  | _ => none

/-- All lines. Every line takes a character, so `fuel` may be the length of the text plus one. -/
def readLines? : Nat → Draft → List Char → Option Draft
  | 0, _, _ => none
  | fuel + 1, d, s =>
    match skipSpace s with
    | [] => some d
    | c :: rest =>
      if c == '#' || c == '\n' || c == '\r' then
        (lineEnd? (c :: rest)).bind fun rest => readLines? fuel d rest
      else do
        let (d, rest) ← if c == '[' then readHeader? d rest else readEntry? d (c :: rest)
        let rest ← lineEnd? rest
        readLines? fuel d rest

/-- The text without a byte order mark in front. -/
def dropMark : List Char → List Char
  | '\uFEFF' :: rest => rest
  | s => s

/-- The entries of a document. -/
def ofText? (source : String) : Option (List Entry) :=
  let s := dropMark source.toList
  (readLines? (s.length + 1) ⟨.empty, []⟩ s).map fun d => d.root.entries

end DuckInfer.Toml
