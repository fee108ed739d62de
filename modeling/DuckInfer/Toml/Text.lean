/-!
The quoted texts and the numbers of a TOML document. Every reader returns what it read and the rest
of the text.
-/

namespace DuckInfer.Toml

/-- Drops spaces and tabs. -/
def skipSpace (s : List Char) : List Char :=
  s.dropWhile fun c => c == ' ' || c == '\t'

/-- Characters that may stand in a comment or, less the quotes, in a text of one line. -/
def isLineChar (c : Char) : Bool :=
  c == '\t' || (0x20 ≤ c.toNat && c.toNat ≠ 0x7F)

/-- The rest behind a line feed, which may follow a carriage return. -/
def newline? : List Char → Option (List Char)
  | '\n' :: rest => some rest
  | '\r' :: '\n' :: rest => some rest
  | _ => none

/-! ### Escapes -/

/-- The value of a hexadecimal digit. -/
def hexDigit? (c : Char) : Option Nat :=
  if c.isDigit then some (c.toNat - '0'.toNat)
  else if 'a' ≤ c ∧ c ≤ 'f' then some (c.toNat - 'a'.toNat + 10)
  else if 'A' ≤ c ∧ c ≤ 'F' then some (c.toNat - 'A'.toNat + 10)
  else none

/-- The number that hexadecimal digits spell. -/
def hexNumber? (digits : List Char) : Option Nat :=
  digits.foldlM (fun n c => (hexDigit? c).map fun d => 16 * n + d) 0

/-- The character of a code point, if there is one. -/
def scalar? (n : Nat) : Option Char :=
  if h : n.isValidChar then some (Char.ofNatAux n h) else none

/-- A character given by some hexadecimal digits. -/
def readCodePoint? (count : Nat) (s : List Char) : Option (Char × List Char) :=
  if (s.take count).length = count then
    ((hexNumber? (s.take count)).bind scalar?).map fun c => (c, s.drop count)
  else none

/-- What follows a backslash. -/
def readEscape? : List Char → Option (Char × List Char)
  | 'b' :: rest => some ('\x08', rest)
  | 't' :: rest => some ('\t', rest)
  | 'n' :: rest => some ('\n', rest)
  | 'f' :: rest => some ('\x0c', rest)
  | 'r' :: rest => some ('\r', rest)
  | '"' :: rest => some ('"', rest)
  | '\\' :: rest => some ('\\', rest)
  | 'u' :: rest => readCodePoint? 4 rest
  | 'U' :: rest => readCodePoint? 8 rest
  | _ => none

/-! ### Texts of one line -/

/-- The rest of a basic text, behind its opening quote. Every step takes a character, so `fuel` may
be the length of the text. -/
def readBasic? : Nat → List Char → Option (List Char × List Char)
  | 0, _ => none
  | _ + 1, [] => none
  | _ + 1, '"' :: rest => some ([], rest)
  | fuel + 1, '\\' :: rest => do
    let (c, rest) ← readEscape? rest
    let (text, rest) ← readBasic? fuel rest
    return (c :: text, rest)
  | fuel + 1, c :: rest =>
    if isLineChar c then (readBasic? fuel rest).map fun (text, rest) => (c :: text, rest) else none

/-- The rest of a literal text, behind its opening quote. -/
def readLiteral? (s : List Char) : Option (List Char × List Char) :=
  let text := s.takeWhile fun c => c != '\'' && isLineChar c
  match s.drop text.length with
  | '\'' :: rest => some (text, rest)
  | _ => none

/-! ### Texts of several lines -/

/-- Drops blanks and line ends. -/
def skipLines : List Char → List Char
  | ' ' :: rest => skipLines rest
  | '\t' :: rest => skipLines rest
  | '\n' :: rest => skipLines rest
  | '\r' :: '\n' :: rest => skipLines rest
  | s => s

/-- Three quotes or more end a text, and up to two of those in front belong to it. -/
def closing? (quote : Char) (s : List Char) : Option (List Char × List Char) :=
  let quotes := (s.takeWhile (· == quote)).length
  if quotes < 3 then none
  else
    let own := min (quotes - 3) 2
    some (List.replicate own quote, s.drop (own + 3))

/-- The rest of a basic text of several lines. A backslash at the end of a line joins it with the
next visible character. -/
def readBasicLines? : Nat → List Char → Option (List Char × List Char)
  | 0, _ => none
  | _ + 1, [] => none
  | fuel + 1, c :: rest =>
    match closing? '"' (c :: rest) with
    | some closed => some closed
    | none =>
      if c == '\\' then
        match newline? (skipSpace rest) with
        | some rest => readBasicLines? fuel (skipLines rest)
        | none => do
          let (c, rest) ← readEscape? rest
          let (text, rest) ← readBasicLines? fuel rest
          return (c :: text, rest)
      else
        match newline? (c :: rest) with
        | some rest => (readBasicLines? fuel rest).map fun (text, rest) => ('\n' :: text, rest)
        | none =>
          if isLineChar c then
            (readBasicLines? fuel rest).map fun (text, rest) => (c :: text, rest)
          else none

/-- The rest of a literal text of several lines. -/
def readLiteralLines? : Nat → List Char → Option (List Char × List Char)
  | 0, _ => none
  | _ + 1, [] => none
  | fuel + 1, c :: rest =>
    match closing? '\'' (c :: rest) with
    | some closed => some closed
    | none =>
      match newline? (c :: rest) with
      | some rest => (readLiteralLines? fuel rest).map fun (text, rest) => ('\n' :: text, rest)
      | none =>
        if isLineChar c then
          (readLiteralLines? fuel rest).map fun (text, rest) => (c :: text, rest)
        else none

/-- The text without a line end in front. -/
def dropNewline (s : List Char) : List Char :=
  (newline? s).getD s

/-- A quoted text of any kind. -/
def readText? (s : List Char) : Option (List Char × List Char) :=
  match s with
  | '"' :: '"' :: '"' :: rest => readBasicLines? s.length (dropNewline rest)
  | '\'' :: '\'' :: '\'' :: rest => readLiteralLines? s.length (dropNewline rest)
  | '"' :: rest => readBasic? s.length rest
  | '\'' :: rest => readLiteral? rest
  | _ => none

/-! ### Integers -/

/-- The value of a digit to some base. -/
def digit? (base : Nat) (c : Char) : Option Nat :=
  (hexDigit? c).filter (· < base)

/-- Further digits, each possibly behind an underscore, added to a number. -/
def readDigits (base n : Nat) : List Char → Nat × List Char
  | [] => (n, [])
  | '_' :: c :: rest =>
    match digit? base c with
    | some d => readDigits base (base * n + d) rest
    | none => (n, '_' :: c :: rest)
  | c :: rest =>
    match digit? base c with
    | some d => readDigits base (base * n + d) rest
    | none => (n, c :: rest)

/-- At least one digit. -/
def readNumber? (base : Nat) : List Char → Option (Nat × List Char)
  | [] => none
  | c :: rest => (digit? base c).map fun d => readDigits base d rest

/-- A decimal number without zeros in front. -/
def readDecimal? : List Char → Option (Nat × List Char)
  | '0' :: rest => some (0, rest)
  | s => readNumber? 10 s

/-- The least and the greatest integer have 64 bits. -/
def inRange (n : Int) : Bool :=
  -9223372036854775808 ≤ n && n ≤ 9223372036854775807

/-- An integer of any spelling. -/
def readInteger? (s : List Char) : Option (Int × List Char) := do
  let (n, rest) ← match s with
    | '0' :: 'x' :: rest => (readNumber? 16 rest).map fun (n, rest) => ((n : Int), rest)
    | '0' :: 'o' :: rest => (readNumber? 8 rest).map fun (n, rest) => ((n : Int), rest)
    | '0' :: 'b' :: rest => (readNumber? 2 rest).map fun (n, rest) => ((n : Int), rest)
    | '+' :: rest => (readDecimal? rest).map fun (n, rest) => ((n : Int), rest)
    | '-' :: rest => (readDecimal? rest).map fun (n, rest) => (-(n : Int), rest)
    | s => (readDecimal? s).map fun (n, rest) => ((n : Int), rest)
  if inRange n then some (n, rest) else none

end DuckInfer.Toml
