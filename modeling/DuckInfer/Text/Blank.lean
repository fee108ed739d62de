/-!
Blank characters: the Unicode property `White_Space`, and the cuts of a text that depend on it.
-/

namespace DuckInfer.Text

/-- The characters with the Unicode property `White_Space`. -/
def isBlank (c : Char) : Bool :=
  let n := c.toNat
  (9 ≤ n && n ≤ 13) || n == 0x20 || n == 0x85 || n == 0xA0 || n == 0x1680 ||
    (0x2000 ≤ n && n ≤ 0x200A) || n == 0x2028 || n == 0x2029 || n == 0x202F ||
    n == 0x205F || n == 0x3000

/-- Drops the blanks in front. -/
def trimLeft (s : List Char) : List Char :=
  s.dropWhile isBlank

/-- Drops the blanks at the end. -/
def trimRight (s : List Char) : List Char :=
  (s.reverse.dropWhile isBlank).reverse

def trim (s : List Char) : List Char :=
  trimRight (trimLeft s)

/-- The first run of characters that are not blank. -/
def firstWord? (s : List Char) : Option (List Char) :=
  match (trimLeft s).takeWhile (!isBlank ·) with
  | [] => none
  | word => some word

/-- The text before the first blank and the trimmed text after it; without a blank the second part
is empty. -/
def cutAtBlank (s : List Char) : List Char × List Char :=
  (s.takeWhile (!isBlank ·), trim (s.dropWhile (!isBlank ·)))

/-- Size of a text in UTF-8 bytes. -/
def byteSize : List Char → Nat
  | [] => 0
  | c :: s => c.utf8Size + byteSize s

/-- Drops `n` UTF-8 bytes. Nothing is left of a text that is shorter or whose characters do not end
there. -/
def dropBytes : Nat → List Char → List Char
  | 0, s => s
  | _ + 1, [] => []
  | n + 1, c :: rest => if c.utf8Size ≤ n + 1 then dropBytes (n + 1 - c.utf8Size) rest else []

/-- A finished line, given in reverse: a carriage return right before the line feed is part of the
line end. -/
def closeLine : List Char → List Char
  | '\r' :: rest => rest.reverse
  | reversed => reversed.reverse

/-- The lines of a text whose current line, in reverse, is `current`. A last line without a line
feed keeps its carriage return. -/
def linesFrom (current : List Char) : List Char → List (List Char)
  | [] => if current.isEmpty then [] else [current.reverse]
  | '\n' :: rest => closeLine current :: linesFrom [] rest
  | c :: rest => linesFrom (c :: current) rest

/-- The lines of a text, without their ends. An empty last line does not count. -/
def lines (s : List Char) : List (List Char) :=
  linesFrom [] s

end DuckInfer.Text
