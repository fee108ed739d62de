/-!
Places in source files. Positions are ordered by line, then by column; a range includes both of its
ends.
-/

namespace DuckInfer

/-- Zero-based line and column. -/
structure Position where
  line : Nat
  column : Nat
  deriving DecidableEq, Ord, Repr

namespace Position

instance : LE Position :=
  ⟨fun a b => a.line < b.line ∨ (a.line = b.line ∧ a.column ≤ b.column)⟩

instance (a b : Position) : Decidable (a ≤ b) :=
  inferInstanceAs (Decidable (a.line < b.line ∨ (a.line = b.line ∧ a.column ≤ b.column)))

/-- One column to the left, but not out of the line. -/
def previousColumn (p : Position) : Position :=
  ⟨p.line, p.column - 1⟩

/-- `line:column` -/
def text (p : Position) : String :=
  toString p.line ++ ":" ++ toString p.column

theorem le_iff {a b : Position} :
    a ≤ b ↔ a.line < b.line ∨ (a.line = b.line ∧ a.column ≤ b.column) :=
  Iff.rfl

theorem le_refl (a : Position) : a ≤ a :=
  Or.inr ⟨rfl, Nat.le_refl _⟩

theorem le_trans {a b c : Position} (hab : a ≤ b) (hbc : b ≤ c) : a ≤ c := by
  simp only [le_iff] at *
  omega

theorem previousColumn_le (a : Position) : a.previousColumn ≤ a :=
  Or.inr ⟨rfl, Nat.sub_le _ _⟩

end Position

/-- A span of source text. Ranges are ordered by start, then by end. -/
structure Range where
  start : Position
  stop : Position
  deriving DecidableEq, Ord, Repr

namespace Range

def contains (r : Range) (p : Position) : Bool :=
  decide (r.start ≤ p) && decide (p ≤ r.stop)

/-- Both ends of the other range lie in the range. -/
def covers (r other : Range) : Bool :=
  r.contains other.start && r.contains other.stop

/-- `start-stop` -/
def text (r : Range) : String :=
  r.start.text ++ "-" ++ r.stop.text

/-- The range and the column right before it. -/
def withColumnBefore (r : Range) : Range :=
  ⟨r.start.previousColumn, r.stop⟩

end Range

/-- A range in a file. -/
structure Location where
  file : String
  range : Range
  deriving DecidableEq, Repr

namespace Location

/-- The other location lies in the same file within the range. -/
def contains (l other : Location) : Bool :=
  l.file == other.file && l.range.covers other.range

/-- `file:range` -/
def text (l : Location) : String :=
  l.file ++ ":" ++ l.range.text

end Location

/-- Where a variable lives. -/
inductive VariableKind where
  | localVar
  | instanceVar
  | classVar
  | globalVar
  deriving DecidableEq, Repr

/-- The kind that the sign in front of a name tells. -/
def VariableKind.ofName (name : String) : VariableKind :=
  match name.toList with
  | '@' :: '@' :: _ => .classVar
  | '@' :: _ => .instanceVar
  | '$' :: _ => .globalVar
  | _ => .localVar

end DuckInfer
