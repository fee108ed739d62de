import DuckInfer.Source.Node
import Mathlib.Data.List.Pairwise
import Mathlib.Order.Basic

/-!
Where statements stand in a text. A statement is laid out if it takes up some text, its parts stand
inside it and apart from each other, and parts that are not those of a conditional stand in the
order in which they run.
-/

namespace DuckInfer

/-! ### Positions and ranges -/

namespace Position

theorem le_antisymm {a b : Position} (left : a ≤ b) (right : b ≤ a) : a = b := by
  obtain ⟨line, column⟩ := a
  obtain ⟨line', column'⟩ := b
  simp only [le_iff, mk.injEq] at *
  omega

instance : PartialOrder Position where
  le_refl := le_refl
  le_trans _ _ _ := le_trans
  le_antisymm _ _ := le_antisymm

instance (a b : Position) : Decidable (a < b) :=
  inferInstanceAs (Decidable (a ≤ b ∧ ¬ b ≤ a))

theorem previousColumn_mono {a b : Position} (le : a ≤ b) :
    a.previousColumn ≤ b.previousColumn := by
  simp only [le_iff, previousColumn] at *
  omega

/-- Nothing stands between a position and the column before it. -/
theorem not_lt_of_previousColumn_le {a b c : Position} (before : c.previousColumn ≤ a)
    (between : a < b) : ¬ b < c := by
  intro after
  simp only [lt_iff_le_not_ge, le_iff, previousColumn] at *
  omega

end Position

namespace Range

/-- The range takes up some text. -/
def Spans (r : Range) : Prop :=
  r.start < r.stop

/-- One range ends before the other starts. -/
def Before (r s : Range) : Prop :=
  r.stop < s.start

/-- The ranges have no position in common. -/
def Apart (r s : Range) : Prop :=
  r.Before s ∨ s.Before r

instance (r : Range) : Decidable r.Spans :=
  inferInstanceAs (Decidable (r.start < r.stop))

instance (r s : Range) : Decidable (r.Before s) :=
  inferInstanceAs (Decidable (r.stop < s.start))

instance (r s : Range) : Decidable (r.Apart s) :=
  inferInstanceAs (Decidable (r.Before s ∨ s.Before r))

theorem Apart.symm {r s : Range} (apart : r.Apart s) : s.Apart r :=
  Or.symm apart

theorem Before.apart {r s : Range} (before : r.Before s) : r.Apart s :=
  Or.inl before

theorem covers_iff {r s : Range} :
    r.covers s = true ↔
      (r.start ≤ s.start ∧ s.start ≤ r.stop) ∧ r.start ≤ s.stop ∧ s.stop ≤ r.stop := by
  simp [covers, contains]

theorem covers_of_le {r s : Range} (spans : s.Spans) (start : r.start ≤ s.start)
    (stop : s.stop ≤ r.stop) : r.covers s = true :=
  covers_iff.mpr ⟨⟨start, spans.le.trans stop⟩, start.trans spans.le, stop⟩

theorem covers_refl {r : Range} (spans : r.Spans) : r.covers r = true :=
  covers_of_le spans (Position.le_refl _) (Position.le_refl _)

theorem covers_trans {r s t : Range} (outer : r.covers s = true) (inner : s.covers t = true) :
    r.covers t = true := by
  rw [covers_iff] at *
  obtain ⟨⟨start, _⟩, _, stop⟩ := outer
  obtain ⟨⟨first, second⟩, third, fourth⟩ := inner
  exact ⟨⟨start.trans first, second.trans stop⟩, start.trans third, fourth.trans stop⟩

theorem withColumnBefore_covers {r s : Range} (covers : r.covers s = true) :
    r.withColumnBefore.covers s.withColumnBefore = true := by
  rw [covers_iff] at *
  obtain ⟨⟨start, within⟩, after, stop⟩ := covers
  exact ⟨⟨Position.previousColumn_mono start, (Position.previousColumn_le _).trans within⟩,
    (Position.previousColumn_le _).trans after, stop⟩

/-- What stands apart from a range is not covered by anything in it. -/
theorem Apart.not_covers {r s t : Range} (apart : r.Apart s) (inner : s.covers t = true) :
    ¬ r.covers t = true := by
  intro covers
  rw [covers_iff] at *
  rcases apart with before | after
  · exact absurd (before.trans_le (inner.1.1.trans covers.1.2)) (lt_irrefl _)
  · exact absurd (after.trans_le (covers.1.1.trans inner.1.2)) (lt_irrefl _)

/-- What stands in a range stands apart from what the range stands apart from. -/
theorem Apart.mono {r s t : Range} (apart : r.Apart s) (inner : r.covers t = true) :
    s.Apart t := by
  rw [covers_iff] at inner
  rcases apart with before | after
  · exact Or.inr (inner.2.2.trans_lt before)
  · exact Or.inl (after.trans_le inner.1.1)

/-- The column before a range holds nothing that stands apart from the range. -/
theorem Apart.not_withColumnBefore_covers {r s : Range} (apart : r.Apart s) (spans : s.Spans) :
    ¬ r.withColumnBefore.covers s = true := by
  intro covers
  rw [covers_iff] at covers
  rcases apart with before | after
  · exact absurd (before.trans_le covers.1.2) (lt_irrefl _)
  · exact Position.not_lt_of_previousColumn_le covers.1.1 spans after

end Range

/-! ### Statements -/

namespace Node

/-- Induction on a statement, through its parts. -/
theorem induction {p : Node → Prop}
    (branch : ∀ condition thenPart elsePart range, p condition → (∀ n ∈ thenPart, p n) →
      (∀ n ∈ elsePart, p n) → p (.branch condition thenPart elsePart range))
    (loop : ∀ condition body range, (∀ n ∈ condition, p n) → p body →
      p (.loop condition body range))
    (and : ∀ lhs rhs range, p lhs → p rhs → p (.and lhs rhs range))
    (or : ∀ lhs rhs range, p lhs → p rhs → p (.or lhs rhs range))
    (not : ∀ operand range, p operand → p (.not operand range))
    (send : ∀ receiver method arguments range, (∀ n ∈ receiver, p n) → (∀ n ∈ arguments, p n) →
      p (.send receiver method arguments range))
    (var : ∀ kind name range, p (.var kind name range))
    (const : ∀ scope name range, (∀ n ∈ scope, p n) → p (.const scope name range))
    (leave : ∀ range, p (.leave range))
    (sequence : ∀ statements range, (∀ n ∈ statements, p n) → p (.sequence statements range))
    (other : ∀ range, p (.other range)) (n : Node) : p n :=
  @Node.rec p (fun part => ∀ n ∈ part, p n) (fun parts => ∀ n ∈ parts, p n)
    branch loop and or not send var const leave sequence other
    (fun _ none => by simp at none)
    (fun _ here n same => Option.some.inj same ▸ here)
    (fun _ none => absurd none List.not_mem_nil)
    (fun _ _ first rest n member => by
      rcases List.mem_cons.mp member with rfl | later
      · exact first
      · exact rest n later) n

/-- The parts of a statement, in the order in which they run. -/
def children : Node → List Node
  | branch condition thenPart elsePart _ => condition :: (thenPart.toList ++ elsePart.toList)
  | loop condition body _ => condition.toList ++ [body]
  | and lhs rhs _ | or lhs rhs _ => [lhs, rhs]
  | not operand _ => [operand]
  | send receiver _ arguments _ => receiver.toList ++ arguments
  | const scope _ _ => scope.toList
  | sequence statements _ => statements
  | var _ _ _ | leave _ | other _ => []

theorem sizeOf_child {n part : Node} (child : part ∈ n.children) : sizeOf part < sizeOf n := by
  have inOption : ∀ {o : Option Node}, part ∈ o.toList → sizeOf part < sizeOf o := by
    intro o member
    cases o with
    | none => exact absurd member List.not_mem_nil
    | some m =>
      rw [List.mem_singleton.mp member]
      simp
  cases n with
  | branch condition thenPart elsePart range =>
    simp only [children, List.mem_cons, List.mem_append] at child
    simp only [branch.sizeOf_spec]
    rcases child with rfl | inThen | inElse
    · omega
    · have := inOption inThen
      omega
    · have := inOption inElse
      omega
  | loop condition body range =>
    simp only [children, List.mem_append, List.mem_singleton] at child
    simp only [loop.sizeOf_spec]
    rcases child with inCondition | rfl
    · have := inOption inCondition
      omega
    · omega
  | and lhs rhs range | or lhs rhs range =>
    simp only [children, List.mem_cons, List.not_mem_nil, or_false] at child
    rcases child with rfl | rfl <;> simp <;> omega
  | not operand range =>
    rw [List.mem_singleton.mp child]
    simp only [not.sizeOf_spec]
    omega
  | send receiver method arguments range =>
    simp only [children, List.mem_append] at child
    simp only [send.sizeOf_spec]
    rcases child with inReceiver | inArguments
    · have := inOption inReceiver
      omega
    · have := List.sizeOf_lt_of_mem inArguments
      omega
  | const scope name range =>
    have := inOption child
    simp only [const.sizeOf_spec]
    omega
  | sequence statements range =>
    have : sizeOf part < sizeOf statements := List.sizeOf_lt_of_mem child
    simp only [sequence.sizeOf_spec]
    omega
  | var _ _ _ | leave _ | other _ => exact absurd child List.not_mem_nil

/-- The parts stand apart: those of a conditional in any order, as it may be written behind what it
governs, all others in the order in which they run. -/
def Arranged : Node → Prop
  | branch condition thenPart elsePart _ =>
    (condition :: (thenPart.toList ++ elsePart.toList)).Pairwise fun a b => a.range.Apart b.range
  | n => n.children.Pairwise fun a b => a.range.Before b.range

/-- The statement and all its parts take up some text, parts stand inside, and they are arranged. -/
inductive LaidOut : Node → Prop where
  | intro {n : Node} :
      n.range.Spans → (∀ part ∈ n.children, n.range.covers part.range = true) → n.Arranged →
      (∀ part ∈ n.children, part.LaidOut) → n.LaidOut

variable {n : Node}

theorem LaidOut.spans (laidOut : n.LaidOut) : n.range.Spans := by
  cases laidOut with
  | intro spans _ _ _ => exact spans

theorem LaidOut.covers (laidOut : n.LaidOut) :
    ∀ part ∈ n.children, n.range.covers part.range = true := by
  cases laidOut with
  | intro _ covers _ _ => exact covers

theorem LaidOut.arranged (laidOut : n.LaidOut) : n.Arranged := by
  cases laidOut with
  | intro _ _ arranged _ => exact arranged

theorem LaidOut.part (laidOut : n.LaidOut) : ∀ part ∈ n.children, part.LaidOut := by
  cases laidOut with
  | intro _ _ _ parts => exact parts

end Node

end DuckInfer
