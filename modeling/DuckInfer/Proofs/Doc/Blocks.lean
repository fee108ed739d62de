import DuckInfer.Doc.Comment
import DuckInfer.Proofs.Text.Visible

/-!
The lines of a documentation comment and the blocks that they are divided into. Main statements:
every line belongs to exactly one block, as a line of its own, as the header of a tag or as one of
the lines that continue it; and a header is taken apart without a loss but of blanks.
-/

namespace DuckInfer.Doc

open Text

/-! ### Headers -/

namespace TagLine

/-- The parts of a tag line, in the order in which they are written. -/
def spelled (line : TagLine) : List Char :=
  '@' :: ((if line.directive then ['!'] else []) ++ line.name.toList ++
    (line.leadingWord.getD "").toList ++
    (line.types.map fun types => '[' :: types.toList ++ [']']).getD [] ++ line.text.toList)

theorem isBlank_of_isSpace {c : Char} (space : isSpace c = true) : isBlank c = true := by
  unfold isSpace at space
  rcases Bool.or_eq_true_iff.mp space with same | same <;>
    (rw [beq_iff_eq] at same; subst same; decide)

theorem visible_dropSpaces (s : List Char) : visible (s.dropWhile isSpace) = visible s :=
  visible_dropWhile (fun _ => isBlank_of_isSpace) s

theorem visible_of_readWord? {s word rest : List Char} (read : readWord? s = some (word, rest)) :
    visible s = visible word ++ visible rest := by
  unfold readWord? at read
  split at read
  · cases read
  · dsimp only at read
    split at read
    · cases read
      rw [← visible_append, List.takeWhile_append_dropWhile, visible_dropSpaces]
    · cases read

theorem readBracketed?_whole {s text rest : List Char} {inner : Bool}
    (read : readBracketed? inner s = some (text, rest)) : text ++ ']' :: rest = s := by
  induction s generalizing inner text with
  | nil => cases read
  | cons c s ih =>
    rw [readBracketed?] at read
    split at read
    · rename_i closes
      simp only [Bool.and_eq_true, beq_iff_eq] at closes
      cases read
      rw [List.nil_append, closes.2]
    · obtain ⟨⟨front, left⟩, found, same⟩ := Option.map_eq_some_iff.mp read
      cases same
      rw [List.cons_append, ih found]

theorem visible_of_readTypes? {s types rest : List Char}
    (read : readTypes? s = some (types, rest)) :
    visible s = visible ('[' :: types ++ [']']) ++ visible rest := by
  unfold readTypes? at read
  split at read
  · rename_i inside opened
    have whole := readBracketed?_whole read
    rw [← visible_dropSpaces, opened, ← whole, ← visible_append]
    simp
  · cases read

/-- The parts behind the name, one reader after the other. -/
theorem ofParts_eq (directive : Bool) (name s : List Char) :
    ofParts directive name s =
      let rest := (readWord? s).elim s Prod.snd
      { directive
        name := String.ofList name
        leadingWord := (readWord? s).map fun found => String.ofList found.1
        types := (readTypes? rest).map fun found => String.ofList (trim found.1)
        text := String.ofList (trim ((readTypes? rest).elim rest Prod.snd)) } := by
  unfold ofParts
  cases readWord? s with
  | none =>
    dsimp only [Option.elim_none]
    cases readTypes? s <;> rfl
  | some found =>
    dsimp only [Option.elim_some]
    cases readTypes? found.2 <;> rfl

/-- The parts behind the name hold the visible characters of the text behind the name. -/
theorem visible_spelled_ofParts (directive : Bool) (name s : List Char) :
    visible (ofParts directive name s).spelled =
      visible ('@' :: ((if directive then ['!'] else []) ++ name ++ s)) := by
  have word : visible s = visible ((readWord? s).elim [] Prod.fst) ++
      visible ((readWord? s).elim s Prod.snd) := by
    cases read : readWord? s with
    | none => rfl
    | some found => exact visible_of_readWord? read
  have types : ∀ rest : List Char, visible rest =
      visible ((readTypes? rest).elim [] fun found => '[' :: found.1 ++ [']']) ++
        visible ((readTypes? rest).elim rest Prod.snd) := by
    intro rest
    cases read : readTypes? rest with
    | none => rfl
    | some found => exact visible_of_readTypes? read
  have shownWord : (((readWord? s).map fun found => String.ofList found.1).getD "").toList =
      (readWord? s).elim [] Prod.fst := by
    cases readWord? s <;> simp
  have shownTypes : ∀ rest : List Char,
      visible ((((readTypes? rest).map fun found => String.ofList (trim found.1)).map
        fun types => '[' :: types.toList ++ [']']).getD []) =
      visible ((readTypes? rest).elim [] fun found => '[' :: found.1 ++ [']']) := by
    intro rest
    cases readTypes? rest with
    | none => rfl
    | some found =>
      have inside : ∀ types : List Char, visible ('[' :: types ++ [']']) =
          visible ['['] ++ visible types ++ visible [']'] := by
        intro types
        rw [← visible_append, ← visible_append]
        rfl
      simp only [Option.map_some, Option.getD_some, Option.elim_some, String.toList_ofList, inside,
        visible_trim]
  rw [ofParts_eq, spelled, ← List.singleton_append, ← List.singleton_append (l := _ ++ s)]
  simp only [visible_append, String.toList_ofList, visible_trim, shownWord, shownTypes,
    List.append_assoc]
  rw [← types, ← word]

/-- A tag line is made of the marker, a name and the parts behind it. -/
theorem ofLine_cases {line : List Char} {tag : TagLine} (read : TagLine.ofLine line = .ok tag) :
    ∃ directive name s, trim line = '@' :: ((if directive then ['!'] else []) ++ name ++ s) ∧
      tag = ofParts directive name s := by
  unfold TagLine.ofLine at read
  split at read
  · rename_i rest opened
    dsimp only at read
    split at read
    · cases read
    · rename_i c left begun
      split at read
      · cases read
        refine ⟨_, _, _, ?_, rfl⟩
        rw [opened, List.append_assoc, List.cons_append, List.takeWhile_append_dropWhile, ← begun]
        split <;> rfl
      · cases read
  · cases read

/-- A tag line is taken apart without a loss but of blanks. -/
theorem visible_spelled_ofLine {line : List Char} {tag : TagLine}
    (read : TagLine.ofLine line = .ok tag) : visible tag.spelled = visible line := by
  obtain ⟨directive, name, s, whole, rfl⟩ := ofLine_cases read
  rw [visible_spelled_ofParts, ← whole, visible_trim]

end TagLine

namespace DocComment

/-! ### Blocks -/

/-- The division of lines into blocks. A line that is no tag line stands alone; a tag line takes the
lines behind it, up to the first that does not continue it. -/
inductive Divides : List (List Char) → List Block → Prop where
  | nil : Divides [] []
  | plain {line : List Char} {lines : List (List Char)} {blocks : List Block} :
      TagBlock.ofLine? line = none → Divides lines blocks →
        Divides (line :: lines) (.plain line :: blocks)
  | tagged {header : List Char} {own lines : List (List Char)} {blocks : List Block}
      {block : TagBlock} : TagBlock.ofLine? header = some block →
        (∀ line ∈ own, block.continues line = true) →
        (∀ line ∈ lines.head?, block.continues line = false) → Divides lines blocks →
        Divides (header :: own ++ lines) (.tagged { block with continuation := own } :: blocks)

theorem ofLine?_eq_some {line : List Char} {block : TagBlock}
    (opened : TagBlock.ofLine? line = some block) :
    TagLine.ofLine line = .ok block.line ∧ block.continuation = [] := by
  unfold TagBlock.ofLine? at opened
  split at opened
  · rename_i read
    cases opened
    exact ⟨read, rfl⟩
  · cases opened

/-- An open block takes all lines up to the first that does not continue it. -/
theorem blocksFrom_some (lines : List (List Char)) : ∀ block : TagBlock,
    blocksFrom (some block) lines =
      .tagged { block with
        continuation := block.continuation ++ lines.takeWhile block.continues } ::
        blocksFrom none (lines.dropWhile block.continues) := by
  induction lines with
  | nil =>
    intro block
    simp [blocksFrom]
  | cons line lines ih =>
    intro block
    cases continued : block.continues line with
    | true =>
      have kept : (some block).filter (·.continues line) = some block :=
        Option.filter_some_pos continued
      rw [blocksFrom, kept, List.takeWhile_cons_of_pos continued,
        List.dropWhile_cons_of_pos continued, List.append_cons]
      exact ih (block.push line)
    | false =>
      have closed : (some block).filter (·.continues line) = none :=
        Option.filter_some_neg (by simp [continued])
      rw [blocksFrom, closed, List.takeWhile_cons_of_neg (by simp [continued]),
        List.dropWhile_cons_of_neg (by simp [continued]), List.append_nil]
      rfl

/-- Each line goes to one block, whatever the lines are. -/
theorem divides_blocksFrom (lines : List (List Char)) : Divides lines (blocksFrom none lines) := by
  match lines with
  | [] => exact .nil
  | line :: lines =>
    rw [blocksFrom]
    cases opened : TagBlock.ofLine? line with
    | none => exact .plain opened (divides_blocksFrom lines)
    | some block =>
      have shorter := (List.dropWhile_suffix block.continues (l := lines)).length_le
      have rest := divides_blocksFrom (lines.dropWhile block.continues)
      have stop : ∀ next ∈ (lines.dropWhile block.continues).head?,
          block.continues next = false := by
        intro next first
        have left := List.head?_dropWhile_not block.continues lines
        rw [Option.mem_def] at first
        rw [first] at left
        simpa using left
      have own : ∀ next ∈ lines.takeWhile block.continues, block.continues next = true :=
        fun next member => List.mem_takeWhile_imp member
      have divided := Divides.tagged opened own stop rest
      rw [List.cons_append, List.takeWhile_append_dropWhile] at divided
      show Divides (line :: lines) (blocksFrom (some block) lines)
      rw [blocksFrom_some, (ofLine?_eq_some opened).2, List.nil_append]
      exact divided
termination_by lines.length

end DocComment

end DuckInfer.Doc
