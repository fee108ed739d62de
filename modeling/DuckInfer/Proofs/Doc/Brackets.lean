import DuckInfer.Proofs.Doc.Blocks
import DuckInfer.Proofs.Ty.Names

/-!
Tag lines with types between brackets. The end of the types is found by the brackets alone. Main
statements: a text between brackets is read to its end exactly if its own brackets are paired up;
and a single tag line is a comment with one tag.
-/

namespace DuckInfer.Doc

open Text TagGrammar

namespace TagLine

/-! ### Brackets -/

/-- Every bracket is closed, by the next closing bracket. -/
inductive PairedUp : List Char → Prop where
  | nil : PairedUp []
  | cons {c : Char} {s : List Char} : c ≠ '[' → c ≠ ']' → PairedUp s → PairedUp (c :: s)
  | pair {inner s : List Char} : ']' ∉ inner → PairedUp s → PairedUp ('[' :: inner ++ ']' :: s)

/-- An inner bracket ends at the next closing one. -/
theorem readBracketed?_inner {inner : List Char} (within : ']' ∉ inner) (s : List Char) :
    readBracketed? true (inner ++ ']' :: s) =
      (readBracketed? false s).map fun (text, left) => (inner ++ ']' :: text, left) := by
  induction inner with
  | nil => rfl
  | cons c inner ih =>
    obtain ⟨other, within⟩ := not_or.mp (List.mem_cons.not.mp within)
    have still : (c != ']') = true := by simpa using Ne.symm other
    rw [List.cons_append, readBracketed?]
    simp only [Bool.not_true, Bool.false_and, Bool.false_eq_true, if_false, if_true, still,
      ih within, Option.map_map]
    rfl

theorem PairedUp.readBracketed? {s : List Char} (paired : PairedUp s) (rest : List Char) :
    readBracketed? false (s ++ ']' :: rest) = some (s, rest) := by
  induction paired with
  | nil => rfl
  | @cons c s opens closes _ ih =>
    have outer : (c == '[') = false ∧ (c == ']') = false := by simp [opens, closes]
    rw [List.cons_append, TagLine.readBracketed?]
    simp [outer.1, outer.2, ih]
  | @pair inner s within _ ih =>
    have opened : TagLine.readBracketed? false ('[' :: inner ++ ']' :: s ++ ']' :: rest) =
        (TagLine.readBracketed? true (inner ++ ']' :: (s ++ ']' :: rest))).map
          fun (text, left) => ('[' :: text, left) := by
      rw [List.cons_append, List.cons_append, List.append_assoc, List.cons_append,
        TagLine.readBracketed?]
      rfl
    rw [opened, readBracketed?_inner within, ih]
    rfl

/-- What stands before the closing bracket is paired up, from the next closing bracket on if one is
open already. -/
theorem pairedUp_of_readBracketed? {s : List Char} : ∀ {inner : Bool} {text rest : List Char},
    readBracketed? inner s = some (text, rest) →
      if inner then ∃ front back, text = front ++ ']' :: back ∧ ']' ∉ front ∧ PairedUp back
      else PairedUp text := by
  induction s with
  | nil =>
    intro inner text rest read
    cases read
  | cons c s ih =>
    intro inner text rest read
    rw [readBracketed?] at read
    split at read
    · rename_i closes
      cases read
      cases inner with
      | true => simp at closes
      | false => exact .nil
    · rename_i goesOn
      obtain ⟨⟨text, left⟩, found, same⟩ := Option.map_eq_some_iff.mp read
      cases same
      have later := ih found
      cases inner with
      | true =>
        by_cases closes : c = ']'
        · subst closes
          exact ⟨[], text, rfl, List.not_mem_nil, later⟩
        · simp only [if_true, bne_iff_ne, ne_eq, closes, not_false_eq_true] at later
          obtain ⟨front, back, rfl, within, paired⟩ := later
          refine ⟨c :: front, back, rfl, ?_, paired⟩
          rw [List.mem_cons, not_or]
          exact ⟨Ne.symm closes, within⟩
      | false =>
        have other : c ≠ ']' := by simpa using goesOn
        by_cases opens : c = '['
        · subst opens
          obtain ⟨front, back, rfl, within, paired⟩ := later
          exact .pair within paired
        · simp only [Bool.false_eq_true, if_false, beq_iff_eq, opens] at later
          exact .cons opens other later

theorem pairedUp_iff {s : List Char} :
    PairedUp s ↔ readBracketed? false (s ++ [']']) = some (s, []) :=
  ⟨fun paired => paired.readBracketed? [], fun read => pairedUp_of_readBracketed? read⟩

instance : DecidablePred PairedUp :=
  fun _ => decidable_of_iff _ pairedUp_iff.symm

theorem PairedUp.append {s t : List Char} (paired : PairedUp s) (paired' : PairedUp t) :
    PairedUp (s ++ t) := by
  induction paired with
  | nil => exact paired'
  | cons opens closes _ ih => exact .cons opens closes ih
  | pair within _ ih =>
    rw [List.append_assoc, List.cons_append]
    exact .pair within ih

theorem pairedUp_of_plain {s : List Char} (plain : ∀ c ∈ s, c ≠ '[' ∧ c ≠ ']') : PairedUp s := by
  induction s with
  | nil => exact .nil
  | cons c s ih =>
    obtain ⟨⟨opens, closes⟩, plain⟩ := List.forall_mem_cons.mp plain
    exact .cons opens closes (ih plain)

/-! ### The types of a tag line -/

/-- The types are a part of the line. -/
theorem mem_of_mem_types {line : List Char} {tag : TagLine} (read : TagLine.ofLine line = .ok tag)
    {types : String} (spelled : tag.types = some types) {c : Char} (member : c ∈ types.toList) :
    c ∈ line := by
  obtain ⟨directive, name, s, whole, rfl⟩ := ofLine_cases read
  have behind : ∀ c ∈ (readWord? s).elim s Prod.snd, c ∈ s := by
    cases word : readWord? s with
    | none => exact fun _ member => member
    | some found =>
      unfold readWord? at word
      split at word
      · cases word
      · dsimp only at word
        split at word
        · cases word
          exact fun c member =>
            (List.dropWhile_sublist _).subset ((List.dropWhile_sublist _).subset member)
        · cases word
  rw [ofParts_eq] at spelled
  obtain ⟨⟨inside, left⟩, found, rfl⟩ := Option.map_eq_some_iff.mp spelled
  rw [String.toList_ofList] at member
  unfold readTypes? at found
  split at found
  · rename_i rest opened
    have listed : c ∈ rest := by
      rw [← readBracketed?_whole found]
      exact List.mem_append_left _ ((trim_sublist inside).subset member)
    have within : c ∈ s := behind c ((List.dropWhile_sublist isSpace).subset
      (opened ▸ List.mem_cons_of_mem _ listed))
    refine (trim_sublist line).subset (whole ▸ ?_)
    exact List.mem_cons_of_mem _ (List.mem_append_right _ within)
  · cases found

/-! ### Lines that end with types -/

/-- The end of a line with types between brackets. -/
def typesEnd (s : List Char) : List Char :=
  ' ' :: '[' :: (s ++ [']'])

/-- A tag line that ends with types. In front of them a word may stand. -/
def typesLine (name front s : List Char) : List Char :=
  '@' :: name ++ (front ++ typesEnd s)

theorem readTypes?_typesEnd (s : List Char) :
    readTypes? (typesEnd s) = readBracketed? false (s ++ [']']) :=
  rfl

/-- Types whose brackets are paired up are read whatever stands behind them. -/
theorem PairedUp.readTypes?_typesEnd {types : List Char} (paired : PairedUp types)
    (rest : List Char) : readTypes? (typesEnd types ++ rest) = some (types, rest) := by
  have whole : readTypes? (typesEnd types ++ rest) =
      TagLine.readBracketed? false (types ++ ']' :: rest) := by
    rw [typesEnd, List.cons_append, List.cons_append, List.append_assoc]
    rfl
  rw [whole, paired.readBracketed?]

theorem firm_typesLine (name front s : List Char) : Firm (typesLine name front s) :=
  ⟨⟨'@', _, rfl, by decide⟩, '@' :: name ++ (front ++ ' ' :: '[' :: s), ']',
    by simp [typesLine, typesEnd], by decide⟩

/-- A line is taken apart behind the name of its tag. -/
theorem ofLine_of_trim {line name s : List Char}
    (named : (name.head?.any isNameStart && name.tail.all isNameRest) = true)
    (ends : ∀ c ∈ s.head?, isNameRest c = false) (whole : trim line = '@' :: name ++ s) :
    TagLine.ofLine line = .ok (ofParts false name s) := by
  cases name with
  | nil => exact absurd named Bool.false_ne_true
  | cons c name =>
    have start : isNameStart c = true := (Bool.and_eq_true_iff.mp named).1
    have rest : name.all isNameRest = true := (Bool.and_eq_true_iff.mp named).2
    have other : c ≠ '!' := by
      rintro rfl
      exact absurd start (by decide)
    obtain ⟨taken, dropped⟩ := span_append rest ends
    have opened : trim line = '@' :: c :: (name ++ s) := whole
    unfold TagLine.ofLine
    rw [opened]
    split
    · rename_i left same
      cases same
      split
      rename_i directive
      split at directive
      · rename_i same
        exact absurd (List.cons.inj same).1 other
      · cases directive
        dsimp only
        rw [if_pos start, taken, dropped]
    · rename_i closed
      exact absurd rfl (closed _)

theorem ofLine_typesLine {name front : List Char}
    (named : (name.head?.any isNameStart && name.tail.all isNameRest) = true)
    (ends : ∀ c ∈ front.head?, isNameRest c = false) (s : List Char) :
    TagLine.ofLine (typesLine name front s) = .ok (ofParts false name (front ++ typesEnd s)) := by
  refine ofLine_of_trim named ?_ (firm_typesLine name front s).trim_eq
  cases front with
  | nil =>
    intro d first
    exact Option.some.inj first ▸ (by decide)
  | cons d front => exact ends

/-- A word that stands in front of a bracket. -/
theorem readWord?_bracket {word : List Char} (some : word ≠ []) (all : word.all isWordChar = true)
    (s : List Char) :
    readWord? (' ' :: word ++ (' ' :: '[' :: s)) = .some (word, ' ' :: '[' :: s) := by
  have front : (' ' :: word ++ (' ' :: '[' :: s)).dropWhile isSpace = word ++ ' ' :: '[' :: s := by
    obtain ⟨c, more, rfl⟩ := List.exists_cons_of_ne_nil some
    have solid : isSpace c = false := by
      rw [← Bool.not_eq_true]
      intro space
      have member := List.all_eq_true.mp all c List.mem_cons_self
      simp only [isSpace, Bool.or_eq_true, beq_iff_eq] at space
      rcases space with rfl | rfl
      · exact absurd member (by decide)
      · exact absurd member (by decide)
    show (c :: (more ++ ' ' :: '[' :: s)).dropWhile isSpace = _
    rw [List.dropWhile_cons_of_neg (by simp [solid])]
    rfl
  have ends : ∀ c ∈ (' ' :: '[' :: s).head?, isWordChar c = false := by
    intro c first
    exact Option.some.inj first ▸ (by decide)
  obtain ⟨taken, dropped⟩ := span_append all ends
  have ready : (!word.isEmpty &&
      ((' ' :: '[' :: s).dropWhile isSpace).head? == .some '[') = true := by
    simpa [isSpace] using some
  unfold readWord?
  simp only [front, taken, dropped, ready, if_true]
  rfl

end TagLine

namespace DocComment

/-! ### Comments of one line -/

/-- A single tag line is a comment with one tag. -/
theorem tags_of_line {line : List Char} {tag : TagLine} (single : '\n' ∉ line)
    (read : TagLine.ofLine line = .ok tag) (plain : tag.directive = false) :
    (ofText (String.ofList line)).tags = [tagOf ⟨tag, indent line, []⟩] := by
  have some : line ≠ [] := by
    rintro rfl
    cases read
  have opened : TagBlock.ofLine? line = .some ⟨tag, indent line, []⟩ := by
    rw [TagBlock.ofLine?, read]
  have alone : blocks (String.ofList line) = [.tagged ⟨tag, indent line, []⟩] := by
    rw [blocks, String.toList_ofList, lines_of_newline_not_mem single some, blocksFrom]
    simp only [Option.filter_none, Option.map_none, Option.toList_none, List.nil_append, opened]
    rfl
  rw [ofText, ofBlocks, alone]
  simp [tag?, plain]

end DocComment

end DuckInfer.Doc
