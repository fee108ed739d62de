import DuckInfer.Text.Blank
import Mathlib.Data.List.TakeWhile

/-!
The visible characters of a text, its lines, and texts that are cut behind a number of bytes. Main
statements: trimming and joining change no visible characters; a text is blank, or a firm text is
what trimming leaves of it; no line feed stands in a line; and cutting a text off behind a number of
bytes leaves what is behind them if a character ends there, and otherwise nothing.
-/

namespace DuckInfer.Text

/-! ### Visible characters -/

/-- The characters of a text that are not blank. -/
def visible (s : List Char) : List Char :=
  s.filter (!isBlank ·)

theorem visible_append (s t : List Char) : visible (s ++ t) = visible s ++ visible t :=
  List.filter_append s t

theorem visible_cons_of_blank {c : Char} (blank : isBlank c = true) (s : List Char) :
    visible (c :: s) = visible s :=
  List.filter_cons_of_neg (by simp [blank])

theorem visible_eq_nil_iff {s : List Char} : visible s = [] ↔ s.all isBlank = true := by
  simp [visible, List.filter_eq_nil_iff, List.all_eq_true]

theorem visible_takeWhile {p : Char → Bool} (blank : ∀ c, p c = true → isBlank c = true)
    (s : List Char) : visible (s.takeWhile p) = [] :=
  visible_eq_nil_iff.mpr (List.all_eq_true.mpr fun c member =>
    blank c (List.mem_takeWhile_imp member))

/-- Dropping blanks in front changes no visible characters. -/
theorem visible_dropWhile {p : Char → Bool} (blank : ∀ c, p c = true → isBlank c = true)
    (s : List Char) : visible (s.dropWhile p) = visible s := by
  have whole := congrArg visible (List.takeWhile_append_dropWhile (p := p) (l := s))
  rwa [visible_append, visible_takeWhile blank, List.nil_append] at whole

theorem visible_trimLeft (s : List Char) : visible (trimLeft s) = visible s :=
  visible_dropWhile (fun _ blank => blank) s

theorem visible_reverse (s : List Char) : visible s.reverse = (visible s).reverse :=
  List.filter_reverse

theorem visible_trimRight (s : List Char) : visible (trimRight s) = visible s := by
  rw [trimRight, visible_reverse, visible_dropWhile (fun _ blank => blank), visible_reverse,
    List.reverse_reverse]

theorem visible_trim (s : List Char) : visible (trim s) = visible s := by
  rw [trim, visible_trimRight, visible_trimLeft]

/-- Joining with a blank between the parts adds no visible characters. -/
theorem visible_intercalate {c : Char} (blank : isBlank c = true) (parts : List (List Char)) :
    visible ([c].intercalate parts) = parts.flatMap visible := by
  induction parts with
  | nil => rfl
  | cons part parts ih =>
    cases parts with
    | nil => simp [List.intercalate]
    | cons next parts =>
      rw [List.intercalate_cons_cons, visible_append, visible_append, ih,
        visible_cons_of_blank blank]
      simp [visible]

theorem visible_cutAtBlank (s : List Char) :
    visible (cutAtBlank s).1 ++ visible (cutAtBlank s).2 = visible s := by
  rw [cutAtBlank, visible_trim, ← visible_append, List.takeWhile_append_dropWhile]

theorem trimRight_sublist (s : List Char) : (trimRight s).Sublist s := by
  have kept := (List.dropWhile_sublist isBlank (l := s.reverse)).reverse
  rwa [List.reverse_reverse] at kept

theorem trim_sublist (s : List Char) : (trim s).Sublist s :=
  (trimRight_sublist _).trans (List.dropWhile_sublist isBlank)

/-! ### Firm texts -/

/-- The first and the last character are visible. -/
structure Firm (s : List Char) : Prop where
  front : ∃ c rest, s = c :: rest ∧ isBlank c = false
  back : ∃ rest c, s = rest ++ [c] ∧ isBlank c = false

theorem firm_of_visible {s : List Char} (some : s ≠ []) (solid : ∀ c ∈ s, isBlank c = false) :
    Firm s := by
  constructor
  · obtain ⟨c, rest, rfl⟩ := List.exists_cons_of_ne_nil some
    exact ⟨c, rest, rfl, solid c List.mem_cons_self⟩
  · exact ⟨s.dropLast, s.getLast some, (List.dropLast_concat_getLast some).symm,
      solid _ (List.getLast_mem some)⟩

/-- What stands between firm texts may be anything. -/
theorem Firm.append {s t : List Char} (firm : Firm s) (firm' : Firm t) (between : List Char) :
    Firm (s ++ between ++ t) := by
  obtain ⟨c, rest, rfl, solid⟩ := firm.front
  obtain ⟨rest', d, rfl, solid'⟩ := firm'.back
  exact ⟨⟨c, rest ++ between ++ (rest' ++ [d]), rfl, solid⟩,
    c :: rest ++ between ++ rest', d, (List.append_assoc ..).symm, solid'⟩

theorem Firm.ne_nil {s : List Char} (firm : Firm s) : s ≠ [] := by
  obtain ⟨c, rest, rfl, -⟩ := firm.front
  exact List.cons_ne_nil c rest

/-- A text without visible characters is blank; otherwise a firm text stands between blanks. -/
theorem blank_or_firm (s : List Char) : s.all isBlank = true ∨
    ∃ front inner back, s = front ++ (inner ++ back) ∧ front.all isBlank = true ∧
      back.all isBlank = true ∧ Firm inner := by
  induction s with
  | nil => exact .inl rfl
  | cons c s ih =>
    cases solid : isBlank c with
    | true =>
      rcases ih with blank | ⟨front, inner, back, rfl, blank, blank', firm⟩
      · exact .inl (by rw [List.all_cons, solid, blank]; rfl)
      · exact .inr ⟨c :: front, inner, back, rfl, by rw [List.all_cons, solid, blank]; rfl,
          blank', firm⟩
    | false =>
      have single : Firm [c] :=
        firm_of_visible (List.cons_ne_nil c []) (List.forall_mem_singleton.mpr solid)
      rcases ih with blank | ⟨front, inner, back, rfl, -, blank', firm⟩
      · exact .inr ⟨[], [c], s, rfl, rfl, blank, single⟩
      · refine .inr ⟨[], [c] ++ front ++ inner, back, ?_, rfl, blank', single.append firm front⟩
        simp

/-! ### Trimming -/

/-- What is in front of a firm text stays. -/
theorem Firm.trimRight_append {s : List Char} (firm : Firm s) {blanks : List Char}
    (blank : blanks.all isBlank = true) (front : List Char) :
    trimRight (front ++ (s ++ blanks)) = front ++ s := by
  obtain ⟨rest, c, rfl, solid⟩ := firm.back
  have blank' : ∀ c ∈ blanks.reverse, isBlank c = true := fun c member =>
    List.all_eq_true.mp blank c (List.mem_reverse.mp member)
  rw [trimRight, ← List.append_assoc, List.reverse_append, List.dropWhile_append_of_pos blank',
    ← List.append_assoc, List.reverse_append, List.reverse_singleton, List.singleton_append,
    List.dropWhile_cons_of_neg (by simp [solid]), List.reverse_cons, List.reverse_reverse]

/-- What is behind a firm text stays. -/
theorem Firm.trimLeft_append {s : List Char} (firm : Firm s) {blanks : List Char}
    (blank : blanks.all isBlank = true) (rest : List Char) :
    trimLeft (blanks ++ (s ++ rest)) = s ++ rest := by
  obtain ⟨c, more, rfl, solid⟩ := firm.front
  rw [trimLeft, List.dropWhile_append_of_pos (List.all_eq_true.mp blank), List.cons_append,
    List.dropWhile_cons_of_neg (by simp [solid])]

/-- A firm text is what is left between blanks. -/
theorem Firm.trim_append {s : List Char} (firm : Firm s) {front back : List Char}
    (blank : front.all isBlank = true) (blank' : back.all isBlank = true) :
    trim (front ++ (s ++ back)) = s := by
  rw [trim, firm.trimLeft_append blank]
  exact firm.trimRight_append blank' []

/-- Nothing is trimmed from a firm text. -/
theorem Firm.trim_eq {s : List Char} (firm : Firm s) : trim s = s := by
  simpa using firm.trim_append List.all_nil List.all_nil

theorem trimRight_of_blank {s : List Char} (blank : s.all isBlank = true) : trimRight s = [] := by
  rw [trimRight, List.dropWhile_eq_nil_iff.mpr fun c member =>
    List.all_eq_true.mp blank c (List.mem_reverse.mp member)]
  rfl

theorem trim_of_blank {s : List Char} (blank : s.all isBlank = true) : trim s = [] := by
  rw [trim, trimLeft, List.dropWhile_eq_nil_iff.mpr (List.all_eq_true.mp blank)]
  rfl

theorem firm_trim {s : List Char} (some : trim s ≠ []) : Firm (trim s) := by
  rcases blank_or_firm s with blank | ⟨front, inner, back, rfl, blank, blank', firm⟩
  · exact absurd (trim_of_blank blank) some
  · rwa [firm.trim_append blank blank']

/-- Behind a firm text only the end of the rest is trimmed. -/
theorem Firm.trim_append_rest {s : List Char} (firm : Firm s) {front : List Char}
    (blank : front.all isBlank = true) (rest : List Char) :
    trim (front ++ (s ++ rest)) = s ++ trimRight rest := by
  rw [trim, firm.trimLeft_append blank]
  rcases blank_or_firm rest with blank' | ⟨front', inner, back, rfl, -, blank', firm'⟩
  · rw [trimRight_of_blank blank', List.append_nil]
    exact firm.trimRight_append blank' []
  · rw [firm'.trimRight_append blank', ← List.append_assoc, firm'.trimRight_append blank',
      List.append_assoc]

theorem trimRight_trimRight (s : List Char) : trimRight (trimRight s) = trimRight s := by
  rcases blank_or_firm s with blank | ⟨front, inner, back, rfl, -, blank, firm⟩
  · rw [trimRight_of_blank blank]
    rfl
  · rw [firm.trimRight_append blank]
    simpa using firm.trimRight_append List.all_nil front

/-- Blanks at the ends have no part in what is trimmed. -/
theorem trim_append_blank {blanks : List Char} (blank : blanks.all isBlank = true)
    (s : List Char) : trim (s ++ blanks) = trim s := by
  rcases blank_or_firm s with blank' | ⟨front, inner, back, rfl, blank', blank'', firm⟩
  · rw [trim_of_blank blank', trim_of_blank (by rw [List.all_append, blank', blank]; rfl)]
  · rw [firm.trim_append blank' blank'', List.append_assoc, List.append_assoc,
      firm.trim_append blank' (by rw [List.all_append, blank'', blank]; rfl)]

theorem trim_cons_of_blank {c : Char} (blank : isBlank c = true) (s : List Char) :
    trim (c :: s) = trim s := by
  rw [trim, trimLeft, List.dropWhile_cons_of_pos blank, trim, trimLeft]

theorem trim_trimRight (s : List Char) : trim (trimRight s) = trim s := by
  rcases blank_or_firm s with blank | ⟨front, inner, back, rfl, blank, blank', firm⟩
  · rw [trimRight_of_blank blank, trim_of_blank blank]
    rfl
  · rw [firm.trimRight_append blank', firm.trim_append blank blank']
    simpa using firm.trim_append blank List.all_nil

theorem trimRight_prefix (s : List Char) : trimRight s <+: s := by
  have kept := List.reverse_prefix.mpr (List.dropWhile_suffix isBlank (l := s.reverse))
  rwa [List.reverse_reverse] at kept

/-! ### Lines -/

theorem newline_not_mem_linesFrom (s : List Char) : ∀ {current line : List Char},
    '\n' ∉ current → line ∈ linesFrom current s → '\n' ∉ line := by
  have closed : ∀ {current : List Char}, '\n' ∉ current → '\n' ∉ closeLine current := by
    intro current none
    unfold closeLine
    split <;> simp_all
  induction s with
  | nil =>
    intro current line none listed
    rw [linesFrom] at listed
    split at listed
    · cases listed
    · obtain rfl := List.mem_singleton.mp listed
      rwa [List.mem_reverse]
  | cons c s ih =>
    intro current line none listed
    unfold linesFrom at listed
    split at listed
    · rename_i same
      cases same
    · rename_i same
      obtain ⟨rfl, rfl⟩ := List.cons.inj same
      rcases List.mem_cons.mp listed with rfl | listed
      · exact closed none
      · exact ih List.not_mem_nil listed
    · rename_i other same
      obtain ⟨rfl, rfl⟩ := List.cons.inj same
      refine ih ?_ listed
      rw [List.mem_cons, not_or]
      exact ⟨fun same => other same.symm, none⟩

theorem newline_not_mem_lines {s line : List Char} (listed : line ∈ lines s) : '\n' ∉ line :=
  newline_not_mem_linesFrom s List.not_mem_nil listed

/-- A text without line feeds is one line. -/
theorem linesFrom_of_newline_not_mem {s : List Char} (single : '\n' ∉ s) :
    ∀ {current : List Char}, current.reverse ++ s ≠ [] →
      linesFrom current s = [current.reverse ++ s] := by
  induction s with
  | nil =>
    intro current some
    rw [List.append_nil] at some ⊢
    rw [linesFrom, if_neg (by simpa using some)]
  | cons c s ih =>
    intro current some
    obtain ⟨first, single⟩ := not_or.mp (List.mem_cons.not.mp single)
    have step : linesFrom current (c :: s) = linesFrom (c :: current) s := by
      rw [linesFrom]
      exact fun same => first same.symm
    rw [step, ih single (by simp), List.reverse_cons, List.append_assoc, List.singleton_append]

theorem visible_closeLine (current : List Char) :
    visible (closeLine current) = visible current.reverse := by
  unfold closeLine
  split
  · rw [List.reverse_cons, visible_append]
    exact (List.append_nil _).symm
  · rfl

theorem flatMap_visible_linesFrom (s : List Char) : ∀ current : List Char,
    (linesFrom current s).flatMap visible = visible (current.reverse ++ s) := by
  induction s with
  | nil =>
    intro current
    rw [linesFrom]
    split
    · rename_i empty
      rw [List.isEmpty_iff.mp empty]
      rfl
    · rw [List.append_nil, List.flatMap_singleton]
  | cons c s ih =>
    intro current
    unfold linesFrom
    split
    · rename_i same
      cases same
    · rename_i same
      obtain ⟨rfl, rfl⟩ := List.cons.inj same
      rw [List.flatMap_cons, ih, visible_closeLine, visible_append (_ : List Char) ('\n' :: s)]
      rfl
    · rename_i same
      obtain ⟨rfl, rfl⟩ := List.cons.inj same
      rw [ih, List.reverse_cons, List.append_assoc, List.singleton_append]

/-- Only the ends of the lines are taken from a text. -/
theorem flatMap_visible_lines (s : List Char) : (lines s).flatMap visible = visible s :=
  flatMap_visible_linesFrom s []

theorem lines_of_newline_not_mem {s : List Char} (single : '\n' ∉ s) (some : s ≠ []) :
    lines s = [s] :=
  linesFrom_of_newline_not_mem single (by rwa [List.reverse_nil, List.nil_append])

/-- Lines that are closed in front of a text do not depend on it. -/
theorem linesFrom_append {front : List Char} (closed : front.getLast? = some '\n')
    (s : List Char) : ∀ current : List Char,
      linesFrom current (front ++ s) = linesFrom current front ++ lines s := by
  induction front with
  | nil => cases closed
  | cons c front ih =>
    intro current
    by_cases feed : c = '\n'
    · subst feed
      rw [List.cons_append, linesFrom, linesFrom, List.cons_append]
      cases front with
      | nil => rfl
      | cons d front => rw [ih closed]
    · have step : ∀ t, linesFrom current (c :: t) = linesFrom (c :: current) t := fun t => by
        rw [linesFrom]
        exact feed
      have more : front ≠ [] := by
        rintro rfl
        exact feed (Option.some.inj closed)
      rw [List.getLast?_cons_of_ne_nil more] at closed
      rw [List.cons_append, step, step, ih closed]

theorem lines_append {front : List Char} (closed : ∀ c ∈ front.getLast?, c = '\n')
    (s : List Char) : lines (front ++ s) = lines front ++ lines s := by
  cases last : front.getLast? with
  | none =>
    rw [List.getLast?_eq_none_iff.mp last]
    rfl
  | some c =>
    rw [closed c last] at last
    exact linesFrom_append last s []

/-- A line ends at the next line feed. -/
theorem linesFrom_line {line : List Char} (single : '\n' ∉ line) (rest : List Char) :
    ∀ current : List Char, linesFrom current (line ++ '\n' :: rest) =
      closeLine (line.reverse ++ current) :: lines rest := by
  induction line with
  | nil => exact fun _ => rfl
  | cons c line ih =>
    intro current
    obtain ⟨first, single⟩ := not_or.mp (List.mem_cons.not.mp single)
    have step : linesFrom current (c :: (line ++ '\n' :: rest)) =
        linesFrom (c :: current) (line ++ '\n' :: rest) := by
      rw [linesFrom]
      exact fun same => first same.symm
    rw [List.cons_append, step, ih single, List.reverse_cons, List.append_assoc,
      List.singleton_append]

/-- At most a carriage return is taken from a line when it is closed. -/
theorem closeLine_reverse (line : List Char) :
    closeLine line.reverse = line ∨ line = closeLine line.reverse ++ ['\r'] := by
  unfold closeLine
  split
  · rename_i rest begins
    exact .inr (by rw [← List.reverse_cons, ← begins, List.reverse_reverse])
  · exact .inl (List.reverse_reverse line)

/-- A line in front of the others. Only a carriage return at its end may be missing. -/
theorem lines_cons {line rest : List Char} (single : '\n' ∉ line) (some : line ≠ [])
    (begins : ∀ c ∈ rest.head?, c = '\n') :
    ∃ line', (line' = line ∨ line = line' ++ ['\r']) ∧
      lines (line ++ rest) = line' :: lines rest.tail := by
  cases rest with
  | nil =>
    refine ⟨line, .inl rfl, ?_⟩
    rw [List.append_nil, lines_of_newline_not_mem single some]
    rfl
  | cons c rest =>
    obtain rfl := begins c rfl
    refine ⟨closeLine line.reverse, closeLine_reverse line, ?_⟩
    rw [lines, linesFrom_line single, List.append_nil]
    rfl

/-! ### Bytes -/

theorem byteSize_append (s t : List Char) : byteSize (s ++ t) = byteSize s + byteSize t := by
  induction s with
  | nil => simp [byteSize]
  | cons c s ih => simp [byteSize, ih, Nat.add_assoc]

/-- A character of the text ends behind so many bytes, or the text begins there. -/
def HasCut (n : Nat) (s : List Char) : Prop :=
  ∃ front back, s = front ++ back ∧ byteSize front = n

theorem dropBytes_byteSize (front back : List Char) :
    dropBytes (byteSize front) (front ++ back) = back := by
  induction front with
  | nil => simp [byteSize, dropBytes]
  | cons c front ih =>
    have positive := c.utf8Size_pos
    obtain ⟨n, size⟩ : ∃ n, byteSize (c :: front) = n + 1 :=
      ⟨c.utf8Size + byteSize front - 1, by rw [byteSize]; omega⟩
    rw [byteSize] at size
    have left : n + 1 - c.utf8Size = byteSize front := by omega
    rw [byteSize, size, List.cons_append, dropBytes, left, ih, if_pos (by omega)]

/-- Nothing is left of a text that has no cut there. -/
theorem dropBytes_of_not_hasCut {s : List Char} :
    ∀ {n : Nat}, ¬ HasCut n s → dropBytes n s = [] := by
  induction s with
  | nil =>
    intro n uncut
    cases n with
    | zero => exact absurd ⟨[], [], rfl, rfl⟩ uncut
    | succ n => rfl
  | cons c s ih =>
    intro n uncut
    cases n with
    | zero => exact absurd ⟨[], c :: s, rfl, rfl⟩ uncut
    | succ n =>
      rw [dropBytes]
      split
      · rename_i fits
        refine ih fun ⟨front, back, whole, size⟩ => uncut ⟨c :: front, back, ?_, ?_⟩
        · rw [whole, List.cons_append]
        · rw [byteSize, size]
          omega
      · rfl

/-- The shorter beginning of a text lies in the longer one. -/
theorem isPrefix_of_byteSize_le {s front blanks : List Char} (inside : front <+: s)
    (inside' : blanks <+: s) (size : byteSize front ≤ byteSize blanks) : front <+: blanks := by
  rcases List.prefix_or_prefix_of_prefix inside inside' with before | ⟨more, rfl⟩
  · exact before
  · rw [byteSize_append] at size
    cases more with
    | nil => exact ⟨[], by simp⟩
    | cons c more =>
      have positive := c.utf8Size_pos
      rw [byteSize] at size
      omega

end DuckInfer.Text
