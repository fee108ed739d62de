import DuckInfer.Ty.Grammar

/-!
The names of types, as texts: constant paths, duck types, and literals. Names are read greedily, so
what is read depends on the text behind a name. Main statements: a name is read to its end and no
further if nothing stands behind it, or a gap, a comma, a bracket or an arrow, unless the name takes
this character; and then the name is read with the character.
-/

namespace DuckInfer.TagGrammar

/-! ### Names as texts -/

/-- Letters, digits and underscores that do not begin with a digit, and possibly a mark. -/
def IsIdent (name : List Char) : Prop :=
  ∃ first others mark, name = first :: others ++ mark ∧ isIdentStart first = true ∧
    others.all isIdentRest = true ∧ mark ∈ [[], ['?'], ['!']]

/-- Identifiers with `::` between them. -/
def IsPath (name : List Char) : Prop :=
  ∃ (first : List Char) (others : List (List Char)),
    name = first ++ others.flatMap (fun segment => ':' :: ':' :: segment) ∧
      IsIdent first ∧ ∀ segment ∈ others, IsIdent segment

/-- `#name` or `#name=`. Operators are left out. -/
def IsDuckName (name : List Char) : Prop :=
  ∃ ident, IsIdent ident ∧ (name = '#' :: ident ∨ name = '#' :: ident ++ ['='])

/-- `:name` -/
def IsSymbol (name : List Char) : Prop :=
  ∃ ident, IsIdent ident ∧ name = ':' :: ident

/-- Any text without the quote, between two quotes of one kind. -/
def IsQuoted (name : List Char) : Prop :=
  ∃ quote inner, (quote = '\'' ∨ quote = '"') ∧ quote ∉ inner ∧ name = quote :: inner ++ [quote]

/-- At least one digit. -/
def IsDigits (digits : List Char) : Prop :=
  digits ≠ [] ∧ digits.all Char.isDigit = true

/-- Digits, possibly with a point and more digits. -/
def IsUnsigned (number : List Char) : Prop :=
  IsDigits number ∨
    ∃ whole fraction, number = whole ++ '.' :: fraction ∧ IsDigits whole ∧ IsDigits fraction

/-- A number, possibly with a minus sign. -/
def IsNumber (name : List Char) : Prop :=
  IsUnsigned name ∨ ∃ number, name = '-' :: number ∧ IsUnsigned number

/-- A name that a tag may have. -/
def IsName (name : List Char) : Prop :=
  IsDuckName name ∨ IsSymbol name ∨ IsQuoted name ∨ IsNumber name ∨ IsPath name

/-- A name that a tag may have, with the operators among the duck types. -/
def IsTagName (name : List Char) : Prop :=
  IsName name ∨ ∃ op ∈ operators, name = '#' :: op

/-- The character behind the name belongs to it: a method name takes `=`, and an operator takes what
makes another operator of it. -/
def Takes (name : List Char) (c : Char) : Prop :=
  (c = '=' ∧ ∃ ident, IsIdent ident ∧ name = '#' :: ident) ∨
    ∃ op ∈ operators, op ++ [c] ∈ operators ∧ name = '#' :: op

theorem IsIdent.isPath {name : List Char} (isIdent : IsIdent name) : IsPath name :=
  ⟨name, [], by simp, isIdent, by simp⟩

/-- The reserved names are among the constant paths. -/
theorem isName_of_builtin {name : String} (builtin : name ∈ Member.builtinNames) :
    IsName name.toList := by
  have plain : ∀ word ∈ Member.builtinNames,
      (word.toList.head?.any isIdentStart && word.toList.tail.all isIdentRest) = true := by
    decide +kernel
  have letters := plain name builtin
  cases spelled : name.toList with
  | nil => simp [spelled] at letters
  | cons first others =>
    simp only [spelled, List.head?_cons, Option.any_some, List.tail_cons,
      Bool.and_eq_true] at letters
    have isIdent : IsIdent (first :: others) :=
      ⟨first, others, [], by simp, letters.1, letters.2, by simp⟩
    exact Or.inr (Or.inr (Or.inr (Or.inr isIdent.isPath)))

/-! ### What stands behind a name -/

/-- The characters that may stand right behind a name in a written type. -/
def stopChars : List Char :=
  [' ', ',', '<', '>', '(', ')', '{', '}']

/-- What a check finds of all elements of a list. With a quantifier, a decision procedure could go
through all characters instead. -/
theorem forall_mem_of_all {α : Type} {p : α → Prop} [DecidablePred p] {xs : List α}
    (all : xs.all (fun x => decide (p x)) = true) : ∀ x ∈ xs, p x := by
  simpa using all

/-- Nothing follows, or a gap, a comma or a bracket. -/
def Stops (rest : List Char) : Prop :=
  ∀ c ∈ rest.head?, c ∈ stopChars

/-- Nothing follows, or a gap, a comma, a bracket or an arrow. -/
def Delimits (rest : List Char) : Prop :=
  ∀ c ∈ rest.head?, c ∈ '=' :: stopChars

theorem Stops.delimits {rest : List Char} (stops : Stops rest) : Delimits rest :=
  fun c first => List.mem_cons_of_mem _ (stops c first)

/-- An identifier cannot be read on into this text. -/
def EndsIdent (rest : List Char) : Prop :=
  ∀ c ∈ rest.head?, isIdentRest c = false ∧ c ≠ '?' ∧ c ≠ '!'

theorem Delimits.endsIdent {rest : List Char} (delimits : Delimits rest) : EndsIdent rest := by
  have apart : ∀ c ∈ '=' :: stopChars, isIdentRest c = false ∧ c ≠ '?' ∧ c ≠ '!' :=
    forall_mem_of_all (by decide)
  exact fun c first => apart c (delimits c first)

theorem Delimits.not_digit {rest : List Char} (delimits : Delimits rest) :
    ∀ c ∈ rest.head?, c.isDigit = false := by
  have apart : ∀ c ∈ '=' :: stopChars, c.isDigit = false := forall_mem_of_all (by decide)
  exact fun c first => apart c (delimits c first)

/-- A delimited text does not begin with another character. -/
theorem Delimits.ne_cons {rest : List Char} (delimits : Delimits rest) {c : Char}
    (other : c ∉ '=' :: stopChars) (tail : List Char) : rest ≠ c :: tail := by
  rintro rfl
  exact other (delimits c rfl)

/-! ### Reading on -/

/-- Taking a prefix that ends where the condition does. -/
theorem span_append {p : Char → Bool} {front rest : List Char} (all : front.all p = true)
    (ends : ∀ c ∈ rest.head?, p c = false) :
    (front ++ rest).takeWhile p = front ∧ (front ++ rest).dropWhile p = rest := by
  have none : rest.takeWhile p = [] ∧ rest.dropWhile p = rest := by
    cases rest with
    | nil => exact ⟨rfl, rfl⟩
    | cons c tail => simp [ends c rfl]
  have each := List.all_eq_true.mp all
  rw [List.takeWhile_append_of_pos each, List.dropWhile_append_of_pos each, none.1, none.2]
  exact ⟨List.append_nil front, rfl⟩

theorem isIdentRest_mark : isIdentRest '?' = false ∧ isIdentRest '!' = false := by decide

theorem readMark_append {mark rest : List Char} (known : mark ∈ [[], ['?'], ['!']])
    (ends : EndsIdent rest) : readMark (mark ++ rest) = (mark, rest) := by
  simp only [List.mem_cons, List.not_mem_nil, or_false] at known
  rcases known with rfl | rfl | rfl
  · unfold readMark
    split
    · exact absurd rfl (ends '?' (by simp_all)).2.1
    · exact absurd rfl (ends '!' (by simp_all)).2.2
    · rfl
  · rfl
  · rfl

theorem readIdent?_append {ident rest : List Char} (isIdent : IsIdent ident)
    (ends : EndsIdent rest) : readIdent? (ident ++ rest) = some (ident, rest) := by
  obtain ⟨first, others, mark, rfl, start, inside, known⟩ := isIdent
  have behind : ∀ c ∈ (mark ++ rest).head?, isIdentRest c = false := by
    simp only [List.mem_cons, List.not_mem_nil, or_false] at known
    rcases known with rfl | rfl | rfl
    · exact fun c first => (ends c first).1
    · simpa using isIdentRest_mark.1
    · simpa using isIdentRest_mark.2
  obtain ⟨taken, dropped⟩ := span_append inside behind
  simp only [List.cons_append, List.append_assoc]
  rw [readIdent?, if_pos start, taken, dropped, readMark_append known ends]
  rfl

theorem IsIdent.head {ident : List Char} (isIdent : IsIdent ident) :
    ∃ first others, ident = first :: others ∧ isIdentStart first = true := by
  obtain ⟨first, others, mark, rfl, start, -⟩ := isIdent
  exact ⟨first, others ++ mark, rfl, start⟩

/-- `::` ends an identifier. -/
theorem endsIdent_colon (rest : List Char) : EndsIdent (':' :: rest) := by
  intro c first
  rw [List.head?_cons, Option.mem_some_iff] at first
  rw [← first]
  decide

theorem readSegments_append {segments rest : List Char} {others : List (List Char)}
    (spelled : segments = others.flatMap fun segment => ':' :: ':' :: segment)
    (idents : ∀ segment ∈ others, IsIdent segment) (delimits : Delimits rest) (fuel : Nat)
    (enough : segments.length ≤ fuel) :
    readSegments fuel (segments ++ rest) = (segments, rest) := by
  induction others generalizing segments fuel with
  | nil =>
    subst spelled
    cases fuel with
    | zero => rfl
    | succ fuel =>
      rw [List.flatMap_nil, List.nil_append, readSegments]
      exact fun _ => delimits.ne_cons (by decide) _
  | cons segment others ih =>
    subst spelled
    simp only [List.flatMap_cons, List.cons_append, List.length_cons, List.length_append]
      at enough ⊢
    obtain ⟨fuel, rfl⟩ : ∃ n, fuel = n + 1 := ⟨fuel - 1, by omega⟩
    have ends : EndsIdent
        (others.flatMap (fun segment => ':' :: ':' :: segment) ++ rest) := by
      cases others with
      | nil => exact delimits.endsIdent
      | cons _ _ => exact endsIdent_colon _
    have more := ih rfl (fun s member => idents s (List.mem_cons_of_mem _ member)) fuel (by omega)
    rw [List.append_assoc, readSegments,
      readIdent?_append (idents segment List.mem_cons_self) ends]
    simp only [more, List.cons_append]

theorem readPath?_append {name rest : List Char} (isPath : IsPath name) (delimits : Delimits rest) :
    readPath? (name ++ rest) = some (name, rest) := by
  obtain ⟨first, others, rfl, isIdent, idents⟩ := isPath
  have ends : EndsIdent (others.flatMap (fun segment => ':' :: ':' :: segment) ++ rest) := by
    cases others with
    | nil => exact delimits.endsIdent
    | cons _ _ => exact endsIdent_colon _
  have more := readSegments_append rfl idents delimits
    (others.flatMap (fun segment => ':' :: ':' :: segment) ++ rest).length (by simp)
  simp only [List.append_assoc, readPath?, readIdent?_append isIdent ends, Option.map_some, more]

theorem readSymbol?_append {name rest : List Char} (isSymbol : IsSymbol name)
    (delimits : Delimits rest) : readSymbol? (name ++ rest) = some (name, rest) := by
  obtain ⟨ident, isIdent, rfl⟩ := isSymbol
  rw [List.cons_append, readSymbol?, readIdent?_append isIdent delimits.endsIdent]
  rfl

theorem readQuoted?_append {name : List Char} (isQuoted : IsQuoted name) (rest : List Char) :
    readQuoted? (name ++ rest) = some (name, rest) := by
  obtain ⟨quote, inner, known, apart, rfl⟩ := isQuoted
  have inside : inner.all (· != quote) = true := by
    refine List.all_eq_true.mpr fun c member => ?_
    rw [bne_iff_ne]
    rintro rfl
    exact apart member
  obtain ⟨taken, dropped⟩ := span_append inside
    (show ∀ c ∈ (quote :: rest).head?, (c != quote) = false by simp)
  have isQuote : (quote == '\'' || quote == '"') = true := by
    rcases known with rfl | rfl <;> decide
  simp only [List.cons_append, List.append_assoc, List.nil_append]
  rw [readQuoted?, if_pos isQuote, dropped, taken]
  rfl

theorem readDigits?_append {digits rest : List Char} (isDigits : IsDigits digits)
    (ends : ∀ c ∈ rest.head?, c.isDigit = false) :
    readDigits? (digits ++ rest) = some (digits, rest) := by
  obtain ⟨taken, dropped⟩ := span_append isDigits.2 ends
  unfold readDigits?
  rw [taken, dropped]
  cases digits with
  | nil => exact absurd rfl isDigits.1
  | cons c digits => rfl

theorem readUnsigned?_append {number rest : List Char} (isUnsigned : IsUnsigned number)
    (delimits : Delimits rest) : readUnsigned? (number ++ rest) = some (number, rest) := by
  rcases isUnsigned with isDigits | ⟨whole, fraction, rfl, isWhole, isFraction⟩
  · rw [readUnsigned?, readDigits?_append isDigits delimits.not_digit]
    split
    · rename_i none
      exact absurd none (by simp)
    · rename_i same
      simp only [Option.some.injEq, Prod.mk.injEq] at same
      exact absurd same.2 (delimits.ne_cons (by decide) _)
    · rename_i same
      simp only [Option.some.injEq, Prod.mk.injEq] at same
      rw [same.1, same.2]
  · have point : ∀ c ∈ ('.' :: (fraction ++ rest)).head?, c.isDigit = false := by
      intro c first
      rw [List.head?_cons, Option.mem_some_iff] at first
      rw [← first]
      decide
    simp only [List.append_assoc, List.cons_append, readUnsigned?,
      readDigits?_append isWhole point, readDigits?_append isFraction delimits.not_digit]

/-! ### Which reader reads -/

theorem IsUnsigned.head {number : List Char} (isUnsigned : IsUnsigned number) :
    ∃ first others, number = first :: others ∧ first.isDigit = true := by
  have digits : ∀ {digits : List Char}, IsDigits digits → ∀ tail,
      ∃ first others, digits ++ tail = first :: others ∧ first.isDigit = true := by
    rintro (_ | ⟨first, others⟩) isDigits tail
    · exact absurd rfl isDigits.1
    · exact ⟨first, others ++ tail, rfl, List.all_eq_true.mp isDigits.2 first List.mem_cons_self⟩
  rcases isUnsigned with isDigits | ⟨whole, fraction, rfl, isWhole, -⟩
  · simpa using digits isDigits []
  · exact digits isWhole _

theorem readNumber?_append {name rest : List Char} (isNumber : IsNumber name)
    (delimits : Delimits rest) : readNumber? (name ++ rest) = some (name, rest) := by
  rcases isNumber with isUnsigned | ⟨number, rfl, isUnsigned⟩
  · obtain ⟨first, others, rfl, digit⟩ := isUnsigned.head
    have unsigned : first ≠ '-' := by
      rintro rfl
      exact absurd digit (by decide)
    rw [← readUnsigned?_append isUnsigned delimits, readNumber?]
    intro tail same
    exact unsigned (List.cons.inj same).1
  · rw [List.cons_append, readNumber?, readUnsigned?_append isUnsigned delimits]
    rfl

theorem readDuck?_eq_none {first : Char} (other : first ≠ '#') (rest : List Char) :
    readDuck? (first :: rest) = none := by
  unfold readDuck?
  split
  · rename_i same
    exact absurd (List.cons.inj same).1 other
  · rfl

theorem readSymbol?_eq_none {first : Char} (other : first ≠ ':') (rest : List Char) :
    readSymbol? (first :: rest) = none := by
  unfold readSymbol?
  split
  · rename_i same
    exact absurd (List.cons.inj same).1 other
  · rfl

theorem readQuoted?_eq_none {first : Char} (other : first ≠ '\'' ∧ first ≠ '"')
    (rest : List Char) : readQuoted? (first :: rest) = none := by
  simp [readQuoted?, other.1, other.2]

theorem readNumber?_eq_none {first : Char} (unsigned : first ≠ '-') (other : first.isDigit = false)
    (rest : List Char) : readNumber? (first :: rest) = none := by
  have digits : readDigits? (first :: rest) = none := by
    simp [readDigits?, other]
  unfold readNumber?
  split
  · rename_i same
    exact absurd (List.cons.inj same).1 unsigned
  · rw [readUnsigned?, digits]

theorem range_of_isAlpha {c : Char} (letter : c.isAlpha = true) :
    (65 ≤ c.val ∧ c.val ≤ 90) ∨ (97 ≤ c.val ∧ c.val ≤ 122) := by
  have either : (c.isUpper || c.isLower) = true := letter
  rcases Bool.or_eq_true_iff.mp either with upper | lower
  · exact .inl (of_decide_eq_true upper)
  · exact .inr (by simpa using Bool.and_eq_true_iff.mp lower)

theorem range_of_isDigit {c : Char} (digit : c.isDigit = true) : 48 ≤ c.val ∧ c.val ≤ 57 := by
  have both : (decide (48 ≤ c.val) && decide (c.val ≤ 57)) = true := digit
  simpa using both

/-- No letter is a digit. -/
theorem isDigit_of_isAlpha {c : Char} (letter : c.isAlpha = true) : c.isDigit = false := by
  have ranges := range_of_isAlpha letter
  rw [← Bool.not_eq_true]
  intro digit
  have bounds := range_of_isDigit digit
  grind

/-- What an identifier starts with starts nothing else. -/
theorem isIdentStart_apart {first : Char} (start : isIdentStart first = true) :
    first ≠ '#' ∧ first ≠ ':' ∧ (first ≠ '\'' ∧ first ≠ '"') ∧ first ≠ '-' ∧
      first.isDigit = false := by
  have other : ∀ {c : Char}, isIdentStart c = false → first ≠ c := by
    rintro c none rfl
    exact Bool.false_ne_true (none.symm.trans start)
  refine ⟨other (by decide), other (by decide), ⟨other (by decide), other (by decide)⟩,
    other (by decide), ?_⟩
  have letter : first.isAlpha = true ∨ first = '_' := by simpa [isIdentStart] using start
  rcases letter with letter | rfl
  · exact isDigit_of_isAlpha letter
  · decide

/-- Neither do digits. -/
theorem isDigit_apart {first : Char} (digit : first.isDigit = true) :
    first ≠ '#' ∧ first ≠ ':' ∧ first ≠ '\'' ∧ first ≠ '"' := by
  have other : ∀ {c : Char}, c.isDigit = false → first ≠ c := by
    rintro c none rfl
    exact Bool.false_ne_true (none.symm.trans digit)
  exact ⟨other (by decide), other (by decide), other (by decide), other (by decide)⟩

/-! ### Duck types -/

/-- A duck type that is no operator goes on like an identifier. -/
theorem head_of_isName_duck {name : List Char} (isName : IsName ('#' :: name)) :
    ∃ first others, name = first :: others ∧ isIdentStart first = true := by
  rcases isName with ⟨ident, isIdent, spelled⟩ | ⟨_, -, spelled⟩ |
    ⟨quote, inner, known, -, spelled⟩ | isNumber | ⟨ident, others, spelled, isIdent, -⟩
  · obtain ⟨first, others, rfl, start⟩ := isIdent.head
    rcases spelled with spelled | spelled
    · exact ⟨first, others, (List.cons.inj spelled).2, start⟩
    · exact ⟨first, others ++ ['='], (List.cons.inj spelled).2, start⟩
  · exact absurd (List.cons.inj spelled).1 (by decide)
  · have same : '#' = quote := (List.cons.inj spelled).1
    rcases known with rfl | rfl
    · exact absurd same (by decide)
    · exact absurd same (by decide)
  · rcases isNumber with isUnsigned | ⟨number, spelled, -⟩
    · obtain ⟨first, others, spelled, digit⟩ := isUnsigned.head
      exact absurd (List.cons.inj spelled).1.symm (isDigit_apart digit).1
    · exact absurd (List.cons.inj spelled).1 (by decide)
  · obtain ⟨first, more, rfl, start⟩ := isIdent.head
    exact absurd (List.cons.inj spelled).1.symm (isIdentStart_apart start).1

/-- The operators, character by character. -/
theorem operators_spelled : operators =
    [['[', ']', '='], ['[', ']'], ['<', '=', '>'], ['=', '=', '='], ['=', '='], ['=', '~'],
      ['!', '='], ['!', '~'], ['<', '<'], ['>', '>'], ['<', '='], ['>', '='], ['*', '*'],
      ['+', '@'], ['-', '@'], ['+'], ['-'], ['*'], ['/'], ['%'], ['!'], ['&'], ['|'], ['^'],
      ['~']] := by
  simp [operators]

theorem head_of_operator {op : List Char} (listed : op ∈ operators) :
    ∃ first others, op = first :: others ∧ isIdentStart first = false := by
  have known : operators.all (fun op => op.head?.any fun first => !isIdentStart first) = true := by
    rw [operators_spelled]
    decide
  have head := List.all_eq_true.mp known op listed
  cases op with
  | nil => exact absurd head (by simp)
  | cons first others => exact ⟨first, others, rfl, by simpa using head⟩

/-- An operator goes on in another one by a single character, and this one goes on in none. -/
theorem operator_extension : ∀ op ∈ operators, ∀ op' ∈ operators, op <+: op' →
    op' = op ∨ op' ∈ ['=', '>', '~', '*', '@'].map (fun c => op ++ [c]) ∧
      ∀ longer ∈ operators, op' <+: longer → longer = op' := by
  rw [operators_spelled]
  decide

/-- An operator goes on with a delimiter in another one only at its end, as `<=` does in `<=>`. -/
theorem operator_extends {op op' : List Char} (listed : op ∈ operators) (listed' : op' ∈ operators)
    {c : Char} (delimiter : c ∈ '=' :: stopChars) {tail : List Char}
    (longer : op' = op ++ c :: tail) : (c = '=' ∨ c = '>') ∧ tail = [] := by
  rcases operator_extension op listed op' listed' ⟨c :: tail, longer.symm⟩ with same | ⟨single, -⟩
  · exact absurd (longer.symm.trans same) (by simp)
  · obtain ⟨d, known, same⟩ := List.mem_map.mp single
    obtain ⟨rfl, rfl⟩ := List.cons.inj (List.append_cancel_left (same.trans longer))
    have apart : ∀ d ∈ ['=', '>', '~', '*', '@'], d ∈ '=' :: stopChars → d = '=' ∨ d = '>' :=
      forall_mem_of_all (by decide)
    exact ⟨apart d known delimiter, rfl⟩

/-- What another operator goes on with makes no third one. -/
theorem operator_complete {op op' : List Char} {c : Char} (listed : op ∈ operators)
    (longer : op ++ [c] ∈ operators) (listed' : op' ∈ operators) (begins : op ++ [c] <+: op') :
    op' = op ++ [c] := by
  rcases operator_extension op listed _ longer (List.prefix_append op [c]) with same | ⟨-, last⟩
  · exact absurd same (by simp)
  · exact last op' listed' begins

/-- An operator is read if the text begins with no longer one. -/
theorem readOperator?_append {op rest : List Char} (listed : op ∈ operators)
    (longest : ∀ op' ∈ operators, op' <+: op ++ rest → op'.length ≤ op.length) :
    readOperator? (op ++ rest) = some (op, rest) := by
  have first : ∀ op ∈ operators, operators.find? (·.isPrefixOf op) = some op := by
    rw [operators_spelled]
    decide
  obtain ⟨-, before, behind, split, apart⟩ := List.find?_eq_some_iff_append.mp (first op listed)
  refine List.findSome?_eq_some_iff.mpr ⟨before, op, behind, split, ?_, fun op' early => ?_⟩
  · simp [after?]
  · have shorter : ¬ op' <+: op := by
      rw [← List.isPrefixOf_iff_prefix, Bool.not_eq_true]
      simpa only [Bool.not_eq_true'] using apart op' early
    have listed' : op' ∈ operators := split ▸ List.mem_append_left _ early
    have elsewhere : ¬ op' <+: op ++ rest := fun begins => shorter
      (List.prefix_of_prefix_length_le begins (List.prefix_append op rest)
        (longest op' listed' begins))
    simp [after?, elsewhere]

theorem readDuck?_operator {op rest : List Char}
    (read : readOperator? (op ++ rest) = some (op, rest)) :
    readDuck? ('#' :: op ++ rest) = some ('#' :: op, rest) := by
  rw [List.cons_append, readDuck?, read]

/-- No operator begins as an identifier does. -/
theorem readOperator?_eq_none {ident : List Char} (isIdent : IsIdent ident) (rest : List Char) :
    readOperator? (ident ++ rest) = none := by
  obtain ⟨first, others, rfl, start⟩ := isIdent.head
  refine List.findSome?_eq_none_iff.mpr fun op listed => ?_
  obtain ⟨c, more, rfl, other⟩ := head_of_operator listed
  have apart : c ≠ first := by
    rintro rfl
    exact Bool.false_ne_true (other.symm.trans start)
  simp [after?, List.isPrefixOf, apart]

/-- A method name takes the `=` behind it. -/
theorem readDuck?_setter {ident : List Char} (isIdent : IsIdent ident) (rest : List Char) :
    readDuck? ('#' :: ident ++ '=' :: rest) = some ('#' :: ident ++ ['='], rest) := by
  have ends : EndsIdent ('=' :: rest) := by
    intro c first
    rw [List.head?_cons, Option.mem_some_iff] at first
    rw [← first]
    decide
  rw [List.cons_append, readDuck?, readOperator?_eq_none isIdent, readIdent?_append isIdent ends]
  rfl

theorem readDuck?_append {name rest : List Char} (isDuck : IsDuckName name)
    (delimits : Delimits rest) (free : ∀ c ∈ rest.head?, ¬ Takes name c) :
    readDuck? (name ++ rest) = some (name, rest) := by
  obtain ⟨ident, isIdent, rfl | rfl⟩ := isDuck
  · have unset : ∀ tail, rest ≠ '=' :: tail := by
      rintro tail rfl
      exact free '=' rfl (.inl ⟨rfl, ident, isIdent, rfl⟩)
    rw [List.cons_append, readDuck?, readOperator?_eq_none isIdent,
      readIdent?_append isIdent delimits.endsIdent]
    simp only
  · rw [List.append_assoc]
    exact readDuck?_setter isIdent rest

/-! ### Names in front of a text -/

/-- Only `=` and `>` are taken from what may stand behind a name. -/
theorem Takes.eq_or {name : List Char} {c : Char} (takes : Takes name c)
    (delimiter : c ∈ '=' :: stopChars) : c = '=' ∨ c = '>' := by
  rcases takes with ⟨rfl, -⟩ | ⟨op, listed, longer, -⟩
  · exact Or.inl rfl
  · exact (operator_extends listed longer delimiter rfl).1

example : operators.filter (fun op => op ++ ['='] ∈ operators) =
    [['[', ']'], ['=', '='], ['!']] := by
  rw [operators_spelled]
  decide

/-- A name that is no operator takes no gap, no comma and no bracket. -/
theorem IsName.not_takes {name : List Char} (isName : IsName name) {c : Char}
    (stop : c ∈ stopChars) : ¬ Takes name c := by
  rintro (⟨rfl, -⟩ | ⟨op, listed, -, rfl⟩)
  · exact absurd stop (by decide)
  · obtain ⟨first, others, rfl, start⟩ := head_of_isName_duck isName
    obtain ⟨first', others', same, other⟩ := head_of_operator listed
    rw [(List.cons.inj same).1, other] at start
    exact Bool.false_ne_true start

/-- A name is read to its end and no further, unless it takes what stands behind it. -/
theorem readName?_of_not_takes {name rest : List Char} (isName : IsTagName name)
    (delimits : Delimits rest) (free : ∀ c ∈ rest.head?, ¬ Takes name c) :
    readName? (name ++ rest) = some (name, rest) := by
  unfold readName?
  rcases isName with (isDuck | isSymbol | isQuoted | isNumber | isPath) | ⟨op, listed, rfl⟩
  · rw [readDuck?_append isDuck delimits free]
    rfl
  · have read := readSymbol?_append isSymbol delimits
    obtain ⟨ident, -, rfl⟩ := isSymbol
    rw [read, List.cons_append, readDuck?_eq_none (by decide)]
    rfl
  · have read := readQuoted?_append isQuoted rest
    obtain ⟨quote, inner, known, -, rfl⟩ := isQuoted
    have apart : quote ≠ '#' ∧ quote ≠ ':' := by rcases known with rfl | rfl <;> decide
    rw [read]
    simp only [List.cons_append]
    rw [readDuck?_eq_none apart.1, readSymbol?_eq_none apart.2]
    rfl
  · have read := readNumber?_append isNumber delimits
    have heads : ∃ first others, name = first :: others ∧
        first ≠ '#' ∧ first ≠ ':' ∧ first ≠ '\'' ∧ first ≠ '"' := by
      rcases isNumber with isUnsigned | ⟨number, rfl, -⟩
      · obtain ⟨first, others, spelled, digit⟩ := isUnsigned.head
        exact ⟨first, others, spelled, isDigit_apart digit⟩
      · exact ⟨'-', number, rfl, by decide⟩
    obtain ⟨first, others, rfl, duck, symbol, quotes⟩ := heads
    rw [read]
    rw [List.cons_append, readDuck?_eq_none duck, readSymbol?_eq_none symbol,
      readQuoted?_eq_none quotes]
    rfl
  · have read := readPath?_append isPath delimits
    obtain ⟨first, others, rfl, isIdent, -⟩ := isPath
    obtain ⟨c, tail, rfl, start⟩ := isIdent.head
    obtain ⟨duck, symbol, quotes, unsigned, digit⟩ := isIdentStart_apart start
    rw [read]
    simp only [List.cons_append]
    rw [readDuck?_eq_none duck, readSymbol?_eq_none symbol, readQuoted?_eq_none quotes,
      readNumber?_eq_none unsigned digit]
    rfl
  · have longest : ∀ op' ∈ operators, op' <+: op ++ rest → op'.length ≤ op.length := by
      rintro op' listed' ⟨behind, same⟩
      rcases List.append_eq_append_iff.mp same with ⟨more, whole, -⟩ | ⟨more, longer, left⟩
      · simp [whole]
      cases more with
      | nil => simp [longer]
      | cons c more =>
        have first : c ∈ rest.head? := by rw [left]; rfl
        obtain ⟨-, rfl⟩ := operator_extends listed listed' (delimits c first) longer
        exact absurd (.inr ⟨op, listed, longer ▸ listed', rfl⟩) (free c first)
    rw [readDuck?_operator (readOperator?_append listed longest)]
    rfl

/-- What is taken is read with the name. -/
theorem readName?_of_takes {name : List Char} {c : Char} (takes : Takes name c)
    (rest : List Char) : readName? (name ++ c :: rest) = some (name ++ [c], rest) := by
  unfold readName?
  rcases takes with ⟨rfl, ident, isIdent, rfl⟩ | ⟨op, listed, longer, rfl⟩
  · rw [readDuck?_setter isIdent]
    rfl
  · have longest : ∀ op' ∈ operators, op' <+: (op ++ [c]) ++ rest →
        op'.length ≤ (op ++ [c]).length := by
      rintro op' listed' ⟨behind, same⟩
      rcases List.append_eq_append_iff.mp same with ⟨more, whole, -⟩ | ⟨more, spelled, -⟩
      · simp [whole]
      · exact Nat.le_of_eq
          (congrArg List.length (operator_complete listed longer listed' ⟨more, spelled.symm⟩))
    have read := readDuck?_operator (readOperator?_append longer longest)
    rw [show '#' :: op ++ c :: rest = '#' :: (op ++ [c]) ++ rest by simp, read]
    rfl

/-- A name that is no operator is read to its end if a gap, a comma or a bracket stands there. -/
theorem readName?_append {name rest : List Char} (isName : IsName name) (stops : Stops rest) :
    readName? (name ++ rest) = some (name, rest) :=
  readName?_of_not_takes (.inl isName) stops.delimits fun c first =>
    isName.not_takes (stops c first)

end DuckInfer.TagGrammar
