import DuckInfer.Proofs.Ty.Spelling

/-!
Reading the written form of a type. Main statements: reading a written type gives the type without
the differences that a tag does not tell; and so does reading it without spaces, as long as no name
takes the bracket or the arrow that is written right behind it.
-/

namespace DuckInfer

open TagGrammar

/-! ### Names apart from what follows -/

/-- The character does not belong to the name if it stands right behind the member. Behind brackets
no name is left to take it. -/
def Member.Leaves (m : Member) (c : Char) : Prop :=
  m.isBare = true → ¬ Takes m.name.toList c

/-- The last of the members leaves the character alone. -/
def Member.LastLeaves (ms : List Member) (c : Char) : Prop :=
  ∀ m ∈ ms.getLast?, m.Leaves c

/-- The last name in the brackets leaves the bracket alone, and the last key the arrow, if no space
stands between them. -/
structure Member.Separated (spaced : Bool) (m : Member) : Prop where
  list : m.kind = .list → Member.LastLeaves (m.subs.flatMap Ty.members) '>'
  hash : m.kind = .hash → spaced = false → Member.LastLeaves (m.keys.flatMap Ty.members) '='

/-- No name in the spelling of the type takes what is spelled behind it. -/
inductive Ty.Separated (spaced : Bool) : Ty → Prop where
  | intro {t : Ty} :
      (∀ m ∈ t.members, m.isBare = false → m.Separated spaced) →
      (∀ m ∈ t.members, m.isBare = false → ∀ u ∈ m.params, u.Separated spaced) →
        t.Separated spaced

theorem Member.leaves_of_ne (m : Member) {c : Char} (delimiter : c ∈ '=' :: stopChars)
    (other : c ≠ '=' ∧ c ≠ '>') : m.Leaves c := by
  intro _ takes
  rcases takes.eq_or delimiter with same | same
  · exact other.1 same
  · exact other.2 same

theorem Member.lastLeaves_of_ne (ms : List Member) {c : Char} (delimiter : c ∈ '=' :: stopChars)
    (other : c ≠ '=' ∧ c ≠ '>') : Member.LastLeaves ms c :=
  fun m _ => m.leaves_of_ne delimiter other

theorem Member.lastLeaves_cons {m : Member} {ms : List Member} {c : Char} :
    Member.LastLeaves (m :: ms) c ↔ (ms = [] → m.Leaves c) ∧ Member.LastLeaves ms c := by
  cases ms with
  | nil => simp [Member.LastLeaves]
  | cons next ms => simp [Member.LastLeaves, List.getLast?_cons_cons]

/-! ### Gaps and ends -/

/-- A list of members may end here: nothing follows, or a closing bracket, or the arrow of a
hash. -/
def Closes (rest : List Char) : Prop :=
  Delimits rest ∧ ∀ c ∈ (skipGap rest).head?, c ∈ ['>', ')', '}', '=']

/-- A member may end here: its list ends, or goes on behind a comma. -/
def Ends (rest : List Char) : Prop :=
  Delimits rest ∧ ∀ c ∈ (skipGap rest).head?, c ∈ [',', '>', ')', '}', '=']

theorem Closes.ends {rest : List Char} (closes : Closes rest) : Ends rest :=
  ⟨closes.1, fun c first => List.mem_cons_of_mem _ (closes.2 c first)⟩

theorem closes_nil : Closes [] :=
  ⟨fun _ none => absurd none (by simp), fun _ none => absurd none (by simp [skipGap])⟩

theorem skipGap_cons {c : Char} (solid : isGap c = false) (rest : List Char) :
    skipGap (c :: rest) = c :: rest := by
  simp [skipGap, solid]

theorem closes_bracket {c : Char} (bracket : c ∈ ['>', ')', '}']) (rest : List Char) :
    Closes (c :: rest) := by
  have known : ∀ c ∈ ['>', ')', '}'],
      isGap c = false ∧ c ∈ '=' :: stopChars ∧ c ∈ ['>', ')', '}', '='] :=
    forall_mem_of_all (by decide)
  obtain ⟨solid, delimiter, listed⟩ := known c bracket
  constructor
  · rintro d first
    exact Option.some.inj first ▸ delimiter
  · rw [skipGap_cons solid]
    rintro d first
    exact Option.some.inj first ▸ listed

theorem skipGap_gap (spaced : Bool) (rest : List Char) :
    skipGap (gap spaced ++ rest) = skipGap rest := by
  cases spaced <;> rfl

theorem closes_arrow (spaced : Bool) (rest : List Char) :
    Closes (gap spaced ++ '=' :: '>' :: rest) := by
  constructor
  · cases spaced <;> exact fun d first => Option.some.inj first ▸ by decide
  · rw [skipGap_gap, skipGap_cons (by decide)]
    exact fun d first => Option.some.inj first ▸ by decide

theorem ends_comma (rest : List Char) : Ends (',' :: rest) := by
  constructor
  · rintro d first
    exact Option.some.inj first ▸ (by decide)
  · rintro d first
    exact Option.some.inj first ▸ (by decide)

theorem readParams?_eq_none {rest : List Char} (ends : Ends rest) (fuel : Nat) :
    readParams? fuel (skipGap rest) = none := by
  have apart : ∀ c ∈ (skipGap rest).head?, c ≠ '<' ∧ c ≠ '(' ∧ c ≠ '{' := by
    have known : ∀ c ∈ [',', '>', ')', '}', '='], c ≠ '<' ∧ c ≠ '(' ∧ c ≠ '{' :=
      forall_mem_of_all (by decide)
    exact fun c first => known c (ends.2 c first)
  generalize skipGap rest = left at apart
  unfold readParams?
  split
  · rfl
  · exact absurd rfl (apart '<' rfl).1
  · exact absurd rfl (apart '(' rfl).2.1
  · exact absurd rfl (apart '{' rfl).2.2
  · rfl

theorem readMore_closes {rest : List Char} (closes : Closes rest) (fuel : Nat) :
    readMore fuel rest = ([], rest) := by
  cases fuel with
  | zero => rfl
  | succ fuel =>
    unfold readMore
    split
    · rename_i same
      exact absurd (closes.2 ',' (by rw [same]; rfl)) (by decide)
    · rfl

/-! ### The front of a name -/

/-- A name begins neither with a gap nor with the mark of an absolute name. -/
theorem front_of_isName {name : List Char} (isName : IsName name) :
    ∃ first others, name = first :: others ∧ isGap first = false ∧
      (first = ':' → ∃ second more, others = second :: more ∧ second ≠ ':') := by
  rcases isName with ⟨ident, -, spelled⟩ | ⟨ident, isIdent, rfl⟩ |
    ⟨quote, inner, known, -, rfl⟩ | isNumber | ⟨ident, others, rfl, isIdent, -⟩
  · rcases spelled with rfl | rfl
    · exact ⟨'#', ident, rfl, by decide, fun same => absurd same (by decide)⟩
    · exact ⟨'#', ident ++ ['='], rfl, by decide, fun same => absurd same (by decide)⟩
  · obtain ⟨second, more, rfl, start⟩ := isIdent.head
    exact ⟨':', second :: more, rfl, by decide,
      fun _ => ⟨second, more, rfl, (isIdentStart_apart start).2.1⟩⟩
  · refine ⟨quote, inner ++ [quote], rfl, ?_, fun same => ?_⟩
    · rcases known with rfl | rfl <;> decide
    · rcases known with rfl | rfl <;> exact absurd same (by decide)
  · have gapless : ∀ {c : Char}, isGap c = true → c.isDigit = false := by
      intro c gap
      simp only [isGap, Bool.or_eq_true, beq_iff_eq] at gap
      rcases gap with ((rfl | rfl) | rfl) | rfl <;> decide
    rcases isNumber with isUnsigned | ⟨number, rfl, -⟩
    · obtain ⟨first, others, rfl, digit⟩ := isUnsigned.head
      refine ⟨first, others, rfl, ?_, fun same => absurd same (isDigit_apart digit).2.1⟩
      rw [← Bool.not_eq_true]
      exact fun gap => Bool.false_ne_true ((gapless gap).symm.trans digit)
    · exact ⟨'-', number, rfl, by decide, fun same => absurd same (by decide)⟩
  · obtain ⟨first, more, rfl, start⟩ := isIdent.head
    refine ⟨first, more ++ _, rfl, ?_, fun same => absurd same (isIdentStart_apart start).2.1⟩
    rw [← Bool.not_eq_true]
    intro gap
    simp only [isGap, Bool.or_eq_true, beq_iff_eq] at gap
    rcases gap with ((rfl | rfl) | rfl) | rfl <;> exact absurd start (by decide)

theorem front_of_isTagName {name : List Char} (isName : IsTagName name) :
    ∃ first others, name = first :: others ∧ isGap first = false ∧
      (first = ':' → ∃ second more, others = second :: more ∧ second ≠ ':') := by
  rcases isName with isName | ⟨op, -, rfl⟩
  · exact front_of_isName isName
  · exact ⟨'#', op, rfl, by decide, fun same => absurd same (by decide)⟩

theorem TagGrammar.IsTagName.ne_nil {name : List Char} (isName : IsTagName name) : name ≠ [] := by
  obtain ⟨first, others, rfl, -⟩ := front_of_isTagName isName
  exact List.cons_ne_nil _ _

/-- The characters of a name are not taken for a gap or for the mark of an absolute name. -/
theorem solid_of_isTagName {name : List Char} (isName : IsTagName name) (rest : List Char) :
    skipGap (name ++ rest) = name ++ rest ∧ ∀ tail, name ++ rest ≠ ':' :: ':' :: tail := by
  obtain ⟨first, others, rfl, solid, colon⟩ := front_of_isTagName isName
  refine ⟨skipGap_cons solid _, fun tail same => ?_⟩
  obtain ⟨head, tails⟩ := List.cons.inj same
  obtain ⟨second, more, rfl, other⟩ := colon head
  exact other (List.cons.inj tails).1

theorem skipGap_spelling {m : Member} (isName : IsTagName m.name.toList) (spaced marks : Bool)
    (rest : List Char) :
    skipGap (m.spelling spaced marks ++ rest) = m.spelling spaced marks ++ rest := by
  rw [Member.spelling_eq]
  cases marks && m.marked with
  | true =>
    simp only [if_true, List.append_assoc]
    exact skipGap_cons (c := ':') (by decide) _
  | false =>
    simp only [Bool.false_eq_true, if_false, List.nil_append, List.append_assoc]
    exact (solid_of_isTagName isName _).1

/-! ### Reading -/

/-- The member is read back from its spelling, whatever ends it. Three steps of fuel for each
character are enough: one for a member, one for its brackets, one for the list in them. -/
def Member.ReadsBack (spaced marks : Bool) (m : Member) : Prop :=
  ∀ (fuel : Nat) (rest : List Char), 3 * (m.spelling spaced marks).length ≤ fuel → Ends rest →
    (∀ c ∈ rest.head?, m.Leaves c) →
      readMember? fuel (m.spelling spaced marks ++ rest) = some (m.readBack marks, rest)

section

variable {spaced marks : Bool}

theorem ends_trail {rest : List Char} (closes : Closes rest) (ms : List Member) :
    Ends (Member.trail spaced marks ms ++ rest) := by
  cases ms with
  | nil => exact closes.ends
  | cons m ms => exact Member.trail_cons spaced marks m ms ▸ ends_comma _

/-- A member leaves the comma behind it alone, and the last one what stands behind the row. -/
theorem leaves_trail {m : Member} {ms : List Member} {rest : List Char}
    (leaves : ∀ c ∈ rest.head?, Member.LastLeaves (m :: ms) c) :
    ∀ c ∈ (Member.trail spaced marks ms ++ rest).head?, m.Leaves c := by
  intro c first
  cases ms with
  | nil => exact (Member.lastLeaves_cons.mp (leaves c first)).1 rfl
  | cons next ms =>
    rw [Member.trail_cons] at first
    rw [← Option.some.inj first]
    exact m.leaves_of_ne (by decide) (by decide)

theorem readMore_trail {ms : List Member} (isName : ∀ m ∈ ms, IsTagName m.name.toList)
    (read : ∀ m ∈ ms, m.ReadsBack spaced marks) {rest : List Char} (closes : Closes rest)
    (leaves : ∀ c ∈ rest.head?, Member.LastLeaves ms c) (fuel : Nat)
    (enough : 3 * (Member.trail spaced marks ms).length ≤ fuel) :
    readMore fuel (Member.trail spaced marks ms ++ rest) =
      (ms.map (Member.readBack marks), rest) := by
  induction ms generalizing fuel with
  | nil => exact readMore_closes closes fuel
  | cons m ms ih =>
    rw [Member.trail_cons] at enough ⊢
    simp only [List.length_cons, List.length_append] at enough
    obtain ⟨fuel, rfl⟩ : ∃ n, fuel = n + 1 := ⟨fuel - 1, by omega⟩
    have first := read m List.mem_cons_self fuel (Member.trail spaced marks ms ++ rest) (by omega)
      (ends_trail closes ms) (leaves_trail leaves)
    have more := ih (fun m member => isName m (List.mem_cons_of_mem _ member))
      (fun m member => read m (List.mem_cons_of_mem _ member))
      (fun c behind => (Member.lastLeaves_cons.mp (leaves c behind)).2) fuel (by omega)
    simp only [List.cons_append, List.append_assoc]
    rw [readMore, skipGap_cons (by decide)]
    simp only [skipGap_gap, skipGap_spelling (isName m List.mem_cons_self), first, more,
      List.map_cons]

theorem readMembers?_row {ms : List Member} (nonempty : ms ≠ [])
    (isName : ∀ m ∈ ms, IsTagName m.name.toList) (read : ∀ m ∈ ms, m.ReadsBack spaced marks)
    {rest : List Char} (closes : Closes rest)
    (leaves : ∀ c ∈ rest.head?, Member.LastLeaves ms c) (fuel : Nat)
    (enough : 3 * (Member.row spaced marks ms).length + 1 ≤ fuel) :
    readMembers? fuel (Member.row spaced marks ms ++ rest) =
      some (ms.map (Member.readBack marks), rest) := by
  cases ms with
  | nil => exact absurd rfl nonempty
  | cons m ms =>
    rw [Member.row_cons] at enough ⊢
    rw [List.length_append] at enough
    obtain ⟨fuel, rfl⟩ : ∃ n, fuel = n + 1 := ⟨fuel - 1, by omega⟩
    have first := read m List.mem_cons_self fuel (Member.trail spaced marks ms ++ rest) (by omega)
      (ends_trail closes ms) (leaves_trail leaves)
    have more := readMore_trail (fun m member => isName m (List.mem_cons_of_mem _ member))
      (fun m member => read m (List.mem_cons_of_mem _ member)) closes
      (fun c behind => (Member.lastLeaves_cons.mp (leaves c behind)).2) fuel (by omega)
    rw [List.append_assoc, readMembers?, first]
    simp only [more, List.map_cons]

theorem skipGap_row {ms : List Member} (nonempty : ms ≠ [])
    (isName : ∀ m ∈ ms, IsTagName m.name.toList) (rest : List Char) :
    skipGap (Member.row spaced marks ms ++ rest) = Member.row spaced marks ms ++ rest := by
  cases ms with
  | nil => exact absurd rfl nonempty
  | cons m ms =>
    rw [Member.row_cons, List.append_assoc]
    exact skipGap_spelling (isName m List.mem_cons_self) spaced marks _

/-- A name, with or without a mark, is read before the parameters. -/
theorem readMember?_front {name rest : List Char} (isName : IsTagName name)
    (read : readName? (name ++ rest) = some (name, rest)) (marked : Bool) (fuel : Nat) :
    readMember? (fuel + 1) ((if marked then [':', ':'] else []) ++ (name ++ rest)) =
      (readParams? fuel (skipGap rest)).elim
        (some (.make (String.ofList name) marked .none [] [], rest))
        fun ((kind, keys, subs), left) =>
          some (.make (String.ofList name) marked kind keys subs, left) := by
  obtain ⟨solid, unmarked⟩ := solid_of_isTagName isName rest
  cases marked with
  | true =>
    show readMember? (fuel + 1) (':' :: ':' :: (name ++ rest)) = _
    rw [readMember?]
    simp only [solid, read]
    cases readParams? fuel (skipGap rest) <;> rfl
  | false =>
    show readMember? (fuel + 1) (name ++ rest) = _
    unfold readMember?
    split
    rename_i marked left same
    split at same
    · rename_i tail spelled
      exact absurd spelled (unmarked tail)
    · obtain ⟨rfl, rfl⟩ := Prod.mk.inj same
      simp only [read]
      cases readParams? fuel (skipGap rest) <;> rfl

/-! ### Brackets -/

/-- Parameters in a row, in brackets of either style. -/
theorem readParams?_row {kind : BracketStyle} {opening closing : Char}
    (style : (kind, opening, closing) ∈ [(.list, '<', '>'), (.fixed, '(', ')')])
    {subs : List Member} (nonempty : subs ≠ []) (isName : ∀ m ∈ subs, IsTagName m.name.toList)
    (read : ∀ m ∈ subs, m.ReadsBack spaced marks) (leaves : Member.LastLeaves subs closing)
    (rest : List Char) (fuel : Nat)
    (enough : 3 * (Member.row spaced marks subs).length + 1 ≤ fuel) :
    readParams? (fuel + 1) (opening :: (Member.row spaced marks subs ++ closing :: rest)) =
      some ((kind, [], slots (subs.map (Member.readBack marks))), rest) := by
  have bracket : closing ∈ ['>', ')', '}'] ∧ isGap closing = false := by
    simp only [List.mem_cons, Prod.mk.injEq, List.not_mem_nil, or_false] at style
    rcases style with ⟨-, -, rfl⟩ | ⟨-, -, rfl⟩ <;> decide
  have readSubs := readMembers?_row nonempty isName read (closes_bracket bracket.1 rest)
    (fun c first => Option.some.inj first ▸ leaves) fuel enough
  simp only [List.mem_cons, Prod.mk.injEq, List.not_mem_nil, or_false] at style
  rcases style with ⟨rfl, rfl, rfl⟩ | ⟨rfl, rfl, rfl⟩
  all_goals
    rw [readParams?, skipGap_row nonempty isName, readSubs]
    simp only [Option.getD_some, skipGap_cons bracket.2]

theorem readParams?_hash {keys subs : List Member} (nonemptyKeys : keys ≠ [])
    (nonemptySubs : subs ≠ []) (isName : ∀ m ∈ keys ++ subs, IsTagName m.name.toList)
    (read : ∀ m ∈ keys ++ subs, m.ReadsBack spaced marks)
    (leaves : spaced = false → Member.LastLeaves keys '=') (rest : List Char) (fuel : Nat)
    (enough : 3 * (Member.row spaced marks keys).length + 1 ≤ fuel)
    (enough' : 3 * (Member.row spaced marks subs).length + 1 ≤ fuel) :
    readParams? (fuel + 1) ('{' :: (Member.row spaced marks keys ++ (gap spaced ++
        '=' :: '>' :: (gap spaced ++ (Member.row spaced marks subs ++ '}' :: rest))))) =
      some ((.hash, slots (keys.map (Member.readBack marks)),
        slots (subs.map (Member.readBack marks))), rest) := by
  obtain ⟨keyNames, subNames⟩ := List.forall_mem_append.mp isName
  obtain ⟨readKeys, readSubs⟩ := List.forall_mem_append.mp read
  have arrow : ∀ tail, ∀ c ∈ (gap spaced ++ '=' :: '>' :: tail).head?,
      Member.LastLeaves keys c := by
    intro tail c first
    cases spaced with
    | true => exact Option.some.inj first ▸ Member.lastLeaves_of_ne keys (by decide) (by decide)
    | false => exact Option.some.inj first ▸ leaves rfl
  have closing : ∀ c ∈ ('}' :: rest).head?, Member.LastLeaves subs c :=
    fun c first => Option.some.inj first ▸ Member.lastLeaves_of_ne subs (by decide) (by decide)
  rw [readParams?, skipGap_row nonemptyKeys keyNames,
    readMembers?_row nonemptyKeys keyNames readKeys (closes_arrow spaced _) (arrow _) fuel enough]
  simp only [skipGap_gap, skipGap_cons (c := '=') (by decide), skipGap_row nonemptySubs subNames,
    readMembers?_row nonemptySubs subNames readSubs (closes_bracket (c := '}') (by decide) rest)
      closing fuel enough', skipGap_cons (c := '}') (by decide)]

theorem toList_angle : "<".toList = ['<'] ∧ ">".toList = ['>'] := by decide

theorem toList_round : "(".toList = ['('] ∧ ")".toList = [')'] := by decide

theorem toList_curly : "\x7b".toList = ['{'] ∧ " => ".toList = [' ', '=', '>', ' '] ∧
    "\x7d".toList = ['}'] := by decide

/-- The spelled parameters of a member are read back. -/
theorem readParams?_brackets {m : Member} (fits : m.Fits) (slotsFit : m.SlotsFit)
    (known : m.isBare = false) (separated : m.Separated spaced)
    (isName : ∀ u ∈ m.params, ∀ inner ∈ u.members, IsTagName inner.name.toList)
    (read : ∀ u ∈ m.params, ∀ inner ∈ u.members, inner.ReadsBack spaced marks)
    (rest : List Char) (fuel : Nat)
    (enough : 3 * (m.bracketSpelling spaced marks).length ≤ fuel) :
    readParams? fuel (m.bracketSpelling spaced marks ++ rest) =
      some ((m.kind, slots ((m.keys.flatMap Ty.members).map (Member.readBack marks)),
        slots ((m.subs.flatMap Ty.members).map (Member.readBack marks))), rest) := by
  have nonemptySubs := slotsFit.subs_ne_nil known
  have inner : ∀ {p : Member → Prop}, (∀ u ∈ m.params, ∀ inner ∈ u.members, p inner) →
      ∀ inner ∈ m.keys.flatMap Ty.members ++ m.subs.flatMap Ty.members, p inner := by
    intro p all inner listed
    rw [← List.flatMap_append] at listed
    obtain ⟨u, param, inside⟩ := List.mem_flatMap.mp listed
    exact all u param inner inside
  have names := inner isName
  have readInner := inner read
  obtain ⟨name, marked, kind, keys, subs⟩ := m
  simp only [Member.bracketSpelling, known, Bool.false_eq_true, if_false] at enough ⊢
  simp only [Member.Fits, Member.SlotsFit] at *
  cases kind with
  | none => exact absurd (fits.mp rfl).2 nonemptySubs
  | list =>
    rw [if_neg (by decide)] at slotsFit
    subst slotsFit
    simp only [BracketStyle.around, List.length_cons, List.length_append,
      List.length_nil] at enough
    obtain ⟨fuel, rfl⟩ : ∃ n, fuel = n + 1 := ⟨fuel - 1, by omega⟩
    have readSubs := readParams?_row List.mem_cons_self (Ty.flatMap_members_ne_nil nonemptySubs)
      names readInner (separated.list rfl) rest fuel (by omega)
    simpa [BracketStyle.around, slots] using readSubs
  | fixed =>
    rw [if_neg (by decide)] at slotsFit
    subst slotsFit
    simp only [BracketStyle.around, List.length_cons, List.length_append,
      List.length_nil] at enough
    obtain ⟨fuel, rfl⟩ : ∃ n, fuel = n + 1 := ⟨fuel - 1, by omega⟩
    have readSubs := readParams?_row (List.mem_cons_of_mem _ List.mem_cons_self)
      (Ty.flatMap_members_ne_nil nonemptySubs) names readInner
      (Member.lastLeaves_of_ne _ (by decide) (by decide)) rest fuel (by omega)
    simpa [BracketStyle.around, slots] using readSubs
  | hash =>
    rw [if_pos rfl] at slotsFit
    simp only [BracketStyle.around, List.length_cons, List.length_append,
      List.length_nil] at enough
    obtain ⟨fuel, rfl⟩ : ∃ n, fuel = n + 1 := ⟨fuel - 1, by omega⟩
    have readBoth := readParams?_hash (Ty.flatMap_members_ne_nil slotsFit.1)
      (Ty.flatMap_members_ne_nil nonemptySubs) names readInner (separated.hash rfl) rest
      fuel (by omega) (by omega)
    simpa [BracketStyle.around] using readBoth

/-! ### Reading a written type -/

/-- An opening bracket stands behind the name. -/
theorem Member.exists_bracketSpelling (spaced marks : Bool) {m : Member}
    (bracketed : m.kind ≠ .none) (known : m.isBare = false) :
    ∃ c ∈ ['<', '(', '{'], ∃ tail, m.bracketSpelling spaced marks = c :: tail := by
  rw [Member.bracketSpelling, if_neg (by simp [known])]
  cases kind : m.kind with
  | none => exact absurd kind bracketed
  | list => exact ⟨'<', by decide, _, rfl⟩
  | fixed => exact ⟨'(', by decide, _, rfl⟩
  | hash => exact ⟨'{', by decide, _, rfl⟩

/-- The bracket does not belong to the name. -/
theorem readName?_brackets (spaced marks : Bool) {m : Member} (isName : IsTagName m.name.toList)
    (bracketed : m.kind ≠ .none) (known : m.isBare = false) (rest : List Char) :
    readName? (m.name.toList ++ (m.bracketSpelling spaced marks ++ rest)) =
        some (m.name.toList, m.bracketSpelling spaced marks ++ rest) ∧
      skipGap (m.bracketSpelling spaced marks ++ rest) =
        m.bracketSpelling spaced marks ++ rest := by
  have opens : ∀ c ∈ ['<', '(', '{'],
      c ∈ '=' :: stopChars ∧ (c ≠ '=' ∧ c ≠ '>') ∧ isGap c = false :=
    forall_mem_of_all (by decide)
  obtain ⟨c, bracket, tail, spelled⟩ :=
    Member.exists_bracketSpelling spaced marks bracketed known
  obtain ⟨delimiter, other, solid⟩ := opens c bracket
  rw [spelled, List.cons_append]
  refine ⟨readName?_of_not_takes isName ?_ ?_, skipGap_cons solid _⟩
  · exact fun d first => Option.some.inj first ▸ delimiter
  · intro d first takes
    rw [← Option.some.inj first] at takes
    rcases takes.eq_or delimiter with same | same
    · exact other.1 same
    · exact other.2 same

theorem Member.make_eq {kind : BracketStyle} {subs : List Ty} (bracketed : kind ≠ .none)
    (nonemptySubs : subs ≠ []) (name : String) (marked : Bool) (keys : List Ty) :
    Member.make name marked kind keys subs = ⟨name, marked, kind, keys, subs⟩ := by
  unfold Member.make
  cases subs with
  | nil => exact absurd rfl nonemptySubs
  | cons sub subs => cases kind <;> simp_all

/-- A member is read back if the members in its parameters are. -/
theorem Member.readsBack {m : Member} (isName : IsTagName m.name.toList) (fits : m.Fits)
    (slotsFit : m.SlotsFit) (separated : m.isBare = false → m.Separated spaced)
    (innerNames : ∀ u ∈ m.params, ∀ inner ∈ u.members, IsTagName inner.name.toList)
    (read : m.isBare = false → ∀ u ∈ m.params, ∀ inner ∈ u.members,
      inner.ReadsBack spaced marks) : m.ReadsBack spaced marks := by
  intro fuel rest enough ends leaves
  rw [Member.spelling_eq] at enough ⊢
  have long := List.length_pos_of_ne_nil isName.ne_nil
  simp only [List.length_append, List.append_assoc] at enough ⊢
  obtain ⟨fuel, rfl⟩ : ∃ n, fuel = n + 1 := ⟨fuel - 1, by omega⟩
  cases bare : m.isBare with
  | true =>
    have named := readName?_of_not_takes isName ends.1 fun c first => leaves c first bare
    rw [Member.bracketSpelling, if_pos bare, List.nil_append, readMember?_front isName named,
      readParams?_eq_none ends, Member.readBack_bare bare, String.ofList_toList]
    rfl
  | false =>
    have nonemptySubs := slotsFit.subs_ne_nil bare
    have bracketed : m.kind ≠ .none := fun none => nonemptySubs (fits.mp none).2
    obtain ⟨named, solid⟩ := readName?_brackets spaced marks isName bracketed bare rest
    have nonemptySlots : slots ((m.subs.flatMap Ty.members).map (Member.readBack marks)) ≠ [] := by
      simpa [slots] using Ty.flatMap_members_ne_nil nonemptySubs
    rw [readMember?_front isName named, solid, readParams?_brackets fits slotsFit bare
      (separated bare) innerNames (read bare) rest fuel (by omega)]
    simp only [Option.elim_some, Member.make_eq bracketed nonemptySlots,
      Member.readBack_params bare, String.ofList_toList]

theorem Ty.readsBack {t : Ty} (normal : t.Normal) (spellable : t.Spellable)
    (separated : t.Separated spaced) : ∀ m ∈ t.members, m.ReadsBack spaced marks := by
  -- by induction on the tree: the parameters of every member are read back already
  induction spellable with
  | @intro t fit inner ih =>
    obtain ⟨-, fits, params⟩ := normal
    obtain ⟨apart, inside⟩ := separated
    intro m member
    refine Member.readsBack (fit m member).1 (fits m member) (fit m member).2 (apart m member)
      ?_ ?_
    · intro u param
      obtain ⟨names, -⟩ := inner m member u param
      exact fun n inside => (names n inside).1
    · exact fun known u param =>
        ih m member u param (params m member u param) (inside m member known u param)

/-- A type is read back from its spelling if no name takes what is spelled behind it. -/
theorem Ty.ofTag?_spelling {t : Ty} (normal : t.Normal) (spellable : t.Spellable)
    (separated : t.Separated spaced) :
    Ty.ofTag? (.ofList (t.spelling spaced marks)) = some (t.readBack marks) := by
  have readsBack : ∀ m ∈ t.members, m.ReadsBack spaced marks :=
    Ty.readsBack normal spellable separated
  have isName : ∀ m ∈ t.members, IsTagName m.name.toList := by
    obtain ⟨fit, -⟩ := spellable
    exact fun m member => (fit m member).1
  have gap : skipGap (Member.row spaced marks t.members ++ []) = _ :=
    skipGap_row t.members_ne_nil isName []
  have read := readMembers?_row t.members_ne_nil isName readsBack closes_nil (by simp)
    (3 * (Member.row spaced marks t.members).length + 3) (by omega)
  rw [List.append_nil] at gap read
  rw [Ty.ofTag?, Ty.spelling_eq, String.toList_ofList, readAll?, gap, read]
  rfl

/-- Names that are no operators take nothing that is written right behind them. -/
theorem Ty.Spelled.separated {t : Ty} (spelled : t.Spelled) : t.Separated true := by
  induction spelled with
  | @intro t fit inner ih =>
    refine .intro (fun m member _ => ⟨fun _ last found _ => ?_, fun _ compact => ?_⟩)
      fun m member _ u param => ih m member u param
    · obtain ⟨u, sub, inside⟩ := List.mem_flatMap.mp (List.mem_of_getLast? found)
      obtain ⟨names, -⟩ := inner m member u (List.mem_append_right _ sub)
      exact (names last inside).1.not_takes (by decide)
    · exact absurd compact (by decide)

end

variable {marks : Bool}

/-- A written type is read. -/
theorem Ty.ofTag?_text {t : Ty} (normal : t.Normal) (spelled : t.Spelled) :
    Ty.ofTag? (t.text marks) = some (t.readBack marks) := by
  rw [← Ty.ofTag?_spelling normal spelled.spellable spelled.separated, Ty.spelling_spaced,
    String.ofList_toList]

theorem Ty.text_ofMembers_readBack {t : Ty} (normal : t.Normal) :
    (t.readBack marks).text marks = t.text marks := by
  obtain ⟨distinct, -, -⟩ := normal
  have written : ∀ shown, (t.members.map (Member.readBack marks)).map (Member.text shown) =
      t.members.map (Member.text (marks && shown)) := by
    intro shown
    rw [List.map_map]
    exact List.map_congr_left (Ty.text_readBack marks shown t)
  have tags : ((t.members.map (Member.readBack marks)).map Member.tag).Nodup := by
    show ((t.members.map (Member.readBack marks)).map (Member.text false)).Nodup
    rw [written false, Bool.and_false]
    exact distinct
  have kept : (t.readBack marks).members = t.members.map (Member.readBack marks) := by
    rw [Ty.readBack, Ty.members_ofMembers (by simpa using t.members_ne_nil)]
    exact distinctFrom_eq_self tags fun _ _ => List.not_mem_nil
  rw [Ty.text_eq_joined, Ty.text_eq_joined, kept, Member.joined, Member.joined, written,
    Bool.and_self]

/-- Tags are read, and what is read has the same tag; so it is with marks. -/
theorem Ty.ofTag?_written (t : Ty) (normal : t.Normal) (spelled : t.Spelled) :
    (∃ u, Ty.ofTag? t.tag = some u ∧ u.tag = t.tag) ∧
      ∃ u, Ty.ofTag? t.markedTag = some u ∧ u.markedTag = t.markedTag :=
  ⟨⟨_, Ty.ofTag?_text normal spelled, Ty.text_ofMembers_readBack normal⟩,
    _, Ty.ofTag?_text normal spelled, Ty.text_ofMembers_readBack normal⟩

theorem Ty.spelled_ofMembers {ms : List Member} (nonempty : ms ≠ [])
    (fit : ∀ m ∈ ms, IsName m.name.toList ∧ m.SlotsFit)
    (params : ∀ m ∈ ms, ∀ u ∈ m.params, u.Spelled) : (Ty.ofMembers ms).Spelled :=
  .intro (fun m member => fit m (Ty.mem_of_mem_ofMembers nonempty member))
    fun m member => params m (Ty.mem_of_mem_ofMembers nonempty member)

theorem Ty.spelled_single {m : Member} (isName : IsName m.name.toList) (slotsFit : m.SlotsFit)
    (params : ∀ u ∈ m.params, u.Spelled) : (Ty.single m).Spelled := by
  have only : ∀ other ∈ (Ty.single m).members, other = m := by
    simp [Ty.single, Ty.members]
  refine .intro (fun other member => ?_) fun other member => only other member ▸ params
  exact only other member ▸ ⟨isName, slotsFit⟩

theorem Ty.spelled_named {name : String} (isName : IsName name.toList) :
    (Ty.single (.named name)).Spelled :=
  Ty.spelled_single isName rfl fun _ param => absurd param List.not_mem_nil

/-- A relative name with plain names in its brackets is read as it is written. -/
theorem Ty.ofTag?_of_words {m : Member} (isName : IsName m.name.toList) (fits : m.Fits)
    (slotsFit : m.SlotsFit) (known : m.isBare = false) (relative : m.marked = false)
    (words : ∀ u ∈ m.params, ∃ word : String, IsName word.toList ∧ u = .single (.named word)) :
    Ty.ofTag? (Ty.single m).tag = some (.single m) := by
  have normal : (Ty.single m).Normal := by
    refine Ty.normal_single fits fun u param => ?_
    obtain ⟨word, -, rfl⟩ := words u param
    exact Ty.normal_named word
  have spelled : (Ty.single m).Spelled := by
    refine Ty.spelled_single isName slotsFit fun u param => ?_
    obtain ⟨word, isWord, rfl⟩ := words u param
    exact Ty.spelled_named isWord
  have kept : ∀ ts : List Ty, (∀ u ∈ ts, u ∈ m.params) →
      slots ((ts.flatMap Ty.members).map (Member.readBack false)) = ts := by
    intro ts params
    induction ts with
    | nil => rfl
    | cons u ts ih =>
      obtain ⟨word, -, rfl⟩ := words u (params u List.mem_cons_self)
      exact congrArg _ (ih fun u member => params u (List.mem_cons_of_mem _ member))
  have same : m.readBack false = m := by
    rw [Member.readBack_params known, kept m.keys fun u key => List.mem_append_left _ key,
      kept m.subs fun u sub => List.mem_append_right _ sub, Bool.false_and, ← relative]
    cases m
    rfl
  have whole : (Ty.single m).readBack false = .single (m.readBack false) := rfl
  rw [Ty.tag, Ty.ofTag?_text normal spelled, whole, same]

/-- `::Hash{'>', :on => ::A::B?<#size=>, nil}`, where `'>', :on` is one key, the value is a union
of two members, and a parameter `undefined` stands in the brackets of `nil`. -/
def Ty.crowded : Ty :=
  .ofMembers [.hash "Hash" (.ofMembers [.named "'>'", .named ":on"])
    (.ofMembers [.list "A::B?" [.ofMembers [.named "#size="]],
      .make "nil" false .list [] [.ofMembers [.named "undefined"]]])]

theorem Ty.ofTag?_crowded : Ty.crowded.Normal ∧ Ty.crowded.Spelled ∧
    (∃ u, Ty.ofTag? Ty.crowded.tag = some u ∧ u.tag = Ty.crowded.tag) ∧
      ∃ u, Ty.ofTag? Ty.crowded.markedTag = some u ∧ u.markedTag = Ty.crowded.markedTag := by
  have leaves : ∀ names : List String, (Ty.ofMembers (names.map Member.named)).Normal :=
    fun names => Ty.normal_ofMembers (by simp [Member.fits_named])
      (by simp [Member.named, Member.params])
  have normal : Ty.crowded.Normal := by
    refine Ty.normal_ofMembers (by simp [Member.hash, Member.fits_make]) ?_
    simp only [List.mem_singleton, forall_eq, Member.hash, Member.make, Member.params,
      List.forall_mem_append]
    refine ⟨leaves ["'>'", ":on"], Ty.normal_ofMembers ?_ ?_⟩
    · exact List.forall_mem_cons.mpr ⟨Member.fits_make _ _ _ _ _,
        List.forall_mem_singleton.mpr (by simp [Member.Fits])⟩
    · simp only [List.forall_mem_cons, Member.list, Member.make, Member.params, List.nil_append,
        List.mem_singleton, forall_eq]
      exact ⟨leaves ["#size="], leaves ["undefined"]⟩
  have words : ∀ {names : List String}, names ≠ [] → (∀ name ∈ names, IsName name.toList) →
      (Ty.ofMembers (names.map Member.named)).Spelled :=
    fun nonempty isName => Ty.spelled_ofMembers (by simpa using nonempty)
      (by simpa [Member.named, Member.SlotsFit] using isName)
      (by simp [Member.named, Member.params])
  have hash : IsName "Hash".toList :=
    .inr (.inr (.inr (.inr (IsIdent.isPath ⟨'H', ['a', 's', 'h'], [], by decide⟩))))
  have text : IsName "'>'".toList := .inr (.inr (.inl ⟨'\'', ['>'], by decide, by decide, rfl⟩))
  have symbol : IsName ":on".toList := .inr (.inl ⟨['o', 'n'], ⟨'o', ['n'], [], by decide⟩, rfl⟩)
  have path : IsName "A::B?".toList :=
    .inr (.inr (.inr (.inr ⟨['A'], [['B', '?']], rfl, ⟨'A', [], [], by decide⟩,
      List.forall_mem_singleton.mpr ⟨'B', [], ['?'], by decide⟩⟩)))
  have setter : IsName "#size=".toList :=
    .inl ⟨['s', 'i', 'z', 'e'], ⟨'s', ['i', 'z', 'e'], [], by decide⟩, .inr rfl⟩
  have nil : IsName "nil".toList := isName_of_builtin (by decide)
  have unknown : IsName "undefined".toList := isName_of_builtin (by decide)
  have spelled : Ty.crowded.Spelled := by
    refine Ty.spelled_ofMembers (by simp) ?_ ?_
    · exact List.forall_mem_singleton.mpr
        ⟨hash, by simp [Member.hash, Member.make, Member.SlotsFit]⟩
    simp only [List.mem_singleton, forall_eq, Member.hash, Member.make, Member.params,
      List.forall_mem_append]
    refine ⟨words (by simp) (List.forall_mem_cons.mpr ⟨text, List.forall_mem_singleton.mpr symbol⟩),
      Ty.spelled_ofMembers (by simp) ?_ ?_⟩
    · exact List.forall_mem_cons.mpr ⟨⟨path, rfl⟩, List.forall_mem_singleton.mpr ⟨nil, rfl⟩⟩
    · simp only [List.forall_mem_cons, Member.list, Member.make, Member.params, List.nil_append,
        List.mem_singleton, forall_eq]
      exact ⟨words (by simp) (List.forall_mem_singleton.mpr setter),
        words (by simp) (List.forall_mem_singleton.mpr unknown)⟩
  exact ⟨normal, spelled, Ty.ofTag?_written Ty.crowded normal spelled⟩

end DuckInfer
