import DuckInfer.Proofs.Ty.ReadBack

/-!
Constant paths read as types. Sources may write letters in constants that tags do not know; such a
path spells no type. Main statement: a constant path spells no type, or the one whose only member
has this very name.
-/

namespace DuckInfer

namespace TagGrammar

/-! ### What was read, and the rest -/

theorem readMark_whole (s : List Char) : (readMark s).1 ++ (readMark s).2 = s := by
  unfold readMark
  split <;> rfl

theorem readIdent?_whole {s ident rest : List Char} (read : readIdent? s = some (ident, rest)) :
    ident ++ rest = s := by
  cases s with
  | nil => exact absurd read (by simp [readIdent?])
  | cons c s =>
    rw [readIdent?] at read
    split at read
    · have marked := readMark_whole (s.dropWhile isIdentRest)
      generalize readMark (s.dropWhile isIdentRest) = found at read marked
      obtain ⟨rfl, rfl⟩ := Prod.mk.inj (Option.some.inj read)
      rw [List.append_assoc, marked, List.cons_append, List.takeWhile_append_dropWhile]
    · exact absurd read (by simp)

theorem readSegments_whole (fuel : Nat) (s : List Char) :
    (readSegments fuel s).1 ++ (readSegments fuel s).2 = s := by
  induction fuel generalizing s with
  | zero => rfl
  | succ fuel ih =>
    unfold readSegments
    split
    · split
      · rename_i ident left read
        simp only [List.cons_append, List.append_assoc, ih]
        rw [readIdent?_whole read]
      · rfl
    · rfl

theorem readPath?_whole {s path rest : List Char} (read : readPath? s = some (path, rest)) :
    path ++ rest = s := by
  obtain ⟨⟨ident, left⟩, first, segments⟩ := Option.map_eq_some_iff.mp read
  obtain ⟨rfl, rfl⟩ := Prod.mk.inj segments
  rw [List.append_assoc, readSegments_whole, readIdent?_whole first]

/-! ### Characters of constants -/

/-- A constant begins with a capital letter, or a letter that tags do not know. -/
def isConstantStart (c : Char) : Bool :=
  c.isUpper || decide (128 ≤ c.val)

/-- Letters, digits, underscores, and the colons between segments. -/
def isConstantRest (c : Char) : Bool :=
  c.isAlphanum || c == '_' || c == ':' || decide (128 ≤ c.val)

/-- The characters of a constant path behind the mark of an absolute one. -/
def IsConstantPath (path : List Char) : Prop :=
  ∃ first others, path = first :: others ∧ isConstantStart first = true ∧
    others.all isConstantRest = true

/-- What a constant path begins with begins no name of another form. -/
theorem isConstantStart_apart {first : Char} (start : isConstantStart first = true) :
    first ≠ '#' ∧ first ≠ ':' ∧ (first ≠ '\'' ∧ first ≠ '"') ∧ first ≠ '-' ∧
      first.isDigit = false ∧ isGap first = false := by
  have other : ∀ {c : Char}, isConstantStart c = false → first ≠ c := by
    rintro c none rfl
    exact Bool.false_ne_true (none.symm.trans start)
  refine ⟨other (by decide), other (by decide), ⟨other (by decide), other (by decide)⟩,
    other (by decide), ?_, ?_⟩
  · rcases Bool.or_eq_true_iff.mp start with upper | far
    · have letter : (first.isUpper || first.isLower) = true := by rw [upper, Bool.true_or]
      exact isDigit_of_isAlpha letter
    · rw [← Bool.not_eq_true]
      intro digit
      have bounds := range_of_isDigit digit
      have far : 128 ≤ first.val := of_decide_eq_true far
      grind
  · simp [isGap, other (c := ' ') (by decide), other (c := '\t') (by decide),
      other (c := '\r') (by decide), other (c := '\n') (by decide)]

/-- No character of a constant path separates tokens. -/
theorem isConstantRest_apart {c : Char} (rest : isConstantRest c = true) :
    isGap c = false ∧ c ≠ '<' ∧ c ≠ '(' ∧ c ≠ '{' ∧ c ≠ ',' := by
  have other : ∀ {d : Char}, isConstantRest d = false → c ≠ d := by
    rintro d none rfl
    exact Bool.false_ne_true (none.symm.trans rest)
  refine ⟨?_, other (by decide), other (by decide), other (by decide), other (by decide)⟩
  simp [isGap, other (d := ' ') (by decide), other (d := '\t') (by decide),
    other (d := '\r') (by decide), other (d := '\n') (by decide)]

namespace IsConstantPath

variable {path : List Char}

theorem readName?_eq (isPath : IsConstantPath path) : readName? path = readPath? path := by
  obtain ⟨first, others, rfl, start, -⟩ := isPath
  obtain ⟨duck, symbol, quotes, unsigned, digit, -⟩ := isConstantStart_apart start
  unfold readName?
  rw [readDuck?_eq_none duck, readSymbol?_eq_none symbol, readQuoted?_eq_none quotes,
    readNumber?_eq_none unsigned digit]
  rfl

/-- Behind the front that was read stand characters of the path. -/
theorem all_of_readPath? (isPath : IsConstantPath path) {name rest : List Char}
    (read : readPath? path = some (name, rest)) : rest.all isConstantRest = true := by
  obtain ⟨first, others, rfl, -, all⟩ := isPath
  have whole := readPath?_whole read
  cases name with
  | nil =>
    -- the first identifier of a path is never empty
    obtain ⟨⟨ident, left⟩, begun, segments⟩ := Option.map_eq_some_iff.mp read
    obtain ⟨none, -⟩ := List.append_eq_nil_iff.mp (Prod.mk.inj segments).1
    subst none
    rw [readIdent?] at begun
    split at begun
    · exact absurd (Prod.mk.inj (Option.some.inj begun)).1 (by simp)
    · exact absurd begun (by simp)
  | cons c name =>
    obtain ⟨-, rfl⟩ := List.cons.inj whole
    exact (Bool.and_eq_true_iff.mp (List.all_append ▸ all)).2

end IsConstantPath

/-- Characters of a constant path are not taken for a gap, brackets or a comma. -/
theorem solid_of_all {rest : List Char} (all : rest.all isConstantRest = true) (fuel : Nat) :
    skipGap rest = rest ∧ readParams? fuel rest = none ∧ readMore fuel rest = ([], rest) := by
  have apart : ∀ c ∈ rest.head?,
      isGap c = false ∧ c ≠ '<' ∧ c ≠ '(' ∧ c ≠ '{' ∧ c ≠ ',' := by
    intro c first
    exact isConstantRest_apart (List.all_eq_true.mp all c (List.mem_of_mem_head? first))
  have skipped : skipGap rest = rest := by
    cases rest with
    | nil => rfl
    | cons c rest => exact skipGap_cons (apart c rfl).1 rest
  refine ⟨skipped, ?_, ?_⟩
  · unfold readParams?
    split
    · rfl
    · exact absurd rfl (apart '<' rfl).2.1
    · exact absurd rfl (apart '(' rfl).2.2.1
    · exact absurd rfl (apart '{' rfl).2.2.2.1
    · rfl
  · cases fuel with
    | zero => rfl
    | succ fuel =>
      rw [readMore, skipped]
      split
      · exact absurd rfl (apart ',' rfl).2.2.2.2
      · rfl

theorem readMember?_constant {path : List Char} (isPath : IsConstantPath path) (marked : Bool)
    (fuel : Nat) :
    readMember? (fuel + 1) ((if marked then "::" else "").toList ++ path) =
      (readPath? path).map fun (name, rest) =>
        (.make (String.ofList name) marked .none [] [], rest) := by
  have named := isPath.readName?_eq
  have bare : ∀ name rest, readPath? path = some (name, rest) →
      readParams? fuel (skipGap rest) = none := by
    intro name rest read
    obtain ⟨skipped, none, -⟩ := solid_of_all (isPath.all_of_readPath? read) fuel
    rw [skipped, none]
  obtain ⟨first, others, rfl, start, -⟩ := isPath
  obtain ⟨-, colon, -, -, -, solid⟩ := isConstantStart_apart start
  cases marked with
  | true =>
    show readMember? (fuel + 1) (':' :: ':' :: first :: others) = _
    rw [readMember?]
    simp only [skipGap_cons solid, named]
    cases read : readPath? (first :: others) with
    | none => rfl
    | some found => simp only [bare found.1 found.2 read, Option.map_some]
  | false =>
    show readMember? (fuel + 1) (first :: others) = _
    unfold readMember?
    split
    rename_i marked left same
    split at same
    · rename_i tail spelled
      exact absurd (List.cons.inj spelled).1 colon
    · obtain ⟨rfl, rfl⟩ := Prod.mk.inj same
      rw [named]
      cases read : readPath? (first :: others) with
      | none => rfl
      | some found => simp only [bare found.1 found.2 read, Option.map_some]

end TagGrammar

open TagGrammar

/-- The path of a constant as sources write it, possibly an absolute one. -/
def IsConstant (path : String) : Prop :=
  ∃ (marked : Bool) (name : List Char),
    path = (if marked then "::" else "") ++ String.ofList name ∧ IsConstantPath name

/-- A constant path spells no type, or the one that has this name and nothing else. -/
theorem Ty.ofTag?_constant {name : List Char} (isPath : IsConstantPath name) (marked : Bool) :
    Ty.ofTag? ((if marked then "::" else "") ++ String.ofList name) = none ∨
      Ty.ofTag? ((if marked then "::" else "") ++ String.ofList name) =
        some (.single ⟨String.ofList name, marked, .none, [], []⟩) := by
  have front : skipGap ((if marked then "::" else "").toList ++ name) =
      (if marked then "::" else "").toList ++ name := by
    obtain ⟨first, others, rfl, start, -⟩ := isPath
    cases marked with
    | true => rfl
    | false => exact skipGap_cons (isConstantStart_apart start).2.2.2.2.2 others
  have once : ∀ fuel, readMembers? (fuel + 2) ((if marked then "::" else "").toList ++ name) =
      (readPath? name).map fun (found, rest) =>
        ([.make (String.ofList found) marked .none [] []], rest) := by
    intro fuel
    rw [readMembers?, readMember?_constant isPath marked fuel]
    cases read : readPath? name with
    | none => rfl
    | some found =>
      have more := (solid_of_all (isPath.all_of_readPath? read) (fuel + 1)).2.2
      simp only [Option.map_some, more]
  rw [Ty.ofTag?, readAll?, String.toList_append, String.toList_ofList, front, once]
  cases read : readPath? name with
  | none => exact Or.inl rfl
  | some found =>
    obtain ⟨path, rest⟩ := found
    have skipped := (solid_of_all (isPath.all_of_readPath? read) 0).1
    simp only [Option.map_some, skipped]
    cases rest with
    | nil =>
      have whole := readPath?_whole read
      rw [List.append_nil] at whole
      exact Or.inr (by rw [whole]; rfl)
    | cons c rest => exact Or.inl rfl

/-! ### What constants are not -/

namespace TagGrammar.IsConstantPath

variable {name : List Char}

/-- A constant path is no word that begins with a small letter. -/
theorem ne_word (isPath : IsConstantPath name) (word : String)
    (small : word.toList.head?.any isConstantStart = false) : String.ofList name ≠ word := by
  rintro rfl
  obtain ⟨first, others, rfl, start, -⟩ := isPath
  simp [start] at small

theorem classOfLiteral?_eq (isPath : IsConstantPath name) :
    classOfLiteral? (String.ofList name) = none := by
  have words : (String.ofList name == "true" || String.ofList name == "false") = false := by
    simp [isPath.ne_word "true" (by decide), isPath.ne_word "false" (by decide)]
  obtain ⟨first, others, rfl, start, -⟩ := isPath
  obtain ⟨-, colon, ⟨single, double⟩, minus, digit, -⟩ := isConstantStart_apart start
  simp only [classOfLiteral?, String.toList_ofList, words]
  simp [colon, single, double, minus, digit]

end TagGrammar.IsConstantPath

end DuckInfer
