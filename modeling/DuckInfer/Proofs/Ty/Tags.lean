import DuckInfer.Proofs.Ty.ReadBack

/-!
What a tag tells about a member. Types are compared by tag, so what is asked of a type should not
depend on which of two members with one tag it has. Main statement: two members with one tag have
the same name, and their parameters are looked at in the same way, unless nothing is known about
any parameter; the tag does not tell such parameters from none.
-/

namespace DuckInfer

namespace TagGrammar

/-! ### Names in front of a text -/

theorem isTagName_of_isIdent {name : List Char} (isIdent : IsIdent name) : IsTagName name :=
  .inl (.inr (.inr (.inr (.inr isIdent.isPath))))

/-- No other name begins like an operator. -/
theorem not_isName_of_operator {name op rest rest' : List Char} (isName : IsName name)
    (listed : op ∈ operators) : name ++ rest ≠ '#' :: op ++ rest' := by
  intro same
  obtain ⟨first, others, rfl, -⟩ := front_of_isName isName
  obtain ⟨rfl, behind⟩ := List.cons.inj same
  obtain ⟨c, more, rfl, start⟩ := head_of_isName_duck isName
  obtain ⟨d, tail, rfl, other⟩ := head_of_operator listed
  obtain ⟨rfl, -⟩ := List.cons.inj behind
  exact Bool.false_ne_true (other.symm.trans start)

/-- A text does not go on behind a closing bracket, and then the other text is not at its end. -/
def Settles (rest other : List Char) : Prop :=
  Stops rest ∧ ∀ tail, rest = '>' :: tail → tail = [] ∧ other ≠ []

theorem operator_unique {op op' rest rest' : List Char} (listed : op ∈ operators)
    (listed' : op' ∈ operators) (settles : Settles rest rest') {more : List Char}
    (longer : op' = op ++ more) (left : rest = more ++ rest') : more = [] := by
  cases more with
  | nil => rfl
  | cons c tail =>
    have stop : c ∈ stopChars := settles.1 c (by rw [left]; rfl)
    obtain ⟨rfl | rfl, rfl⟩ := operator_extends listed listed' (List.mem_cons_of_mem _ stop) longer
    · exact absurd stop (by decide)
    · obtain ⟨none, some⟩ := settles.2 rest' left
      exact absurd none some

/-- A name and the text behind it can be told from the whole text. -/
theorem name_unique {name name' rest rest' : List Char} (isName : IsTagName name)
    (isName' : IsTagName name') (settles : Settles rest rest') (settles' : Settles rest' rest)
    (same : name ++ rest = name' ++ rest') : name = name' ∧ rest = rest' := by
  have names : name = name' := by
    rcases isName with isName | ⟨op, listed, rfl⟩
    · rcases isName' with isName' | ⟨op', listed', rfl⟩
      · have read := readName?_append isName settles.1
        rw [same, readName?_append isName' settles'.1] at read
        exact (congrArg Prod.fst (Option.some.inj read)).symm
      · exact absurd same (not_isName_of_operator isName listed')
    · rcases isName' with isName' | ⟨op', listed', rfl⟩
      · exact absurd same.symm (not_isName_of_operator isName' listed)
      · have same : op ++ rest = op' ++ rest' := (List.cons.inj same).2
        rcases List.append_eq_append_iff.mp same with ⟨more, longer, left⟩ | ⟨more, longer, left⟩
        · rw [operator_unique listed listed' settles longer left, List.append_nil] at longer
          rw [longer]
        · rw [operator_unique listed' listed settles' longer left, List.append_nil] at longer
          rw [longer]
  subst names
  exact ⟨rfl, List.append_cancel_left same⟩

end TagGrammar

open TagGrammar

namespace BracketStyle

/-- The character that brackets begin with. -/
def opening? : BracketStyle → Option Char
  | none => Option.none
  | list => some '<'
  | fixed => some '('
  | hash => some '{'

theorem head?_brackets (kind : BracketStyle) (keys subs : List String) :
    (kind.brackets keys subs).toList.head? = kind.opening? := by
  cases kind with
  | none => rfl
  | list => simp [brackets, opening?, toList_angle]
  | fixed => simp [brackets, opening?, toList_round]
  | hash => simp [brackets, opening?, toList_curly]

theorem opening?_apart {kind : BracketStyle} {c : Char} (opens : c ∈ kind.opening?) :
    c ∈ stopChars ∧ c ≠ '>' := by
  cases kind with
  | none => exact absurd opens (by simp [opening?])
  | list => exact Option.some.inj opens ▸ by decide
  | fixed => exact Option.some.inj opens ▸ by decide
  | hash => exact Option.some.inj opens ▸ by decide

theorem opening?_inj {kind kind' : BracketStyle} (same : kind.opening? = kind'.opening?) :
    kind = kind' := by
  cases kind <;> cases kind' <;> first | rfl | exact absurd same (by decide)

end BracketStyle

namespace Member

/-! ### The text of a member -/

/-- What is written behind the name. -/
def bracketText (m : Member) : List Char :=
  if m.isBare then []
  else (m.kind.brackets (m.keys.map (Ty.text false)) (m.subs.map (Ty.text false))).toList

theorem toList_text (m : Member) : (m.text false).toList = m.name.toList ++ m.bracketText := by
  rw [text_eq, bracketText]
  cases m.isBare with
  | true => simp
  | false => simp

theorem head?_bracketText (m : Member) :
    m.bracketText.head? = if m.isBare then none else m.kind.opening? := by
  unfold bracketText
  split
  · rfl
  · exact BracketStyle.head?_brackets _ _ _

/-- A text behind a name that goes on with brackets, if there are any. -/
theorem settles_bracketText (m : Member) {rest other : List Char} (settles : Settles rest other) :
    Settles (m.bracketText ++ rest) other := by
  have known : ∀ c ∈ m.bracketText.head?, c ∈ stopChars ∧ c ≠ '>' := by
    rw [head?_bracketText]
    intro c first
    split at first
    · exact absurd first (by simp)
    · exact BracketStyle.opening?_apart first
  cases spelled : m.bracketText with
  | nil => exact settles
  | cons c tail =>
    rw [spelled] at known
    constructor
    · rintro d first
      exact (known d first).1
    · intro tail same
      exact absurd (List.cons.inj same).1 (known c rfl).2

theorem settles_nil (other : List Char) : Settles [] other :=
  ⟨fun _ none => absurd none (by simp), fun _ none => absurd none (by simp)⟩

/-- A tag tells the name and what is written behind it. -/
theorem name_eq_of_tag {a b : Member} (isName : IsTagName a.name.toList)
    (isName' : IsTagName b.name.toList) (same : a.tag = b.tag) :
    a.name = b.name ∧ a.bracketText = b.bracketText := by
  have texts : a.name.toList ++ (a.bracketText ++ []) = b.name.toList ++ (b.bracketText ++ []) := by
    rw [List.append_nil, List.append_nil, ← toList_text, ← toList_text]
    exact congrArg String.toList same
  obtain ⟨names, behind⟩ := name_unique isName isName' (a.settles_bracketText (settles_nil _))
    (b.settles_bracketText (settles_nil _)) texts
  rw [List.append_nil, List.append_nil] at behind
  exact ⟨String.toList_inj.mp names, behind⟩

/-- Brackets show that something is known about a parameter, and of which style they are. -/
theorem kind_eq_of_bracketText {a b : Member} (fits : a.Fits) (fits' : b.Fits)
    (same : a.bracketText = b.bracketText) :
    a.isBare = b.isBare ∧ (a.isBare = false → a.kind = b.kind) := by
  have heads := congrArg List.head? same
  rw [head?_bracketText, head?_bracketText] at heads
  have bracketed : ∀ {m : Member}, m.Fits → m.isBare = false → m.kind.opening? ≠ none := by
    intro m fits known none
    have unbracketed : m.kind = .none := BracketStyle.opening?_inj none
    obtain ⟨keys, subs⟩ := fits.mp unbracketed
    rw [isBare, keys, subs] at known
    exact absurd known (by decide)
  cases bare : a.isBare with
  | true =>
    cases bare' : b.isBare with
    | true => exact ⟨rfl, fun known => absurd known (by simp)⟩
    | false =>
      rw [bare, bare', if_pos rfl, if_neg (by decide)] at heads
      exact absurd heads.symm (bracketed fits' bare')
  | false =>
    cases bare' : b.isBare with
    | true =>
      rw [bare, bare', if_neg (by decide), if_pos rfl] at heads
      exact absurd heads (bracketed fits bare)
    | false =>
      rw [bare, bare', if_neg (by decide), if_neg (by decide)] at heads
      exact ⟨rfl, fun _ => BracketStyle.opening?_inj heads⟩

/-! ### The first parameter -/

/-- The name of the first value parameter. -/
def subName? (m : Member) : Option String :=
  m.subs.head?.map Ty.name

/-- Behind a member in brackets another one follows, or the brackets are closed. -/
theorem settles_followers (ms : List Member) {closing : Char} (closes : closing ∈ ['>', ')', '}'])
    {other : List Char} (some : other ≠ []) :
    Settles (followers false ms ++ [closing]) other := by
  cases ms with
  | nil =>
    have stop : closing ∈ stopChars :=
      (forall_mem_of_all (by decide) : ∀ c ∈ ['>', ')', '}'], c ∈ stopChars) closing closes
    constructor
    · rintro d first
      exact Option.some.inj first ▸ stop
    · exact fun tail same => ⟨(List.cons.inj same).2.symm, some⟩
  | cons m ms =>
    constructor
    · rintro d first
      exact Option.some.inj first ▸ (by decide)
    · exact fun tail same => absurd (List.cons.inj same).1 (by decide)

/-- A list of parameters begins with a name. -/
theorem exists_front_joined (sub : Ty) (others : List Ty) {closing : Char}
    (closes : closing ∈ ['>', ')', '}']) : ∃ rest, rest ≠ [] ∧
      (∀ other, other ≠ [] → Settles rest other) ∧
      (joined false ((sub :: others).flatMap Ty.members)).toList ++ [closing] =
        sub.name.toList ++ rest := by
  let followers := followers false (sub.rest ++ others.flatMap Ty.members)
  refine ⟨sub.first.bracketText ++ (followers ++ [closing]), by simp, fun other some =>
    sub.first.settles_bracketText (settles_followers _ closes some), ?_⟩
  have whole : (sub :: others).flatMap Ty.members =
      sub.first :: (sub.rest ++ others.flatMap Ty.members) := by
    simp [Ty.members]
  rw [whole, toList_joined, toList_text, List.append_assoc, List.append_assoc]
  rfl

/-- The name that a list of parameters begins with can be told from the text, if there is one. -/
theorem head?_eq_of_joined {subs subs' : List Ty}
    (isName : ∀ sub ∈ subs.head?, IsTagName sub.name.toList)
    (isName' : ∀ sub ∈ subs'.head?, IsTagName sub.name.toList)
    {closing : Char} (closes : closing ∈ ['>', ')', '}'])
    (same : (joined false (subs.flatMap Ty.members)).toList ++ [closing] =
      (joined false (subs'.flatMap Ty.members)).toList ++ [closing]) :
    subs.head?.map Ty.name = subs'.head?.map Ty.name := by
  have longer : ∀ (sub : Ty) (others : List Ty), IsTagName sub.name.toList →
      (joined false ((sub :: others).flatMap Ty.members)).toList ++ [closing] ≠ [closing] := by
    intro sub others isName alone
    obtain ⟨rest, some, -, spelled⟩ := exists_front_joined sub others closes
    have size := congrArg List.length (spelled.symm.trans alone)
    have name := List.length_pos_of_ne_nil isName.ne_nil
    have behind := List.length_pos_of_ne_nil some
    rw [List.length_append, List.length_singleton] at size
    omega
  cases subs with
  | nil =>
    cases subs' with
    | nil => rfl
    | cons sub' others' => exact absurd same.symm (longer sub' others' (isName' sub' rfl))
  | cons sub others =>
    cases subs' with
    | nil => exact absurd same (longer sub others (isName sub rfl))
    | cons sub' others' =>
      obtain ⟨rest, some, settles, spelled⟩ := exists_front_joined sub others closes
      obtain ⟨rest', some', settles', spelled'⟩ := exists_front_joined sub' others' closes
      rw [spelled, spelled'] at same
      obtain ⟨names, -⟩ := name_unique (isName sub rfl) (isName' sub' rfl) (settles rest' some')
        (settles' rest some) same
      exact congrArg Option.some (String.toList_inj.mp names)

/-- The meaning of a member of this name depends on its first value parameter. -/
def looksInside (m : Member) : Bool :=
  isMetaName m.name || m.isPlaceholder

/-- The member is made of names that tags may have, and brackets that fit. The keys of a hash-style
member are spelled out if the parameter behind them matters. -/
structure Legible (m : Member) : Prop where
  name : IsTagName m.name.toList
  fits : m.Fits
  subName : ∀ sub ∈ m.subs.head?, IsTagName sub.name.toList
  keys : m.looksInside = true → m.kind = .hash →
    m.keys ≠ [] ∧ ∀ key ∈ m.keys, key.Normal ∧ key.Spelled

theorem legible_make_list {name : String} {marked : Bool} {subs : List Ty}
    (isName : IsTagName name.toList) (subName : ∀ sub ∈ subs.head?, IsTagName sub.name.toList) :
    (make name marked .list [] subs).Legible := by
  refine ⟨isName, fits_make _ _ _ _ _, subName, fun _ hash => ?_⟩
  cases subs with
  | nil => exact absurd hash (by simp [make])
  | cons sub others => exact absurd hash (by simp [make])

/-- Keys that are spelled out are read up to the arrow. -/
theorem readMembers?_keys {keys : List Ty} (nonempty : keys ≠ [])
    (spelled : ∀ key ∈ keys, key.Normal ∧ key.Spelled) (rest : List Char) (fuel : Nat)
    (enough : 3 * (joined false (keys.flatMap Ty.members)).toList.length + 1 ≤ fuel) :
    readMembers? fuel ((joined false (keys.flatMap Ty.members)).toList ++
      ' ' :: '=' :: '>' :: rest) =
        some ((keys.flatMap Ty.members).map (readBack false), ' ' :: '=' :: '>' :: rest) := by
  have members : ∀ m ∈ keys.flatMap Ty.members, m.spelling true false = (m.text false).toList ∧
      IsTagName m.name.toList ∧ m.ReadsBack true false := by
    intro m listed
    obtain ⟨key, inside, member⟩ := List.mem_flatMap.mp listed
    obtain ⟨normal, spelled⟩ := spelled key inside
    have readsBack : ∀ m ∈ key.members, m.ReadsBack true false :=
      Ty.readsBack normal spelled.spellable spelled.separated
    obtain ⟨fit, -⟩ := spelled
    exact ⟨spelling_spaced false key m member, .inl (fit m member).1, readsBack m member⟩
  have space : ∀ c ∈ (' ' :: '=' :: '>' :: rest).head?, LastLeaves (keys.flatMap Ty.members) c :=
    fun c first => Option.some.inj first ▸ lastLeaves_of_ne _ (by decide) (by decide)
  rw [← row_spaced fun m listed => (members m listed).1] at enough ⊢
  exact readMembers?_row (Ty.flatMap_members_ne_nil nonempty)
    (fun m listed => (members m listed).2.1) (fun m listed => (members m listed).2.2)
    (closes_arrow true rest) space fuel enough

/-- Brackets tell the name of the first value parameter. -/
theorem subName?_eq_of_bracketText {a b : Member} (legible : a.Legible) (legible' : b.Legible)
    (looks : a.looksInside = true) (looks' : b.looksInside = true) (known : a.isBare = false)
    (same : a.bracketText = b.bracketText) : a.subName? = b.subName? := by
  obtain ⟨bare, kinds⟩ := kind_eq_of_bracketText legible.fits legible'.fits same
  have kinds := kinds known
  have known' : b.isBare = false := bare.symm.trans known
  unfold bracketText at same
  rw [if_neg (by simp [known]), if_neg (by simp [known']), ← kinds] at same
  have row : ∀ {opening closing : Char}, closing ∈ ['>', ')', '}'] →
      opening :: ((joined false (a.subs.flatMap Ty.members)).toList ++ [closing]) =
        opening :: ((joined false (b.subs.flatMap Ty.members)).toList ++ [closing]) →
      a.subName? = b.subName? := fun closes same =>
    head?_eq_of_joined legible.subName legible'.subName closes (List.cons.inj same).2
  cases kind : a.kind with
  | none =>
    have empty := legible.fits.mp kind
    have empty' := legible'.fits.mp (kinds.symm.trans kind)
    rw [subName?, subName?, empty.2, empty'.2]
  | list =>
    simp only [kind, BracketStyle.brackets, Ty.intercalate_texts, String.toList_append,
      toList_angle, List.cons_append, List.nil_append] at same
    exact row (by decide) same
  | fixed =>
    simp only [kind, BracketStyle.brackets, Ty.intercalate_texts, String.toList_append,
      toList_round, List.cons_append, List.nil_append] at same
    exact row (by decide) same
  | hash =>
    obtain ⟨nonempty, spelled⟩ := legible.keys looks kind
    obtain ⟨nonempty', spelled'⟩ := legible'.keys looks' (kinds.symm.trans kind)
    simp only [kind, BracketStyle.brackets, Ty.intercalate_texts, String.toList_append,
      toList_curly, List.cons_append, List.nil_append, List.append_assoc] at same
    -- what is read of the keys leaves the same text in both
    let fuel := 3 * ((joined false (a.keys.flatMap Ty.members)).toList.length +
      (joined false (b.keys.flatMap Ty.members)).toList.length) + 1
    have read := congrArg (readMembers? fuel) (List.cons.inj same).2
    rw [readMembers?_keys nonempty spelled _ fuel (by omega),
      readMembers?_keys nonempty' spelled' _ fuel (by omega)] at read
    have rests := congrArg Prod.snd (Option.some.inj read)
    have closes : '}' ∈ ['>', ')', '}'] := by decide
    exact head?_eq_of_joined legible.subName legible'.subName closes (by simpa using rests)

/-! ### What is asked of a member -/

/-- Two members that nothing asked of a receiver tells apart. -/
structure Alike (a b : Member) : Prop where
  space : a.space = b.space
  scope : a.scope = b.scope
  isTuple : a.isTuple = b.isTuple
  placeholderName? : a.placeholderName? = b.placeholderName?

theorem subName?_eq_none {m : Member} : m.subName? = none ↔ m.subs = [] := by
  simp [subName?]

theorem space_eq_subName? (m : Member) : m.space =
    if m.isDuck then "Object" else if m.name == "nil" then "NilClass"
    else if isMetaName m.name then m.subName?.getD m.name else m.name := by
  unfold space subName?
  cases m.subs with
  | nil => rfl
  | cons sub others => rfl

theorem scope_eq_subName? (m : Member) :
    m.scope = if isMetaName m.name && m.subName?.isSome then .classLevel else .instanceLevel := by
  unfold scope isMeta subName?
  cases m.subs with
  | nil => rfl
  | cons sub others => rfl

theorem placeholderName?_eq_subName? (m : Member) :
    m.placeholderName? = if m.name == "generic" then m.subName? else none :=
  rfl

/-- Everything that is asked is computed from the name, from the style of the brackets and, for the
names whose meaning depends on it, from the name of the first value parameter. -/
theorem alike_of_subName? {a b : Member} (names : a.name = b.name) (tuples : a.isTuple = b.isTuple)
    (firsts : a.looksInside = true → a.subName? = b.subName?) : a.Alike b := by
  have ducks : a.isDuck = b.isDuck := by rw [isDuck, names, isDuck]
  cases looks : a.looksInside with
  | true =>
    have subNames := firsts looks
    refine ⟨?_, ?_, tuples, ?_⟩
    · rw [space_eq_subName?, space_eq_subName?, ducks, names, subNames]
    · rw [scope_eq_subName?, scope_eq_subName?, names, subNames]
    · rw [placeholderName?_eq_subName?, placeholderName?_eq_subName?, names, subNames]
  | false =>
    obtain ⟨plain, free⟩ : isMetaName b.name = false ∧ (b.name == "generic") = false := by
      rw [← names]
      exact Bool.or_eq_false_iff.mp looks
    refine ⟨?_, ?_, tuples, ?_⟩
    · rw [space_eq_subName?, space_eq_subName?, ducks, names, plain]
      simp only [Bool.false_eq_true, if_false]
    · rw [scope_eq_subName?, scope_eq_subName?, names, plain]
      simp only [Bool.false_and]
    · rw [placeholderName?_eq_subName?, placeholderName?_eq_subName?, names, free]
      simp only [Bool.false_eq_true, if_false]

/-- A parameter that nothing is known about is called `undefined`. -/
theorem subName?_of_isBare {m : Member} (bare : m.isBare = true) :
    m.subName? = none ∨ m.subName? = some "undefined" := by
  cases subs : m.subs with
  | nil => exact Or.inl (subName?_eq_none.mpr subs)
  | cons sub others =>
    have unknown : sub.isUndefined = true :=
      List.all_eq_true.mp (Bool.and_eq_true_iff.mp bare).2 sub (by rw [subs]; simp)
    have name : sub.name = "undefined" :=
      beq_iff_eq.mp (List.all_eq_true.mp unknown sub.first (by simp [Ty.members]))
    exact Or.inr (by rw [subName?, subs, ← name]; rfl)

theorem subName?_eq_of_isBare {a b : Member} (bare : a.isBare = true) (bare' : b.isBare = true)
    (empties : a.subs = [] ↔ b.subs = []) : a.subName? = b.subName? := by
  rw [← subName?_eq_none, ← subName?_eq_none] at empties
  rcases subName?_of_isBare bare with none | some
  · rw [none, empties.mp none]
  · rcases subName?_of_isBare bare' with none' | some'
    · rw [none', empties.mpr none']
    · rw [some, some']

theorem scope_eq_classLevel {m : Member} (isMeta : isMetaName m.name = true) :
    m.scope = .classLevel ↔ m.subs ≠ [] := by
  rw [scope_eq_subName?, isMeta, Bool.true_and, Ne, ← subName?_eq_none]
  cases m.subName? with
  | none => simp
  | some _ => simp

/-- What is asked of a member of a telling name shows whether it has a value parameter. -/
theorem Alike.subs_eq_nil {a b : Member} (alike : a.Alike b) (names : a.name = b.name)
    (looks : a.looksInside = true) : a.subs = [] ↔ b.subs = [] := by
  rcases Bool.or_eq_true_iff.mp looks with isMeta | isPlaceholder
  · have isMeta' : isMetaName b.name = true := names ▸ isMeta
    apply not_iff_not.mp
    rw [← Ne, ← Ne, ← scope_eq_classLevel isMeta, ← scope_eq_classLevel isMeta', alike.scope]
  · have named : (a.name == "generic") = true := isPlaceholder
    have subNames := alike.placeholderName?
    rw [placeholderName?_eq_subName?, placeholderName?_eq_subName?, ← names, if_pos named,
      if_pos named] at subNames
    rw [← subName?_eq_none, ← subName?_eq_none, subNames]

/-- Members with one tag are alike, whichever of them a union keeps, if something is known about a
parameter. If nothing is, the parameters are not written, and then the members are alike just if
both are tuples or neither is and, where the name makes a difference of it, both have a value
parameter or neither has. -/
theorem alike_iff {a b : Member} (legible : a.Legible) (legible' : b.Legible)
    (same : a.tag = b.tag) :
    a.Alike b ↔ (a.isBare = true → a.isTuple = b.isTuple ∧
      (a.looksInside = true → (a.subs = [] ↔ b.subs = []))) := by
  obtain ⟨names, behind⟩ := name_eq_of_tag legible.name legible'.name same
  obtain ⟨bares, kinds⟩ := kind_eq_of_bracketText legible.fits legible'.fits behind
  have looks : a.looksInside = b.looksInside := by
    rw [looksInside, looksInside, isPlaceholder, isPlaceholder, names]
  constructor
  · exact fun alike _ => ⟨alike.isTuple, alike.subs_eq_nil names⟩
  · intro unwritten
    cases bare : a.isBare with
    | true =>
      obtain ⟨tuples, empties⟩ := unwritten bare
      exact alike_of_subName? names tuples fun looked =>
        subName?_eq_of_isBare bare (bares.symm.trans bare) (empties looked)
    | false =>
      have tuples : a.isTuple = b.isTuple := by rw [isTuple, isTuple, kinds bare]
      exact alike_of_subName? names tuples fun looked =>
        subName?_eq_of_bracketText legible legible' looked (looks.symm.trans looked) bare behind

/-- `::Class<::Foo>` and `Class<Foo>` are the class `Foo` for every lookup. -/
theorem alike_of_tag_marks : (list "Class" [.absolute "Foo"]).Legible ∧
    (make "Class" false .list [] [.single (.named "Foo")]).Legible ∧
    (list "Class" [.absolute "Foo"]).tag =
      (make "Class" false .list [] [.single (.named "Foo")]).tag ∧
    (list "Class" [.absolute "Foo"]).Alike
      (make "Class" false .list [] [.single (.named "Foo")]) := by
  have outer : IsTagName "Class".toList :=
    isTagName_of_isIdent ⟨'C', ['l', 'a', 's', 's'], [], by decide⟩
  have inner : IsTagName "Foo".toList :=
    isTagName_of_isIdent ⟨'F', ['o', 'o'], [], by decide⟩
  have marked : (list "Class" [.absolute "Foo"]).Legible := legible_make_list outer (by
    simpa [Ty.absolute, Ty.single, Ty.name, absolute] using inner)
  have unmarked : (make "Class" false .list [] [.single (.named "Foo")]).Legible :=
    legible_make_list outer (by simpa [Ty.single, Ty.name, named] using inner)
  have same : (list "Class" [.absolute "Foo"]).tag =
      (make "Class" false .list [] [.single (.named "Foo")]).tag := by rfl
  exact ⟨marked, unmarked, same,
    (alike_iff marked unmarked same).mpr fun bare => absurd bare (by decide)⟩

/-- `Class<undefined>` is written `Class`. The one is the class `undefined`, the other an instance
of the class `Class`. -/
theorem not_alike_of_tag_undefined : ¬ ∀ a b : Member, a.Legible → b.Legible → a.tag = b.tag →
    a.Alike b := by
  intro interchangeable
  have outer : IsTagName "Class".toList :=
    isTagName_of_isIdent ⟨'C', ['l', 'a', 's', 's'], [], by decide⟩
  have inner : IsTagName "undefined".toList := .inl (isName_of_builtin (by decide))
  have unknown : (make "Class" false .list [] [.undefined]).Legible := legible_make_list outer (by
    simpa [Ty.undefined, Ty.single, Ty.name, named] using inner)
  have bare : (make "Class" false .list [] []).Legible := legible_make_list outer (by simp)
  have alike := interchangeable _ _ unknown bare (by rfl)
  exact absurd alike.scope (by decide)

end Member

end DuckInfer
