import DuckInfer.Proofs.Ty.Characters

/-!
Types that are written without spaces. Names are read greedily, so a name that stands right before
a closing bracket or an arrow may take its first character, and the brackets around it are no longer
what they were. To see that such a text is not read at all, what stands between the names is
weighed: in a text that is read it is in balance, and what a name takes is missing. Main statement:
the tag of a type that was read is read without its spaces as the same type, if no name takes what
stands behind it, and is not read otherwise.
-/

namespace DuckInfer

namespace TagGrammar

/-! ### The balance of a text -/

/-- `<` weighs against the `>` that closes it, and `{` against the two characters of its arrow. -/
def weight (c : Char) : Int :=
  match c with
  | '<' => -1
  | '{' => -2
  | '=' => 1
  | '>' => 1
  | _ => 0

theorem weights : weight '<' = -1 ∧ weight '>' = 1 ∧ weight '(' = 0 ∧ weight ')' = 0 ∧
    weight '{' = -2 ∧ weight '=' = 1 ∧ weight '}' = 0 ∧ weight ',' = 0 := by
  decide

theorem length_lt_of_readName? {s name rest : List Char} (read : readName? s = some (name, rest)) :
    rest.length < s.length := by
  obtain ⟨isName, whole⟩ := of_readName? read
  have long := List.length_pos_of_ne_nil isName.ne_nil
  rw [← whole, List.length_append]
  omega

/-- The weight of what stands between the names of a text. -/
def balance (s : List Char) : Int :=
  match _ : readName? s with
  | some (_, rest) => balance rest
  | none =>
    match s with
    | ':' :: ':' :: rest => balance rest
    | c :: rest => weight c + balance rest
    | [] => 0
termination_by s.length
decreasing_by
  · exact length_lt_of_readName? ‹_›
  · simp only [List.length_cons]
    omega
  · simp only [List.length_cons]
    omega

theorem balance_nil : balance [] = 0 := by
  rw [balance]
  rfl

theorem balance_of_readName? {s name rest : List Char} (read : readName? s = some (name, rest)) :
    balance s = balance rest := by
  rw [balance]
  split
  · rename_i read'
    rw [read] at read'
    cases read'
    rfl
  · rename_i none
    rw [read] at none
    cases none

/-- The characters that may stand between names, apart from the mark of an absolute name. -/
def punctuation : List Char :=
  ['\t', '\r', '\n'] ++ separators

theorem readName?_punctuation {c : Char} (listed : c ∈ punctuation) (rest : List Char) :
    readName? (c :: rest) = none := by
  have apart : ∀ c ∈ punctuation, c ≠ '#' ∧ c ≠ ':' ∧ (c ≠ '\'' ∧ c ≠ '"') ∧ c ≠ '-' ∧
      c.isDigit = false ∧ isIdentStart c = false := forall_mem_of_all (by decide)
  obtain ⟨duck, symbol, quotes, unsigned, digit, start⟩ := apart c listed
  rw [readName?, readDuck?_eq_none duck, readSymbol?_eq_none symbol, readQuoted?_eq_none quotes,
    readNumber?_eq_none unsigned digit]
  simp [readPath?, readIdent?, start]

theorem balance_cons {c : Char} (listed : c ∈ punctuation) (rest : List Char) :
    balance (c :: rest) = weight c + balance rest := by
  have apart : c ≠ ':' := by
    rintro rfl
    exact absurd listed (by decide)
  rw [balance]
  split
  · rename_i read
    rw [readName?_punctuation listed] at read
    cases read
  · split
    · rename_i same _
      exact absurd (List.cons.inj same).1 apart
    · rename_i same _
      obtain ⟨rfl, rfl⟩ := List.cons.inj same
      rfl
    · rename_i same _
      exact absurd same (List.cons_ne_nil _ _)

theorem balance_root (rest : List Char) : balance (':' :: ':' :: rest) = balance rest := by
  have unread : readName? (':' :: ':' :: rest) = none := by
    rw [readName?, readDuck?_eq_none (by decide), readQuoted?_eq_none (by decide),
      readNumber?_eq_none (by decide) (by decide)]
    simp [readSymbol?, readPath?, readIdent?, isIdentStart]
  rw [balance]
  split
  · rename_i read
    rw [unread] at read
    cases read
  · rfl

theorem balance_skipGap (s : List Char) : balance (skipGap s) = balance s := by
  induction s with
  | nil => rfl
  | cons c s ih =>
    by_cases blank : isGap c = true
    · have weightless : c ∈ punctuation ∧ weight c = 0 := by
        simp only [isGap, Bool.or_eq_true, beq_iff_eq] at blank
        rcases blank with ((rfl | rfl) | rfl) | rfl <;> decide
      rw [skipGap, List.dropWhile_cons_of_pos blank, ← skipGap, ih,
        balance_cons weightless.1, weightless.2, Int.zero_add]
    · rw [skipGap_cons (by simpa using blank)]

theorem balance_gap (spaced : Bool) (s : List Char) : balance (gap spaced ++ s) = balance s := by
  rw [← balance_skipGap, skipGap_gap, balance_skipGap]

/-! ### What is read is in balance -/

/-- What is read has weight zero: the balance of the text is that of the rest. -/
structure Balanced (fuel : Nat) : Prop where
  member : ∀ {s left : List Char} {m : Member}, readMember? fuel s = some (m, left) →
    balance s = balance left
  params : ∀ {s left : List Char} {kind : BracketStyle} {keys subs : List Ty},
    readParams? fuel s = some ((kind, keys, subs), left) → balance s = balance left
  members : ∀ {s left : List Char} {ms : List Member}, readMembers? fuel s = some (ms, left) →
    balance s = balance left
  more : ∀ s : List Char, balance s = balance (readMore fuel s).2

/-- The text goes on behind a gap and a token. -/
theorem balance_of_skipGap {s left : List Char} {c : Char} (listed : c ∈ punctuation)
    (same : skipGap s = c :: left) : balance s = weight c + balance left := by
  rw [← balance_skipGap, same, balance_cons listed]

namespace Balanced

variable {fuel : Nat} (balanced : Balanced fuel)

include balanced

theorem step_member {s left : List Char} {m : Member}
    (read : readMember? (fuel + 1) s = some (m, left)) : balance s = balance left := by
  obtain ⟨marked, tail, name, rest, kind, keys, subs, inside, named, rfl, params⟩ :=
    readMember?_cases read
  have front : balance s = balance rest := by
    rcases inside with rfl | ⟨behind, rfl, rfl⟩
    · exact balance_of_readName? named
    · rw [balance_root, ← balance_skipGap, balance_of_readName? named]
  rcases params with params | ⟨rfl, -, -⟩
  · rw [front, ← balance_skipGap, balanced.params params]
  · exact front

/-- A row of parameters may be empty. -/
theorem row {rest behind : List Char} {ms : List Member}
    (row : (readMembers? fuel (skipGap rest)).getD ([], rest) = (ms, behind)) :
    balance rest = balance behind := by
  cases read : readMembers? fuel (skipGap rest) with
  | none =>
    rw [read, Option.getD_none] at row
    cases row
    rfl
  | some found =>
    rw [read, Option.getD_some] at row
    subst row
    rw [← balance_skipGap, balanced.members read]

theorem step_params {s left : List Char} {kind : BracketStyle} {keys subs : List Ty}
    (read : readParams? (fuel + 1) s = some ((kind, keys, subs), left)) :
    balance s = balance left := by
  rcases readParams?_cases read with ⟨opening, closing, rest, ms, behind, style, rfl, row, closed,
    -, -⟩ | ⟨rest, keyMembers, behind, arrow, subMembers, behind', -, rfl, readKeys, middle,
    readSubs, closed, -, -⟩
  · have pair : (opening ∈ punctuation ∧ closing ∈ punctuation) ∧
        weight opening + weight closing = 0 := by
      simp only [List.mem_cons, Prod.mk.injEq, List.not_mem_nil, or_false] at style
      rcases style with ⟨-, rfl, rfl⟩ | ⟨-, rfl, rfl⟩ <;> decide
    have inner := balanced.row row
    have back := balance_of_skipGap pair.1.2 closed
    rw [balance_cons pair.1.1]
    omega
  · have keys := balanced.members readKeys
    have subs := balanced.members readSubs
    rw [balance_skipGap] at keys subs
    have between := balance_of_skipGap (by decide) middle
    have back := balance_of_skipGap (by decide) closed
    rw [balance_cons (c := '>') (by decide)] at between
    have weights := weights
    rw [balance_cons (by decide)]
    omega

theorem step_members {s left : List Char} {ms : List Member}
    (read : readMembers? (fuel + 1) s = some (ms, left)) : balance s = balance left := by
  unfold readMembers? at read
  split at read
  · cases read
  · rename_i m rest first
    cases read
    rw [balanced.member first, balanced.more rest]

theorem step_more (s : List Char) : balance s = balance (readMore (fuel + 1) s).2 := by
  unfold readMore
  split
  · rename_i rest comma
    split
    · rename_i m behind first
      have front := balance_of_skipGap (by decide) comma
      have member := balanced.member first
      have more := balanced.more behind
      have weights := weights
      rw [balance_skipGap] at member
      show balance s = balance (readMore fuel behind).2
      omega
    · rfl
  · rfl

end Balanced

theorem balanced (fuel : Nat) : Balanced fuel := by
  induction fuel with
  | zero =>
    refine ⟨fun read => ?_, fun read => ?_, fun read => ?_, fun s => rfl⟩
    · cases read
    · cases read
    · cases read
  | succ fuel ih => exact ⟨ih.step_member, ih.step_params, ih.step_members, ih.step_more⟩

/-- A text that is read is in balance. -/
theorem balance_eq_zero {s : List Char} {ms : List Member} (read : readAll? s = some ms) :
    balance s = 0 := by
  unfold readAll? at read
  split at read
  · rename_i _ rest found
    split at read
    · rename_i ends
      have whole := (balanced _).members found
      rw [balance_skipGap] at whole
      have none : skipGap rest = [] := by simpa using ends
      rw [whole, ← balance_skipGap, none, balance_nil]
    · cases read
  · cases read

/-! ### What is spelled is in balance if no name takes what is behind it -/

/-- In front of a text that may stand behind a name, `text` adds nothing to the balance, and it
takes nothing from it only if `free` holds of what follows. -/
def Balances (text : List Char) (free : List Char → Prop) : Prop :=
  ∀ rest, Delimits rest → balance (text ++ rest) ≤ balance rest ∧
    (balance (text ++ rest) = balance rest → free rest)

theorem Balances.append {text text' : List Char} {free free' : List Char → Prop}
    (first : Balances text free) (second : Balances text' free')
    (starts : ∀ rest, Delimits rest → Delimits (text' ++ rest)) :
    Balances (text ++ text') fun rest => free (text' ++ rest) ∧ free' rest := by
  intro rest delimits
  obtain ⟨below, kept⟩ := first (text' ++ rest) (starts rest delimits)
  obtain ⟨below', kept'⟩ := second rest delimits
  rw [List.append_assoc]
  exact ⟨Int.le_trans below below', fun same => ⟨kept (by omega), kept' (by omega)⟩⟩

theorem Balances.imp {text : List Char} {free free' : List Char → Prop}
    (balances : Balances text free) (weaker : ∀ rest, free rest → free' rest) :
    Balances text free' :=
  fun rest delimits => (balances rest delimits).imp_right fun kept same => weaker rest (kept same)

theorem balances_nil : Balances [] fun _ => True :=
  fun _ _ => ⟨Int.le_refl _, fun _ => trivial⟩

/-- The mark of an absolute name does not count. -/
theorem Balances.marked {text : List Char} {free : List Char → Prop} (balances : Balances text free)
    (marked : Bool) : Balances ((if marked then [':', ':'] else []) ++ text) free := by
  cases marked with
  | true =>
    intro rest delimits
    have root : balance (':' :: ':' :: (text ++ rest)) = balance (text ++ rest) :=
      balance_root (text ++ rest)
    exact root.symm ▸ balances rest delimits
  | false => exact balances

/-- What a name takes is missing. -/
theorem balances_name {name : List Char} (isName : IsTagName name) :
    Balances name fun rest => ∀ c ∈ rest.head?, ¬ Takes name c := by
  intro rest delimits
  by_cases taken : ∃ c ∈ rest.head?, Takes name c
  · obtain ⟨c, first, takes⟩ := taken
    obtain ⟨tail, rfl⟩ := List.head?_eq_some_iff.mp first
    have lost := balance_of_readName? (readName?_of_takes takes tail)
    have counted : balance (c :: tail) = 1 + balance tail := by
      rcases takes.eq_or (delimits c rfl) with rfl | rfl
      · exact balance_cons (by decide) tail
      · exact balance_cons (by decide) tail
    constructor <;> omega
  · have free : ∀ c ∈ rest.head?, ¬ Takes name c := fun c first takes => taken ⟨c, first, takes⟩
    have kept := balance_of_readName? (readName?_of_not_takes isName delimits free)
    exact ⟨Int.le_of_eq kept, fun _ => free⟩

/-- Brackets that have no weight together. -/
theorem Balances.enclosed {text : List Char} {free : List Char → Prop}
    (balances : Balances text free) {opening closing : Char}
    (listed : opening ∈ punctuation ∧ closing ∈ punctuation)
    (opposite : weight opening + weight closing = 0) (delimiter : closing ∈ '=' :: stopChars) :
    Balances (opening :: (text ++ [closing])) fun rest => free (closing :: rest) := by
  intro rest _
  obtain ⟨below, kept⟩ := balances (closing :: rest)
    fun c first => Option.some.inj first ▸ delimiter
  have front := balance_cons listed.1 (text ++ closing :: rest)
  have back := balance_cons listed.2 rest
  rw [List.cons_append, List.append_assoc, List.singleton_append]
  exact ⟨by omega, fun same => kept (by omega)⟩

/-- The brackets of a hash have no weight together with the arrow. -/
theorem Balances.hash {keys subs : List Char} {free free' : List Char → Prop}
    (keyRow : Balances keys free) (subRow : Balances subs free') (spaced : Bool) :
    Balances (BracketStyle.hash.around spaced keys subs) fun rest =>
      (∃ tail, free (gap spaced ++ '=' :: tail)) ∧ free' ('}' :: rest) := by
  intro rest _
  let values := gap spaced ++ (subs ++ '}' :: rest)
  obtain ⟨below, kept⟩ := keyRow (gap spaced ++ '=' :: '>' :: values) (closes_arrow spaced _).1
  obtain ⟨below', kept'⟩ := subRow ('}' :: rest) fun c first => Option.some.inj first ▸ by decide
  have opening := balance_cons (c := '{') (by decide) (keys ++ (gap spaced ++ '=' :: '>' :: values))
  have arrow := balance_cons (c := '=') (by decide) ('>' :: values)
  have arrow' := balance_cons (c := '>') (by decide) values
  have closing := balance_cons (c := '}') (by decide) rest
  have weights := weights
  have inner : balance values = balance (subs ++ '}' :: rest) := balance_gap spaced _
  rw [balance_gap] at below
  have whole : BracketStyle.hash.around spaced keys subs ++ rest =
      '{' :: (keys ++ (gap spaced ++ '=' :: '>' :: values)) := by
    simp [BracketStyle.around, values]
  rw [whole]
  refine ⟨by omega, fun same => ⟨⟨'>' :: values, kept ?_⟩, kept' (by omega)⟩⟩
  rw [balance_gap]
  omega

end TagGrammar

open TagGrammar

variable {spaced marks : Bool}

namespace Member

/-- No name in the brackets of the member takes what is spelled behind it. -/
def Apart (spaced : Bool) (m : Member) : Prop :=
  m.isBare = false → m.Separated spaced ∧ ∀ u ∈ m.params, u.Separated spaced

/-- The spelling of the member keeps the balance only if no name takes what is spelled behind it. -/
def Balances (spaced marks : Bool) (m : Member) : Prop :=
  TagGrammar.Balances (m.spelling spaced marks) fun rest =>
    (∀ c ∈ rest.head?, m.Leaves c) ∧ m.Apart spaced

theorem delimits_trail {rest : List Char} (delimits : Delimits rest) (ms : List Member) :
    Delimits (trail spaced marks ms ++ rest) := by
  cases ms with
  | nil => exact delimits
  | cons m ms =>
    rw [trail_cons]
    exact fun c first => Option.some.inj first ▸ by decide

/-- The comma in front of a row has no weight. -/
theorem balances_trail {ms : List Member} {free : List Char → Prop}
    (balances : TagGrammar.Balances (row spaced marks ms) free) :
    TagGrammar.Balances (trail spaced marks ms) free := by
  cases ms with
  | nil => exact balances
  | cons m ms =>
    intro rest delimits
    have comma : balance (trail spaced marks (m :: ms) ++ rest) =
        balance (row spaced marks (m :: ms) ++ rest) := by
      have weights := weights
      rw [trail_cons, ← row_cons, List.cons_append, List.append_assoc, balance_cons (by decide),
        balance_gap]
      omega
    rw [comma]
    exact balances rest delimits

theorem balances_row {ms : List Member} (each : ∀ m ∈ ms, m.Balances spaced marks) :
    TagGrammar.Balances (row spaced marks ms) fun rest =>
      (∀ c ∈ rest.head?, LastLeaves ms c) ∧ ∀ m ∈ ms, m.Apart spaced := by
  induction ms with
  | nil => exact balances_nil.imp fun rest _ => ⟨by simp [LastLeaves], by simp⟩
  | cons m ms ih =>
    have behind := balances_trail (ih fun m member => each m (List.mem_cons_of_mem _ member))
    refine ((each m List.mem_cons_self).append behind
      fun rest delimits => delimits_trail delimits ms).imp ?_
    rintro rest ⟨⟨leaves, apart⟩, last, others⟩
    refine ⟨fun c first => lastLeaves_cons.mpr ⟨fun none => ?_, last c first⟩,
      List.forall_mem_cons.mpr ⟨apart, others⟩⟩
    subst none
    exact leaves c first

end Member

theorem Ty.separated_of_apart {t : Ty} (apart : ∀ m ∈ t.members, m.Apart spaced) :
    t.Separated spaced :=
  .intro (fun m member known => (apart m member known).1)
    fun m member known => (apart m member known).2

namespace Member

theorem balances_brackets {m : Member} (fits : m.Fits) (slotsFit : m.SlotsFit)
    (known : m.isBare = false)
    (inner : ∀ u ∈ m.params, ∀ inner ∈ u.members, inner.Balances spaced marks) :
    TagGrammar.Balances (m.bracketSpelling spaced marks) fun _ =>
      m.Separated spaced ∧ ∀ u ∈ m.params, u.Separated spaced := by
  have rows : ∀ ts : List Ty, (∀ u ∈ ts, u ∈ m.params) →
      TagGrammar.Balances (row spaced marks (ts.flatMap Ty.members)) fun rest =>
        (∀ c ∈ rest.head?, LastLeaves (ts.flatMap Ty.members) c) ∧
          ∀ u ∈ ts, u.Separated spaced := by
    intro ts params
    refine (balances_row fun m listed => ?_).imp ?_
    · obtain ⟨u, param, inside⟩ := List.mem_flatMap.mp listed
      exact inner u (params u param) m inside
    · rintro rest ⟨last, apart⟩
      exact ⟨last, fun u param => Ty.separated_of_apart fun m member =>
        apart m (List.mem_flatMap.mpr ⟨u, param, member⟩)⟩
  have keyRow := rows m.keys fun u key => List.mem_append_left _ key
  have subRow := rows m.subs fun u sub => List.mem_append_right _ sub
  have nonemptySubs := slotsFit.subs_ne_nil known
  unfold SlotsFit at slotsFit
  rw [bracketSpelling, if_neg (by simp [known])]
  cases kind : m.kind with
  | none => exact absurd (fits.mp kind).2 nonemptySubs
  | list =>
    rw [if_neg (by simp [kind])] at slotsFit
    refine (subRow.enclosed (by decide) (by decide) (by decide)).imp ?_
    rintro rest ⟨last, subs⟩
    refine ⟨⟨fun _ => last '>' rfl, fun hash => ?_⟩, ?_⟩
    · exact absurd (kind.symm.trans hash) (by decide)
    · simpa [params, slotsFit] using subs
  | fixed =>
    rw [if_neg (by simp [kind])] at slotsFit
    refine (subRow.enclosed (by decide) (by decide) (by decide)).imp ?_
    rintro rest ⟨-, subs⟩
    refine ⟨⟨fun list => ?_, fun hash => ?_⟩, ?_⟩
    · exact absurd (kind.symm.trans list) (by decide)
    · exact absurd (kind.symm.trans hash) (by decide)
    · simpa [params, slotsFit] using subs
  | hash =>
    refine (keyRow.hash subRow spaced).imp ?_
    rintro rest ⟨⟨tail, last, keys⟩, -, subs⟩
    refine ⟨⟨fun list => ?_, fun _ compact => ?_⟩, List.forall_mem_append.mpr ⟨keys, subs⟩⟩
    · exact absurd (kind.symm.trans list) (by decide)
    · subst compact
      exact last '=' rfl

/-- It does if the spellings of the members in its parameters do. -/
theorem balances {m : Member} (isName : IsTagName m.name.toList) (fits : m.Fits)
    (slotsFit : m.SlotsFit)
    (inner : ∀ u ∈ m.params, ∀ inner ∈ u.members, inner.Balances spaced marks) :
    m.Balances spaced marks := by
  have name := balances_name isName
  unfold Balances
  rw [spelling_eq]
  apply Balances.marked
  cases bare : m.isBare with
  | true =>
    rw [bracketSpelling, if_pos bare, List.append_nil]
    refine name.imp fun rest free => ⟨fun c first _ => free c first, fun known => ?_⟩
    exact absurd (bare.symm.trans known) (by decide)
  | false =>
    have bracketed : m.kind ≠ .none := fun none => slotsFit.subs_ne_nil bare (fits.mp none).2
    have starts : ∀ rest, Delimits rest → Delimits (m.bracketSpelling spaced marks ++ rest) := by
      intro rest _
      have opens : ∀ c ∈ ['<', '(', '{'], c ∈ '=' :: stopChars := forall_mem_of_all (by decide)
      obtain ⟨c, bracket, tail, spelled⟩ :=
        exists_bracketSpelling spaced marks bracketed bare
      rw [spelled]
      exact fun d first => Option.some.inj first ▸ opens c bracket
    refine (name.append (balances_brackets fits slotsFit bare inner) starts).imp ?_
    rintro rest ⟨-, separated⟩
    refine ⟨fun c _ bare' => ?_, fun _ => separated⟩
    exact absurd (bare.symm.trans bare') (by decide)

end Member

theorem Ty.balances {t : Ty} (normal : t.Normal) (spellable : t.Spellable) :
    ∀ m ∈ t.members, m.Balances spaced marks := by
  induction spellable with
  | @intro t fit _ ih =>
    obtain ⟨-, fits, params⟩ := normal
    exact fun m member => Member.balances (fit m member).1 (fits m member) (fit m member).2
      fun u param => ih m member u param (params m member u param)

/-- The spelling of a type is read only if no name takes what is spelled behind it. -/
theorem Ty.separated_of_ofTag?_spelling {t u : Ty} (normal : t.Normal) (spellable : t.Spellable)
    (read : Ty.ofTag? (.ofList (t.spelling spaced marks)) = some u) : t.Separated spaced := by
  obtain ⟨ms, whole, -⟩ := Option.map_eq_some_iff.mp read
  have zero := balance_eq_zero whole
  rw [String.toList_ofList, Ty.spelling_eq, ← List.append_nil (Member.row _ _ _)] at zero
  obtain ⟨-, kept⟩ := Member.balances_row (Ty.balances normal spellable) []
    fun c none => absurd none (by simp)
  exact Ty.separated_of_apart (kept (zero.trans balance_nil.symm)).2

/-! ### Reading without spaces -/

/-- The tag of a type that was read is read without its spaces as the same type, if no name takes
the closing bracket or the arrow behind it, and is not read otherwise. -/
theorem Ty.ofTag?_compactTag_iff {text : String} {t : Ty} (read : Ty.ofTag? text = some t) :
    (t.Separated false ↔ ∃ u, Ty.ofTag? t.compactTag = some u ∧ u.markedTag = t.markedTag) ∧
      (¬ t.Separated false ↔ Ty.ofTag? t.compactTag = none) := by
  obtain ⟨normal, spellable⟩ := Ty.normal_spellable_of_ofTag? read
  have reads : t.Separated false →
      ∃ u, Ty.ofTag? t.compactTag = some u ∧ u.markedTag = t.markedTag := fun separated =>
    ⟨t.readBack true, Ty.ofTag?_spelling normal spellable separated,
      Ty.text_ofMembers_readBack normal⟩
  have separated : ∀ u, Ty.ofTag? t.compactTag = some u → t.Separated false := fun u =>
    Ty.separated_of_ofTag?_spelling normal spellable
  refine ⟨⟨reads, fun ⟨u, found, _⟩ => separated u found⟩, fun taken => ?_, fun unread apart => ?_⟩
  · cases found : Ty.ofTag? t.compactTag with
    | none => rfl
    | some u => exact absurd (separated u found) taken
  · obtain ⟨u, found, -⟩ := reads apart
    rw [unread] at found
    cases found

/-- Setters and operators among keys, values, tuples and lists, with `=` behind the setter, and `>`
behind an operator. -/
theorem Ty.ofTag?_compactTag_ducks : ∃ t,
    Ty.ofTag? "Hash\x7bArray(#foo, #==), #size= => ::A<#<=, #!>\x7d" = some t ∧
      t.compactTag = "Hash\x7bArray(#foo,#==),#size==>::A<#<=,#!>\x7d" ∧ t.Separated false ∧
      ∃ u, Ty.ofTag? t.compactTag = some u ∧ u.markedTag = t.markedTag := by
  have compact : (Ty.ofTag? "Hash\x7bArray(#foo, #==), #size= => ::A<#<=, #!>\x7d").map
      Ty.compactTag = some "Hash\x7bArray(#foo,#==),#size==>::A<#<=,#!>\x7d" := by decide +kernel
  obtain ⟨t, read, compact⟩ := Option.map_eq_some_iff.mp compact
  obtain ⟨reads, unread⟩ := Ty.ofTag?_compactTag_iff read
  have separated : t.Separated false := by
    by_contra taken
    have found : (Ty.ofTag? "Hash\x7bArray(#foo,#==),#size==>::A<#<=,#!>\x7d").isSome = true := by
      decide +kernel
    rw [← compact, unread.mp taken] at found
    cases found
  exact ⟨t, read, compact, separated, reads.mp separated⟩

/-- `Hash{#foo=>Bar}` is not read: the key takes the `=` of the arrow. -/
theorem Ty.ofTag?_compactTag_ne_duckKey : ¬ ∀ (text : String) (t : Ty), Ty.ofTag? text = some t →
    ∃ u, Ty.ofTag? t.compactTag = some u ∧ u.markedTag = t.markedTag := by
  intro readable
  have compact : (Ty.ofTag? "Hash\x7b#foo => Bar\x7d").map Ty.compactTag =
      some "Hash\x7b#foo=>Bar\x7d" := by decide +kernel
  obtain ⟨t, read, compact⟩ := Option.map_eq_some_iff.mp compact
  obtain ⟨u, found, -⟩ := readable _ t read
  have unread : (Ty.ofTag? "Hash\x7b#foo=>Bar\x7d").isSome = false := by decide +kernel
  rw [← compact, found] at unread
  cases unread

end DuckInfer
