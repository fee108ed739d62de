import DuckInfer.Proofs.Text.Visible
import DuckInfer.Proofs.Ty.Reading
import DuckInfer.Proofs.Ty.Tags
import Mathlib.Data.List.Flatten

/-!
The characters of types, and of the texts that they are read from. Main statements: the tag of a
type that was read begins and ends with visible characters; and a character that separates nothing
does not stand in it more often than in the text.
-/

namespace DuckInfer

open Text

namespace TagGrammar

/-! ### The characters of a name -/

theorem isBlank_of_isIdentRest {c : Char} (rest : isIdentRest c = true) : isBlank c = false := by
  have between : ∀ {low high : UInt32}, 33 ≤ low.toNat → high.toNat ≤ 122 →
      low ≤ c.val ∧ c.val ≤ high → 33 ≤ c.toNat ∧ c.toNat ≤ 122 := fun first last inside =>
    ⟨Nat.le_trans first inside.1, Nat.le_trans inside.2 last⟩
  have range : 33 ≤ c.toNat ∧ c.toNat ≤ 122 := by
    rcases Bool.or_eq_true_iff.mp rest with known | same
    · have either : (c.isAlpha || c.isDigit) = true := known
      rcases Bool.or_eq_true_iff.mp either with letter | digit
      · rcases range_of_isAlpha letter with upper | lower
        · exact between (by decide) (by decide) upper
        · exact between (by decide) (by decide) lower
      · exact between (by decide) (by decide) (range_of_isDigit digit)
    · rw [beq_iff_eq.mp same]
      decide
  simp only [isBlank, Bool.or_eq_false_iff, Bool.and_eq_false_iff, decide_eq_false_iff_not,
    beq_eq_false_iff_ne]
  omega

/-- It holds of every character that stands in a name outside of literals and operators. -/
structure OfNames (p : Char → Prop) : Prop where
  rest : ∀ c, isIdentRest c = true → p c
  others : ∀ c ∈ ['?', '!', ':', '#', '=', '-', '.'], p c

section

variable {p : Char → Prop} (holds : OfNames p) {name : List Char}

include holds

theorem IsIdent.forall_mem (isIdent : IsIdent name) : ∀ c ∈ name, p c := by
  obtain ⟨first, others, mark, rfl, start, inside, known⟩ := isIdent
  have first' : isIdentRest first = true := by
    rcases Bool.or_eq_true_iff.mp start with letter | same
    · simp [isIdentRest, Char.isAlphanum, letter]
    · simp [isIdentRest, same]
  refine List.forall_mem_append.mpr ⟨List.forall_mem_cons.mpr ⟨holds.rest first first',
    fun c member => holds.rest c (List.all_eq_true.mp inside c member)⟩, ?_⟩
  simp only [List.mem_cons, List.not_mem_nil, or_false] at known
  rcases known with rfl | rfl | rfl
  · exact fun c none => absurd none List.not_mem_nil
  · exact List.forall_mem_singleton.mpr (holds.others '?' (by decide))
  · exact List.forall_mem_singleton.mpr (holds.others '!' (by decide))

theorem IsPath.forall_mem (isPath : IsPath name) : ∀ c ∈ name, p c := by
  obtain ⟨first, others, rfl, isIdent, idents⟩ := isPath
  refine List.forall_mem_append.mpr ⟨isIdent.forall_mem holds, fun c member => ?_⟩
  obtain ⟨segment, listed, inside⟩ := List.mem_flatMap.mp member
  have colon := holds.others ':' (by decide)
  rcases List.mem_cons.mp inside with rfl | inside
  · exact colon
  rcases List.mem_cons.mp inside with rfl | inside
  · exact colon
  exact (idents segment listed).forall_mem holds c inside

theorem IsUnsigned.forall_mem (isUnsigned : IsUnsigned name) : ∀ c ∈ name, p c := by
  have digits : ∀ {digits : List Char}, IsDigits digits → ∀ c ∈ digits, p c := by
    intro digits isDigits c member
    refine holds.rest c ?_
    simp [isIdentRest, Char.isAlphanum, List.all_eq_true.mp isDigits.2 c member]
  rcases isUnsigned with isDigits | ⟨whole, fraction, rfl, isWhole, isFraction⟩
  · exact digits isDigits
  · exact List.forall_mem_append.mpr ⟨digits isWhole,
      List.forall_mem_cons.mpr ⟨holds.others '.' (by decide), digits isFraction⟩⟩

/-- It holds of all characters of a name that is no literal in quotes and no operator. -/
theorem IsName.forall_mem (isName : IsName name) (unquoted : ¬ IsQuoted name) :
    ∀ c ∈ name, p c := by
  rcases isName with ⟨ident, isIdent, spelled⟩ | ⟨ident, isIdent, rfl⟩ | isQuoted | isNumber |
    isPath
  · have front := List.forall_mem_cons.mpr
      ⟨holds.others '#' (by decide), isIdent.forall_mem holds⟩
    rcases spelled with rfl | rfl
    · exact front
    · exact List.forall_mem_append.mpr
        ⟨front, List.forall_mem_singleton.mpr (holds.others '=' (by decide))⟩
  · exact List.forall_mem_cons.mpr ⟨holds.others ':' (by decide), isIdent.forall_mem holds⟩
  · exact absurd isQuoted unquoted
  · rcases isNumber with isUnsigned | ⟨number, rfl, isUnsigned⟩
    · exact isUnsigned.forall_mem holds
    · exact List.forall_mem_cons.mpr ⟨holds.others '-' (by decide), isUnsigned.forall_mem holds⟩
  · exact isPath.forall_mem holds

end

theorem ofNames_visible : OfNames fun c => isBlank c = false :=
  ⟨fun _ => isBlank_of_isIdentRest, forall_mem_of_all (by decide)⟩

/-- A name begins and ends with a visible character. Blanks may stand inside, between quotes. -/
theorem IsTagName.firm {name : List Char} (isName : IsTagName name) : Firm name := by
  have some := isName.ne_nil
  rcases isName with isName | ⟨op, listed, rfl⟩
  · by_cases quoted : IsQuoted name
    · obtain ⟨quote, inner, known, -, rfl⟩ := quoted
      have solid : isBlank quote = false := by rcases known with rfl | rfl <;> decide
      exact ⟨⟨quote, inner ++ [quote], rfl, solid⟩, quote :: inner, quote, rfl, solid⟩
    · exact firm_of_visible some (isName.forall_mem ofNames_visible quoted)
  · have known : operators.all (fun op => op.all fun c => !isBlank c) = true := by decide +kernel
    refine firm_of_visible some (List.forall_mem_cons.mpr ⟨by decide, fun c member => ?_⟩)
    simpa using List.all_eq_true.mp (List.all_eq_true.mp known op listed) c member

end TagGrammar

open TagGrammar

/-! ### The ends of a tag -/

namespace Member

theorem firm_bracketText {m : Member} (some : m.bracketText ≠ []) : Firm m.bracketText := by
  have enclosed : ∀ {c d : Char} {inner : List Char}, isBlank c = false → isBlank d = false →
      Firm ([c] ++ inner ++ [d]) := fun solid solid' =>
    Firm.append (firm_of_visible (List.cons_ne_nil _ _) (List.forall_mem_singleton.mpr solid))
      (firm_of_visible (List.cons_ne_nil _ _) (List.forall_mem_singleton.mpr solid')) _
  unfold bracketText at some ⊢
  split at some
  · exact absurd rfl some
  · rename_i known
    rw [if_neg known]
    cases kind : m.kind with
    | none =>
      rw [kind] at some
      exact absurd rfl some
    | list =>
      simp only [BracketStyle.brackets, String.toList_append, toList_angle]
      exact enclosed (c := '<') (d := '>') (by decide) (by decide)
    | fixed =>
      simp only [BracketStyle.brackets, String.toList_append, toList_round]
      exact enclosed (c := '(') (d := ')') (by decide) (by decide)
    | hash =>
      simp only [BracketStyle.brackets, String.toList_append, toList_curly]
      rw [List.append_assoc ['{'], List.append_assoc ['{']]
      exact enclosed (c := '{') (d := '}') (by decide) (by decide)

theorem firm_tag {m : Member} (isName : IsTagName m.name.toList) : Firm m.tag.toList := by
  rw [tag, toList_text]
  by_cases bare : m.bracketText = []
  · rw [bare, List.append_nil]
    exact isName.firm
  · have whole := isName.firm.append (firm_bracketText bare) []
    rwa [List.append_nil] at whole

theorem firm_append_followers {ms : List Member} (firm : ∀ m ∈ ms, Firm m.tag.toList) :
    ∀ {s : List Char}, Firm s → Firm (s ++ followers false ms) := by
  induction ms with
  | nil =>
    intro s front
    rwa [followers, List.flatMap_nil, List.append_nil]
  | cons m ms ih =>
    intro s front
    have longer : Firm (s ++ [',', ' '] ++ m.tag.toList) :=
      front.append (firm m List.mem_cons_self) [',', ' ']
    have whole := ih (fun m member => firm m (List.mem_cons_of_mem _ member)) longer
    simpa [followers, tag] using whole

end Member

/-- The tag of a type that was read begins and ends with visible characters. -/
theorem Ty.firm_tag {text : String} {t : Ty} (read : Ty.ofTag? text = some t) :
    Firm t.tag.toList := by
  have firm : ∀ m ∈ t.members, Firm m.tag.toList := fun m member =>
    Member.firm_tag (wasRead_of_ofTag? read m member).name_fits.1
  rw [Ty.tag, Ty.text_eq_joined, Ty.members, Member.toList_joined]
  exact Member.firm_append_followers (fun m member => firm m (List.mem_cons_of_mem _ member))
    (firm t.first List.mem_cons_self)

/-! ### How often a character stands in a tag -/

/-- The characters that are written between names. -/
def separators : List Char :=
  ['<', '>', '(', ')', '{', '}', ',', ' ', '=']

/-- How often a character stands in the tags of members. -/
def Member.occurrences (c : Char) (ms : List Member) : Nat :=
  (ms.flatMap fun m => m.tag.toList).count c

namespace Member

@[simp]
theorem occurrences_nil (c : Char) : occurrences c [] = 0 :=
  rfl

@[simp]
theorem occurrences_cons (c : Char) (m : Member) (ms : List Member) :
    occurrences c (m :: ms) = m.tag.toList.count c + occurrences c ms := by
  rw [occurrences, List.flatMap_cons, List.count_append, occurrences]

theorem occurrences_eq_zero {c : Char} {ms : List Member} :
    occurrences c ms = 0 ↔ ∀ m ∈ ms, c ∉ m.tag.toList := by
  rw [occurrences, List.count_eq_zero, List.mem_flatMap]
  exact ⟨fun none m member inside => none ⟨m, member, inside⟩,
    fun none ⟨m, member, inside⟩ => none m member inside⟩

theorem occurrences_le_of_sublist {c : Char} {ms ms' : List Member} (inside : ms.Sublist ms') :
    occurrences c ms ≤ occurrences c ms' :=
  (inside.flatMap fun m => m.tag.toList).count_le c

end Member

section

variable {c : Char} (apart : c ∉ separators)

include apart

theorem count_joined (ms : List Member) :
    (Member.joined false ms).toList.count c = Member.occurrences c ms := by
  have others : ∀ ms : List Member,
      (Member.followers false ms).count c = Member.occurrences c ms := by
    intro ms
    induction ms with
    | nil => rfl
    | cons m ms ih =>
      have comma : c ≠ ',' ∧ c ≠ ' ' := by
        constructor <;> rintro rfl <;> exact apart (by decide)
      rw [Member.followers, List.flatMap_cons, List.count_append,
        List.count_cons_of_ne comma.1.symm, List.count_cons_of_ne comma.2.symm,
        Member.occurrences_cons, ← ih]
      rfl
  cases ms with
  | nil => rfl
  | cons m ms =>
    rw [Member.toList_joined, List.count_append, others, Member.occurrences_cons]
    rfl

/-- Brackets and what separates parameters do not count. -/
theorem count_brackets_le (kind : BracketStyle) (keys subs : List Ty) :
    (kind.brackets (keys.map (Ty.text false)) (subs.map (Ty.text false))).toList.count c ≤
      Member.occurrences c (keys.flatMap Ty.members) +
        Member.occurrences c (subs.flatMap Ty.members) := by
  have only : ∀ {s : List Char}, s.all (separators.contains ·) = true → s.count c = 0 := by
    intro s all
    refine List.count_eq_zero.mpr fun member => apart ?_
    simpa using List.all_eq_true.mp all c member
  cases kind with
  | none => exact Nat.zero_le _
  | list =>
    simp only [BracketStyle.brackets, Ty.intercalate_texts, String.toList_append, toList_angle,
      List.count_append, count_joined apart, only (s := ['<']) (by decide),
      only (s := ['>']) (by decide)]
    omega
  | fixed =>
    simp only [BracketStyle.brackets, Ty.intercalate_texts, String.toList_append, toList_round,
      List.count_append, count_joined apart, only (s := ['(']) (by decide),
      only (s := [')']) (by decide)]
    omega
  | hash =>
    simp only [BracketStyle.brackets, Ty.intercalate_texts, String.toList_append, toList_curly,
      List.count_append, count_joined apart, only (s := ['{']) (by decide),
      only (s := ['}']) (by decide), only (s := [' ', '=', '>', ' ']) (by decide)]
    omega

theorem count_tag_le (m : Member) :
    m.tag.toList.count c ≤ m.name.toList.count c +
      (Member.occurrences c (m.keys.flatMap Ty.members) +
        Member.occurrences c (m.subs.flatMap Ty.members)) := by
  rw [Member.tag, Member.toList_text, List.count_append]
  unfold Member.bracketText
  split
  · rw [List.count_nil]
    omega
  · have inner := count_brackets_le apart m.kind m.keys m.subs
    omega

end

namespace TagGrammar

/-- A character does not stand more often in what was read and in the rest than in the text. -/
structure Bounds (c : Char) (fuel : Nat) : Prop where
  member : ∀ {s left : List Char} {m : Member}, readMember? fuel s = some (m, left) →
    m.tag.toList.count c + left.count c ≤ s.count c
  params : ∀ {s left : List Char} {kind : BracketStyle} {keys subs : List Ty},
    readParams? fuel s = some ((kind, keys, subs), left) →
      Member.occurrences c (keys.flatMap Ty.members) +
        Member.occurrences c (subs.flatMap Ty.members) + left.count c ≤ s.count c
  members : ∀ {s left : List Char} {ms : List Member}, readMembers? fuel s = some (ms, left) →
    Member.occurrences c ms + left.count c ≤ s.count c
  more : ∀ s : List Char,
    Member.occurrences c (readMore fuel s).1 + (readMore fuel s).2.count c ≤ s.count c

variable {c : Char} {fuel : Nat}

theorem count_skipGap_le (s : List Char) : (skipGap s).count c ≤ s.count c :=
  (List.dropWhile_sublist _).count_le c

/-- The text goes on behind a token and a gap. -/
theorem count_le_of_skipGap {s left : List Char} {d : Char} (same : skipGap s = d :: left) :
    left.count c ≤ s.count c := by
  have gap := count_skipGap_le (c := c) s
  rw [same] at gap
  exact Nat.le_trans List.count_le_count_cons gap

theorem Bounds.step_member (apart : c ∉ separators) (bounds : Bounds c fuel)
    {s left : List Char} {m : Member} (read : readMember? (fuel + 1) s = some (m, left)) :
    m.tag.toList.count c + left.count c ≤ s.count c := by
  obtain ⟨marked, tail, name, rest, kind, keys, subs, inside, named, rfl, params⟩ :=
    readMember?_cases read
  have front : tail.count c ≤ s.count c := by
    rcases inside with rfl | ⟨behind, rfl, rfl⟩
    · exact Nat.le_refl _
    · exact (((List.dropWhile_sublist _).cons _).cons _).count_le c
  rw [← (of_readName? named).2, List.count_append] at front
  have written : _ ≤ (String.ofList name).toList.count c +
      (Member.occurrences c (keys.flatMap Ty.members) +
        Member.occurrences c (subs.flatMap Ty.members)) :=
    count_tag_le apart (.make (String.ofList name) marked kind keys subs)
  rw [String.toList_ofList] at written
  rcases params with params | ⟨rfl, rfl, rfl⟩
  · have inner := bounds.params params
    have gap := count_skipGap_le (c := c) rest
    omega
  · rw [flatMap_members_slots, Member.occurrences_nil] at written
    omega

/-- A row of parameters may be empty. -/
theorem Bounds.row (bounds : Bounds c fuel) {rest behind : List Char} {ms : List Member}
    (row : (readMembers? fuel (skipGap rest)).getD ([], rest) = (ms, behind)) :
    Member.occurrences c ms + behind.count c ≤ rest.count c := by
  cases read : readMembers? fuel (skipGap rest) with
  | none =>
    rw [read, Option.getD_none] at row
    cases row
    rw [Member.occurrences_nil]
    omega
  | some found =>
    rw [read, Option.getD_some] at row
    subst row
    have inner := bounds.members read
    have gap := count_skipGap_le (c := c) rest
    omega

theorem Bounds.step_params (bounds : Bounds c fuel) {s left : List Char} {kind : BracketStyle}
    {keys subs : List Ty} (read : readParams? (fuel + 1) s = some ((kind, keys, subs), left)) :
    Member.occurrences c (keys.flatMap Ty.members) +
      Member.occurrences c (subs.flatMap Ty.members) + left.count c ≤ s.count c := by
  have opened : ∀ (d : Char) (rest : List Char), rest.count c ≤ (d :: rest).count c :=
    fun _ _ => List.count_le_count_cons
  rcases readParams?_cases read with ⟨opening, closing, rest, ms, behind, -, rfl, row, closed, rfl,
    rfl⟩ | ⟨rest, keyMembers, behind, arrow, subMembers, behind', -, rfl, readKeys, middle,
    readSubs, closed, rfl, rfl⟩
  · have inner := bounds.row row
    have outer := opened opening rest
    have back := count_le_of_skipGap (c := c) closed
    rw [flatMap_members_slots, flatMap_members_slots, Member.occurrences_nil]
    omega
  · have inner := bounds.members readKeys
    have inner' := bounds.members readSubs
    have gap := count_skipGap_le (c := c) rest
    have gap' := count_skipGap_le (c := c) arrow
    have outer := opened '{' rest
    have between := count_le_of_skipGap (c := c) middle
    have between' := opened '>' arrow
    have back := count_le_of_skipGap (c := c) closed
    rw [flatMap_members_slots, flatMap_members_slots]
    omega

theorem Bounds.step_members (bounds : Bounds c fuel) {s left : List Char} {ms : List Member}
    (read : readMembers? (fuel + 1) s = some (ms, left)) :
    Member.occurrences c ms + left.count c ≤ s.count c := by
  unfold readMembers? at read
  split at read
  · cases read
  · rename_i m rest first
    cases read
    have front := bounds.member first
    have back := bounds.more rest
    rw [Member.occurrences_cons]
    omega

theorem Bounds.step_more (bounds : Bounds c fuel) (s : List Char) :
    Member.occurrences c (readMore (fuel + 1) s).1 + (readMore (fuel + 1) s).2.count c ≤
      s.count c := by
  have nothing : Member.occurrences c [] + s.count c ≤ s.count c := by
    rw [Member.occurrences_nil]
    omega
  unfold readMore
  split
  · rename_i rest comma
    split
    · rename_i m behind first
      have front := bounds.member first
      have gap := count_skipGap_le (c := c) rest
      have between := count_le_of_skipGap (c := c) comma
      have back := bounds.more behind
      simp only [Member.occurrences_cons]
      omega
    · exact nothing
  · exact nothing

theorem bounds (apart : c ∉ separators) (fuel : Nat) : Bounds c fuel := by
  induction fuel with
  | zero =>
    refine ⟨fun read => ?_, fun read => ?_, fun read => ?_, fun s => Nat.le_of_eq (Nat.zero_add _)⟩
    · cases read
    · cases read
    · cases read
  | succ fuel ih =>
    exact ⟨ih.step_member apart, ih.step_params, ih.step_members, ih.step_more⟩

end TagGrammar

namespace Ty

variable {c : Char}

theorem count_tag (apart : c ∉ separators) (t : Ty) :
    t.tag.toList.count c = Member.occurrences c t.members := by
  rw [tag, text_eq_joined, count_joined apart]

/-- A character that separates nothing stands in the tag of a type that was read at most as often
as in the text. -/
theorem count_tag_ofTag_le (apart : c ∉ separators) (known : c ∉ "undefined".toList)
    (text : String) : (ofTag text).tag.toList.count c ≤ text.toList.count c := by
  cases read : ofTag? text with
  | none =>
    have none : (ofTag text).tag.toList.count c = 0 := by
      rw [ofTag, read]
      exact List.count_eq_zero.mpr known
    omega
  | some t =>
    rw [ofTag, read, Option.getD_some, count_tag apart]
    obtain ⟨ms, whole, rfl⟩ := Option.map_eq_some_iff.mp read
    unfold readAll? at whole
    split at whole
    · rename_i found
      split at whole
      · cases whole
        have nonempty := (Member.wasRead_of_readMembers? found).1
        have inner := (bounds apart _).members found
        have gap := count_skipGap_le (c := c) text.toList
        have kept := Member.occurrences_le_of_sublist (c := c)
          (distinctFrom_sublist Member.tag ms [])
        rw [members_ofMembers nonempty]
        exact Nat.le_trans kept (by omega)
      · cases whole
    · cases whole

/-- No character comes into a union that stands in none of its parts. -/
theorem not_mem_tag_unionAll (apart : c ∉ separators) (known : c ∉ "undefined".toList)
    {ts : List Ty} (none : ∀ t ∈ ts, c ∉ t.tag.toList) : c ∉ (unionAll ts).tag.toList := by
  by_cases some : ts = []
  · subst some
    exact known
  · rw [← List.count_eq_zero, count_tag apart, Member.occurrences_eq_zero]
    intro m member
    obtain ⟨t, part, member⟩ := exists_of_mem_unionAll some member
    have whole := List.count_eq_zero.mpr (none t part)
    rw [count_tag apart, Member.occurrences_eq_zero] at whole
    exact whole m member

end Ty

end DuckInfer
