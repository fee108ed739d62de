import DuckInfer.Proofs.Doc.Brackets
import DuckInfer.Proofs.Doc.Kept
import DuckInfer.Proofs.Ty.Characters
import DuckInfer.Proofs.Ty.Unions

/-!
Types that are written in documentation tags. The brackets in a literal count as well when the end
of the types is looked for. Main statements: a type that is read back from its own tag is read back
from a `return` or a `param` tag exactly if the brackets in it are paired up, and it has no line
feed; and no bracket stands alone but in a literal.
-/

namespace DuckInfer.Doc.DocComment

open Text TagGrammar TagLine

/-! ### Types between brackets -/

theorem ty_tagOf (block : TagBlock) :
    (tagOf block).ty = block.line.types.elim .undefined Ty.ofTag := by
  have types : (tagOf block).types = block.line.types := (keepsTag_tagOf block).types
  rw [Tag.ty, types]
  cases block.line.types <;> rfl

/-- The type that is read between brackets with this text between them. -/
def writtenTy (s : List Char) : Ty :=
  (readBracketed? false (s ++ [']'])).elim .undefined fun found =>
    .ofTag (String.ofList (trim found.1))

theorem distinct_writtenTy (s : List Char) : (writtenTy s).Distinct := by
  have read : ∀ text : String, (Ty.ofTag text).Distinct := by
    intro text
    unfold Ty.ofTag Ty.ofTag?
    cases readAll? text.toList with
    | none => exact List.nodup_singleton _
    | some ms => exact Ty.tags_ofMembers_nodup ms
  unfold writtenTy
  cases readBracketed? false (s ++ [']']) with
  | none => exact List.nodup_singleton _
  | some found => exact read _

/-- The tag of a line whose types stand right behind the name, or behind a word. -/
theorem exists_tag_typesLine {name front s : List Char}
    (named : (name.head?.any isNameStart && name.tail.all isNameRest) = true)
    (ends : ∀ c ∈ front.head?, isNameRest c = false) (single : '\n' ∉ typesLine name front s)
    (behind : (readWord? (front ++ typesEnd s)).elim (front ++ typesEnd s) Prod.snd =
      typesEnd s) :
    ∃ tag : Tag, (ofText (String.ofList (typesLine name front s))).tags = [tag] ∧
      tag.name = String.ofList name ∧ tag.ty = writtenTy s ∧
      ∀ word left, readWord? (front ++ typesEnd s) = some (word, left) →
        tag.param = some (String.ofList word) := by
  have tags := tags_of_line single (ofLine_typesLine named ends s) (by rw [ofParts_eq])
  have parts := ofParts_eq false name (front ++ typesEnd s)
  rw [behind] at parts
  refine ⟨_, tags, (keepsTag_tagOf _).name.trans (by rw [parts]), ?_, fun word left read => ?_⟩
  · rw [ty_tagOf, parts, writtenTy]
    dsimp only
    rw [readTypes?_typesEnd]
    cases readBracketed? false (s ++ [']']) <;> rfl
  · have leading : (ofParts false name (front ++ typesEnd s)).leadingWord =
        some (String.ofList word) := by
      rw [parts]
      simp only [read, Option.map_some]
    unfold tagOf
    simp [leading]

theorem returnTy_written {s : List Char} (single : '\n' ∉ s) :
    (ofText (String.ofList (typesLine "return".toList [] s))).returnTy = writtenTy s := by
  have oneLine : '\n' ∉ typesLine "return".toList [] s := by
    simpa [typesLine, typesEnd] using single
  obtain ⟨tag, tags, name, ty, -⟩ := exists_tag_typesLine (by decide) (by simp) oneLine rfl
  have named : (tag.name == "return") = true := by
    rw [name]
    decide
  have kept : (ofText (String.ofList (typesLine "return".toList [] s))).tagsOf "return" =
      [tag] := by
    rw [tagsOf, tags]
    exact List.filter_cons_of_pos named
  rw [returnTy, kept, List.map_singleton, ty]
  exact Ty.unionAll_alone (distinct_writtenTy s)

theorem paramTy_written {word s : List Char} (some : word ≠ []) (all : word.all isWordChar = true)
    (single : '\n' ∉ s) :
    (ofText (String.ofList (typesLine "param".toList (' ' :: word) s))).paramTy
      (String.ofList word) = writtenTy s := by
  have oneLine : '\n' ∉ typesLine "param".toList (' ' :: word) s := by
    have plain : '\n' ∉ word := fun member => absurd (List.all_eq_true.mp all _ member) (by decide)
    simp [typesLine, typesEnd, plain, single]
  have read : readWord? (' ' :: word ++ typesEnd s) = .some (word, typesEnd s) :=
    readWord?_bracket some all _
  have ends : ∀ c ∈ (' ' :: word).head?, isNameRest c = false := by
    intro c first
    exact Option.some.inj first ▸ (by decide)
  obtain ⟨tag, tags, name, ty, param⟩ := exists_tag_typesLine (by decide) ends oneLine
    (by rw [read]; rfl)
  have named : (tag.name == "param") = true := by
    rw [name]
    decide
  have wanted : (tag.param == .some (String.ofList word)) = true := by
    rw [param word _ read, beq_self_eq_true]
  have kept : (ofText (String.ofList (typesLine "param".toList (' ' :: word) s))).tagsOf "param" =
      [tag] := by
    rw [tagsOf, tags]
    exact List.filter_cons_of_pos named
  have found : [tag].find? (·.param == .some (String.ofList word)) = .some tag :=
    List.find?_cons_of_pos wanted
  rw [paramTy, kept, found]
  exact ty

/-! ### Brackets in types -/

theorem ofNames_plain : OfNames fun c => c ≠ '[' ∧ c ≠ ']' := by
  refine ⟨fun c rest => ⟨?_, ?_⟩, forall_mem_of_all (by decide)⟩
  · rintro rfl
    exact absurd rest (by decide)
  · rintro rfl
    exact absurd rest (by decide)

/-- Only in literals may stand a bracket without its counterpart. -/
theorem pairedUp_of_isTagName {name : List Char} (isName : IsTagName name)
    (unquoted : ¬ IsQuoted name) : PairedUp name := by
  rcases isName with isName | ⟨op, listed, rfl⟩
  · exact pairedUp_of_plain (isName.forall_mem ofNames_plain unquoted)
  · have known : operators.all (fun op => decide (PairedUp op)) = true := by decide +kernel
    exact .cons (by decide) (by decide) (of_decide_eq_true (List.all_eq_true.mp known op listed))

/-- All names are names that a tag may have, and the brackets in the literals are paired up. -/
inductive PairedNames : Ty → Prop where
  | intro {t : Ty} :
      (∀ m ∈ t.members, IsTagName m.name.toList ∧
        (IsQuoted m.name.toList → PairedUp m.name.toList)) →
      (∀ m ∈ t.members, ∀ u ∈ m.params, PairedNames u) → PairedNames t

theorem pairedUp_joined {ms : List Member} (each : ∀ m ∈ ms, PairedUp m.tag.toList) :
    PairedUp (Member.joined false ms).toList := by
  have others : ∀ ms : List Member, (∀ m ∈ ms, PairedUp m.tag.toList) →
      PairedUp (Member.followers false ms) := by
    intro ms each
    induction ms with
    | nil => exact .nil
    | cons m ms ih =>
      obtain ⟨first, each⟩ := List.forall_mem_cons.mp each
      have comma : PairedUp [',', ' '] := by decide
      exact (comma.append first).append (ih each)
  cases ms with
  | nil => exact .nil
  | cons m ms =>
    obtain ⟨first, each⟩ := List.forall_mem_cons.mp each
    rw [Member.toList_joined]
    exact first.append (others ms each)

theorem pairedUp_brackets (kind : BracketStyle) {keys subs : List String}
    (pairedKeys : PairedUp (", ".intercalate keys).toList)
    (pairedSubs : PairedUp (", ".intercalate subs).toList) :
    PairedUp (kind.brackets keys subs).toList := by
  have plain : ∀ {s : List Char}, s.all (separators.contains ·) = true → PairedUp s := by
    intro s all
    have apart : ∀ c ∈ separators, c ≠ '[' ∧ c ≠ ']' := forall_mem_of_all (by decide)
    refine pairedUp_of_plain fun c inside => apart c ?_
    simpa using List.all_eq_true.mp all c inside
  cases kind with
  | none => exact .nil
  | list =>
    simp only [BracketStyle.brackets, String.toList_append]
    exact ((plain (by decide)).append pairedSubs).append (plain (by decide))
  | fixed =>
    simp only [BracketStyle.brackets, String.toList_append]
    exact ((plain (by decide)).append pairedSubs).append (plain (by decide))
  | hash =>
    simp only [BracketStyle.brackets, String.toList_append]
    have front := ((plain (s := "\x7b".toList) (by decide)).append pairedKeys).append
      (plain (s := " => ".toList) (by decide))
    exact (front.append pairedSubs).append (plain (by decide))

/-- Operators and parameters leave no bracket alone: the tag of a type is paired up if its literals
are. -/
theorem PairedNames.pairedUp_tag {t : Ty} (names : PairedNames t) : PairedUp t.tag.toList := by
  rw [Ty.tag, Ty.text_eq_joined]
  refine pairedUp_joined ?_
  induction names with
  | @intro t names _ ih =>
    intro m member
    have front : PairedUp m.name.toList := by
      obtain ⟨isName, literal⟩ := names m member
      by_cases quoted : IsQuoted m.name.toList
      · exact literal quoted
      · exact pairedUp_of_isTagName isName quoted
    have row : ∀ ts : List Ty, (∀ u ∈ ts, u ∈ m.params) →
        PairedUp (", ".intercalate (ts.map (Ty.text false))).toList := by
      intro ts params
      rw [Ty.intercalate_texts]
      refine pairedUp_joined fun inner listed => ?_
      obtain ⟨u, param, inside⟩ := List.mem_flatMap.mp listed
      exact ih m member u (params u param) inner inside
    rw [Member.tag, Member.toList_text]
    refine front.append ?_
    unfold Member.bracketText
    split
    · exact .nil
    · exact pairedUp_brackets m.kind (row m.keys fun u key => List.mem_append_left _ key)
        (row m.subs fun u sub => List.mem_append_right _ sub)

/-! ### Line feeds -/

/-- No line feed stands in a type that is read from a comment. -/
theorem newline_not_mem_ty {text : String} {tag : Tag} (listed : tag ∈ (ofText text).tags) :
    '\n' ∉ tag.ty.tag.toList := by
  rw [ofText, ofBlocks, tags_eq] at listed
  obtain ⟨block, member, rfl⟩ := List.mem_map.mp listed
  obtain ⟨line, inside, read⟩ :=
    (divides_blocksFrom _).exists_header (List.mem_filter.mp member).1
  rw [ty_tagOf]
  cases spelled : block.line.types with
  | none => decide
  | some types =>
    intro feed
    have written := Ty.count_tag_ofTag_le (c := '\n') (by decide) (by decide) types
    have positive := List.count_pos_iff.mpr feed
    have member := List.count_pos_iff.mp (Nat.lt_of_lt_of_le positive written)
    exact newline_not_mem_lines inside (mem_of_mem_types read spelled member)

theorem newline_not_mem_returnTy (text : String) : '\n' ∉ (ofText text).returnTy.tag.toList := by
  refine Ty.not_mem_tag_unionAll (by decide) (by decide) fun t listed => ?_
  obtain ⟨tag, member, rfl⟩ := List.mem_map.mp listed
  exact newline_not_mem_ty (List.mem_filter.mp member).1

theorem newline_not_mem_paramTy (text word : String) :
    '\n' ∉ ((ofText text).paramTy word).tag.toList := by
  unfold paramTy
  split
  · rename_i tag found
    exact newline_not_mem_ty (List.mem_filter.mp (List.mem_of_find?_eq_some found)).1
  · decide

/-! ### Written types -/

/-- A tag that is read back is read back between brackets exactly if its own are paired up. -/
theorem tag_writtenTy_iff {t : Ty} (readsBack : (Ty.ofTag t.tag).tag = t.tag) :
    (writtenTy t.tag.toList).tag = t.tag ↔ PairedUp t.tag.toList := by
  constructor
  · intro same
    unfold writtenTy at same
    cases read : readBracketed? false (t.tag.toList ++ [']']) with
    | none =>
      rw [read] at same
      rw [← same]
      decide
    | some found =>
      obtain ⟨text, rest⟩ := found
      rw [read] at same
      have whole := readBracketed?_whole read
      rcases List.eq_nil_or_concat rest with rfl | ⟨front, c, rfl⟩
      · have equal : text = t.tag.toList := List.append_cancel_right whole
        exact equal ▸ pairedUp_of_readBracketed? read
      · -- a closing bracket is left behind, but none comes into a type that is not in its text
        have parts : text ++ ']' :: front = t.tag.toList := by
          have joined : text ++ ']' :: front ++ [c] = t.tag.toList ++ [']'] := by
            rw [← whole]
            simp
          exact (List.append_inj' joined rfl).1
        have written := Ty.count_tag_ofTag_le (c := ']') (by decide) (by decide)
          (String.ofList (trim text))
        have trimmed := (trim_sublist text).count_le ']'
        have total := congrArg (List.count ']') parts
        rw [Option.elim_some] at same
        rw [same, String.toList_ofList] at written
        rw [List.count_append, List.count_cons_self] at total
        omega
  · intro paired
    have firm : Firm t.tag.toList := by
      unfold Ty.ofTag at readsBack
      cases read : Ty.ofTag? t.tag with
      | none =>
        rw [read, Option.getD_none] at readsBack
        rw [← readsBack]
        exact firm_of_visible (by decide) (forall_mem_of_all (by decide))
      | some u =>
        rw [read, Option.getD_some] at readsBack
        rw [← readsBack]
        exact Ty.firm_tag read
    rw [writtenTy, paired.readBracketed? []]
    rw [Option.elim_some, firm.trim_eq, String.ofList_toList, readsBack]

/-- A type that is read back from its own tag is read back from a `return` or a `param` tag exactly
if it has no line feed and its brackets are paired up. -/
theorem tag_returnTy_paramTy_iff (t : Ty) (readsBack : (Ty.ofTag t.tag).tag = t.tag) :
    ((ofText ("@return [" ++ t.tag ++ "]")).returnTy.tag = t.tag ↔
      '\n' ∉ t.tag.toList ∧ PairedUp t.tag.toList) ∧
    ∀ word : String, word ≠ "" → word.toList.all isWordChar = true →
      (((ofText ("@param " ++ word ++ " [" ++ t.tag ++ "]")).paramTy word).tag = t.tag ↔
        '\n' ∉ t.tag.toList ∧ PairedUp t.tag.toList) := by
  have returns : "@return [" ++ t.tag ++ "]" =
      String.ofList (typesLine "return".toList [] t.tag.toList) := by
    simp [← String.toList_inj, typesLine, typesEnd]
  constructor
  · by_cases single : '\n' ∈ t.tag.toList
    · refine iff_of_false (fun same => ?_) fun both => both.1 single
      have none := newline_not_mem_returnTy ("@return [" ++ t.tag ++ "]")
      rw [same] at none
      exact none single
    · rw [returns, returnTy_written single, tag_writtenTy_iff readsBack, and_iff_right single]
  · intro word some all
    have params : "@param " ++ word ++ " [" ++ t.tag ++ "]" =
        String.ofList (typesLine "param".toList (' ' :: word.toList) t.tag.toList) := by
      simp [← String.toList_inj, typesLine, typesEnd]
    by_cases single : '\n' ∈ t.tag.toList
    · refine iff_of_false (fun same => ?_) fun both => both.1 single
      have none := newline_not_mem_paramTy ("@param " ++ word ++ " [" ++ t.tag ++ "]") word
      rw [same] at none
      exact none single
    · have written := paramTy_written (by simpa using some) all single
      rw [String.ofList_toList] at written
      rw [params, written, tag_writtenTy_iff readsBack, and_iff_right single]

/-- `Array<#[]>, "[x]"`, a duck type and a literal with brackets. -/
def bracketed : Ty :=
  .ofMembers [.list "Array" [.single (.named "#[]")], .named "\"[x]\""]

theorem tag_returnTy_paramTy_bracketed : (Ty.ofTag bracketed.tag).tag = bracketed.tag ∧
    (ofText ("@return [" ++ bracketed.tag ++ "]")).returnTy.tag = bracketed.tag ∧
    ((ofText ("@param " ++ "xs" ++ " [" ++ bracketed.tag ++ "]")).paramTy "xs").tag =
      bracketed.tag := by
  have readsBack : (Ty.ofTag bracketed.tag).tag = bracketed.tag := by decide +kernel
  have both := tag_returnTy_paramTy_iff bracketed readsBack
  have paired : '\n' ∉ bracketed.tag.toList ∧ PairedUp bracketed.tag.toList := by decide +kernel
  have returned := both.1.mpr paired
  have passed := (both.2 "xs" (by decide) (by decide)).mpr paired
  exact ⟨readsBack, returned, passed⟩

/-- The bracket of the literal `'a]'` is taken for the end of the types. -/
theorem tag_returnTy_ne_closed : (Ty.ofTag (Ty.single (.named "'a]'")).tag).tag = "'a]'" ∧
    (ofText "@return ['a]']").returnTy.tag = "undefined" := by
  decide +kernel

end DuckInfer.Doc.DocComment
