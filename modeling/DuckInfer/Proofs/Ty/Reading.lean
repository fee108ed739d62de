import DuckInfer.Proofs.Ty.Constants
import Mathlib.Data.List.TakeWhile
import Mathlib.Data.Option.Basic

/-!
What can be read. A reader is followed from what it gives to the text that it was given. Main
statements: what is read as a name is a name that a tag may have, and the text goes on right behind
it; and the types that tags spell are normal, with such names, with brackets that fit, and with one
member in each parameter.
-/

namespace DuckInfer

namespace TagGrammar

/-! ### What is read as a name -/

theorem mem_readMark (s : List Char) : (readMark s).1 ∈ [[], ['?'], ['!']] := by
  unfold readMark
  split <;> simp

theorem isIdent_of_readIdent? {s ident rest : List Char}
    (read : readIdent? s = some (ident, rest)) : IsIdent ident := by
  cases s with
  | nil => cases read
  | cons c s =>
    rw [readIdent?] at read
    split at read
    · rename_i start
      have known := mem_readMark (s.dropWhile isIdentRest)
      generalize readMark (s.dropWhile isIdentRest) = found at read known
      cases read
      exact ⟨c, s.takeWhile isIdentRest, found.1, rfl, start,
        List.all_eq_true.mpr fun _ => List.mem_takeWhile_imp, known⟩
    · cases read

theorem exists_segments (fuel : Nat) (s : List Char) : ∃ others : List (List Char),
    (readSegments fuel s).1 = others.flatMap (fun segment => ':' :: ':' :: segment) ∧
      ∀ segment ∈ others, IsIdent segment := by
  have nothing : ∃ others : List (List Char),
      [] = others.flatMap (fun segment => ':' :: ':' :: segment) ∧
        ∀ segment ∈ others, IsIdent segment :=
    ⟨[], rfl, fun _ none => absurd none List.not_mem_nil⟩
  induction fuel generalizing s with
  | zero => exact nothing
  | succ fuel ih =>
    unfold readSegments
    split
    · split
      · rename_i ident left read
        obtain ⟨others, same, idents⟩ := ih left
        refine ⟨ident :: others, ?_,
          List.forall_mem_cons.mpr ⟨isIdent_of_readIdent? read, idents⟩⟩
        rw [List.flatMap_cons, ← same]
      · exact nothing
    · exact nothing

theorem isPath_of_readPath? {s path rest : List Char} (read : readPath? s = some (path, rest)) :
    IsPath path := by
  obtain ⟨⟨ident, left⟩, first, segments⟩ := Option.map_eq_some_iff.mp read
  cases segments
  obtain ⟨others, same, idents⟩ := exists_segments left.length left
  exact ⟨ident, others, congrArg (ident ++ ·) same, isIdent_of_readIdent? first, idents⟩

theorem of_readOperator? {s op rest : List Char} (read : readOperator? s = some (op, rest)) :
    op ∈ operators ∧ op ++ rest = s := by
  obtain ⟨known, listed, found⟩ := List.exists_of_findSome?_eq_some read
  obtain ⟨left, after, same⟩ := Option.map_eq_some_iff.mp found
  cases same
  unfold after? at after
  split at after
  · rename_i begins
    cases after
    exact ⟨listed, List.prefix_iff_eq_append.mp (List.isPrefixOf_iff_prefix.mp begins)⟩
  · cases after

theorem of_readDuck? {s name rest : List Char} (read : readDuck? s = some (name, rest)) :
    IsTagName name ∧ name ++ rest = s := by
  unfold readDuck? at read
  split at read
  · split at read
    · rename_i found
      cases read
      obtain ⟨listed, whole⟩ := of_readOperator? found
      exact ⟨.inr ⟨_, listed, rfl⟩, congrArg ('#' :: ·) whole⟩
    · split at read
      · rename_i found
        cases read
        refine ⟨.inl (.inl ⟨_, isIdent_of_readIdent? found, .inr rfl⟩), ?_⟩
        rw [← readIdent?_whole found]
        simp
      · rename_i found
        cases read
        exact ⟨.inl (.inl ⟨_, isIdent_of_readIdent? found, .inl rfl⟩),
          congrArg ('#' :: ·) (readIdent?_whole found)⟩
      · cases read
  · cases read

theorem of_readSymbol? {s name rest : List Char} (read : readSymbol? s = some (name, rest)) :
    IsSymbol name ∧ name ++ rest = s := by
  unfold readSymbol? at read
  split at read
  · obtain ⟨⟨ident, left⟩, found, same⟩ := Option.map_eq_some_iff.mp read
    cases same
    exact ⟨⟨ident, isIdent_of_readIdent? found, rfl⟩, congrArg (':' :: ·) (readIdent?_whole found)⟩
  · cases read

theorem of_readQuoted? {s name rest : List Char} (read : readQuoted? s = some (name, rest)) :
    IsQuoted name ∧ name ++ rest = s := by
  unfold readQuoted? at read
  split at read
  · cases read
  · rename_i quote s
    split at read
    · rename_i opens
      split at read
      · cases read
      · rename_i c left closes
        cases read
        have known : quote = '\'' ∨ quote = '"' := by simpa using opens
        have closing : c = quote := by
          have first := List.head?_dropWhile_not (· != quote) s
          rw [closes] at first
          simpa using first
        subst closing
        refine ⟨⟨c, s.takeWhile (· != c), known, ?_, rfl⟩, ?_⟩
        · intro inside
          simpa using List.mem_takeWhile_imp inside
        · rw [List.cons_append, List.cons_append, List.append_assoc, List.singleton_append,
            ← closes, List.takeWhile_append_dropWhile]
    · cases read

theorem of_readDigits? {s digits rest : List Char} (read : readDigits? s = some (digits, rest)) :
    IsDigits digits ∧ digits ++ rest = s := by
  unfold readDigits? at read
  split at read
  · cases read
  · rename_i some
    cases read
    exact ⟨⟨some, List.all_eq_true.mpr fun _ => List.mem_takeWhile_imp⟩,
      List.takeWhile_append_dropWhile⟩

theorem of_readUnsigned? {s number rest : List Char}
    (read : readUnsigned? s = some (number, rest)) : IsUnsigned number ∧ number ++ rest = s := by
  unfold readUnsigned? at read
  split at read
  · cases read
  · rename_i whole behind found
    obtain ⟨isWhole, split⟩ := of_readDigits? found
    split at read
    · rename_i fraction left found'
      cases read
      obtain ⟨isFraction, split'⟩ := of_readDigits? found'
      refine ⟨.inr ⟨whole, fraction, rfl, isWhole, isFraction⟩, ?_⟩
      rw [← split, ← split']
      simp
    · cases read
      exact ⟨.inl isWhole, split⟩
  · rename_i found
    cases read
    obtain ⟨isWhole, split⟩ := of_readDigits? found
    exact ⟨.inl isWhole, split⟩

theorem of_readNumber? {s name rest : List Char} (read : readNumber? s = some (name, rest)) :
    IsNumber name ∧ name ++ rest = s := by
  unfold readNumber? at read
  split at read
  · obtain ⟨⟨number, left⟩, found, same⟩ := Option.map_eq_some_iff.mp read
    cases same
    obtain ⟨isUnsigned, whole⟩ := of_readUnsigned? found
    exact ⟨.inr ⟨number, rfl, isUnsigned⟩, congrArg ('-' :: ·) whole⟩
  · obtain ⟨isUnsigned, whole⟩ := of_readUnsigned? read
    exact ⟨.inl isUnsigned, whole⟩

/-- What is read as a name is one, and the text goes on right behind it. -/
theorem of_readName? {s name rest : List Char} (read : readName? s = some (name, rest)) :
    IsTagName name ∧ name ++ rest = s := by
  unfold readName? at read
  rcases (Option.orElse_eq_some ..).mp read with duck | ⟨-, read⟩
  · exact of_readDuck? duck
  rcases (Option.orElse_eq_some ..).mp read with symbol | ⟨-, read⟩
  · exact ⟨.inl (.inr (.inl (of_readSymbol? symbol).1)), (of_readSymbol? symbol).2⟩
  rcases (Option.orElse_eq_some ..).mp read with quoted | ⟨-, read⟩
  · exact ⟨.inl (.inr (.inr (.inl (of_readQuoted? quoted).1))), (of_readQuoted? quoted).2⟩
  rcases (Option.orElse_eq_some ..).mp read with number | ⟨-, path⟩
  · exact ⟨.inl (.inr (.inr (.inr (.inl (of_readNumber? number).1)))), (of_readNumber? number).2⟩
  · exact ⟨.inl (.inr (.inr (.inr (.inr (isPath_of_readPath? path))))), readPath?_whole path⟩

end TagGrammar

open TagGrammar

/-! ### What is read as a member -/

/-- Parameters are read as a row in brackets, which may be empty, or as the two rows of a hash. -/
theorem readParams?_cases {fuel : Nat} {s left : List Char} {kind : BracketStyle}
    {keys subs : List Ty} (read : readParams? (fuel + 1) s = some ((kind, keys, subs), left)) :
    (∃ opening closing rest ms behind,
        (kind, opening, closing) ∈ [(.list, '<', '>'), (.fixed, '(', ')')] ∧
        s = opening :: rest ∧
        (readMembers? fuel (skipGap rest)).getD ([], rest) = (ms, behind) ∧
        skipGap behind = closing :: left ∧ keys = slots [] ∧ subs = slots ms) ∨
      ∃ rest keyMembers behind arrow subMembers behind', kind = .hash ∧ s = '{' :: rest ∧
        readMembers? fuel (skipGap rest) = some (keyMembers, behind) ∧
        skipGap behind = '=' :: '>' :: arrow ∧
        readMembers? fuel (skipGap arrow) = some (subMembers, behind') ∧
        skipGap behind' = '}' :: left ∧ keys = slots keyMembers ∧ subs = slots subMembers := by
  cases s with
  | nil => cases read
  | cons opening rest =>
    unfold readParams? at read
    split at read
    · cases read
    · rename_i fuel' rest' same begins
      cases same
      cases begins
      split at read
      rename_i ms behind row
      split at read
      · rename_i closed
        cases read
        exact Or.inl ⟨_, _, _, ms, behind, List.mem_cons_self, rfl, row, closed, rfl, rfl⟩
      · cases read
    · rename_i fuel' rest' same begins
      cases same
      cases begins
      split at read
      rename_i ms behind row
      split at read
      · rename_i closed
        cases read
        exact Or.inl ⟨_, _, _, ms, behind, List.mem_cons_of_mem _ List.mem_cons_self, rfl, row,
          closed, rfl, rfl⟩
      · cases read
    · rename_i fuel' rest' same begins
      cases same
      cases begins
      split at read
      · cases read
      · rename_i readKeys
        split at read
        · rename_i arrow
          split at read
          · cases read
          · rename_i readSubs
            split at read
            · rename_i closed
              cases read
              exact Or.inr ⟨_, _, _, _, _, _, rfl, rfl, readKeys, arrow, readSubs, closed, rfl,
                rfl⟩
            · cases read
        · cases read
    · cases read

/-- A member is read as a name, possibly with parameters behind it. -/
theorem readMember?_cases {fuel : Nat} {s left : List Char} {m : Member}
    (read : readMember? (fuel + 1) s = some (m, left)) :
    ∃ (marked : Bool) (tail name rest : List Char) (kind : BracketStyle) (keys subs : List Ty),
      (tail = s ∨ ∃ behind, s = ':' :: ':' :: behind ∧ tail = skipGap behind) ∧
      readName? tail = some (name, rest) ∧
      m = .make (String.ofList name) marked kind keys subs ∧
      (readParams? fuel (skipGap rest) = some ((kind, keys, subs), left) ∨
        left = rest ∧ keys = slots [] ∧ subs = slots []) := by
  unfold readMember? at read
  split at read
  rename_i marked tail same
  have inside : tail = s ∨ ∃ behind, s = ':' :: ':' :: behind ∧ tail = skipGap behind := by
    split at same
    · cases same
      exact Or.inr ⟨_, rfl, rfl⟩
    · cases same
      exact Or.inl rfl
  split at read
  · cases read
  · rename_i name rest named
    split at read
    · rename_i kind keys subs behind params
      cases read
      exact ⟨marked, tail, name, rest, kind, keys, subs, inside, named, rfl, Or.inl params⟩
    · cases read
      exact ⟨marked, tail, name, _, .none, _, _, inside, named, rfl, Or.inr ⟨rfl, rfl, rfl⟩⟩

namespace Member

/-- Some text is read as this member. -/
def WasRead (m : Member) : Prop :=
  ∃ fuel s left, readMember? fuel s = some (m, left)

theorem wasRead_of_mem_readMore (fuel : Nat) :
    ∀ s : List Char, ∀ m ∈ (readMore fuel s).1, m.WasRead := by
  induction fuel with
  | zero => exact fun s m member => absurd member List.not_mem_nil
  | succ fuel ih =>
    intro s
    unfold readMore
    split
    · split
      · rename_i first
        intro m member
        rcases List.mem_cons.mp member with rfl | later
        · exact ⟨_, _, _, first⟩
        · exact ih _ m later
      · exact fun m member => absurd member List.not_mem_nil
    · exact fun m member => absurd member List.not_mem_nil

theorem wasRead_of_readMembers? {fuel : Nat} {s left : List Char} {ms : List Member}
    (read : readMembers? fuel s = some (ms, left)) : ms ≠ [] ∧ ∀ m ∈ ms, m.WasRead := by
  unfold readMembers? at read
  split at read
  · cases read
  · split at read
    · cases read
    · rename_i first
      cases read
      refine ⟨List.cons_ne_nil _ _, fun m member => ?_⟩
      rcases List.mem_cons.mp member with rfl | later
      · exact ⟨_, _, _, first⟩
      · exact wasRead_of_mem_readMore _ _ m later

theorem slotsFit_make_nil (name : String) (marked : Bool) (kind : BracketStyle) :
    (make name marked kind [] []).SlotsFit := by
  simp [make, SlotsFit]

theorem slotsFit_make_row (name : String) (marked : Bool) {kind : BracketStyle}
    (unkeyed : kind ≠ .hash) (subs : List Ty) : (make name marked kind [] subs).SlotsFit := by
  cases subs <;> cases kind <;> simp_all [make, SlotsFit]

theorem slotsFit_make_hash (name : String) (marked : Bool) {keys subs : List Member}
    (nonemptyKeys : keys ≠ []) (nonemptySubs : subs ≠ []) :
    (make name marked .hash (slots keys) (slots subs)).SlotsFit := by
  simp [make, SlotsFit, slots, nonemptyKeys, nonemptySubs]

theorem wasRead_of_mem_slots {ms : List Member} (wasRead : ∀ m ∈ ms, m.WasRead) :
    ∀ u ∈ slots ms, ∃ inner : Member, u = .single inner ∧ inner.WasRead := by
  intro u param
  obtain ⟨inner, listed, rfl⟩ := List.mem_map.mp param
  exact ⟨inner, rfl, wasRead inner listed⟩

/-- The brackets of a member that was read fit what stands in them, and this was read as well. -/
theorem WasRead.params {m : Member} (wasRead : m.WasRead) :
    m.SlotsFit ∧ ∀ u ∈ m.params, ∃ inner : Member, u = .single inner ∧ inner.WasRead := by
  have nothing : ∀ m ∈ ([] : List Member), m.WasRead := by simp
  obtain ⟨fuel, s, left, read⟩ := wasRead
  cases fuel with
  | zero => cases read
  | succ fuel =>
    obtain ⟨marked, tail, name, rest, kind, keys, subs, -, -, rfl, params⟩ := readMember?_cases read
    rcases params with params | ⟨-, rfl, rfl⟩
    · cases fuel with
      | zero => cases params
      | succ fuel =>
        rcases readParams?_cases params with ⟨opening, closing, rest, ms, behind, style, -, row, -,
          rfl, rfl⟩ | ⟨rest, keyMembers, behind, arrow, subMembers, behind', rfl, -, readKeys, -,
          readSubs, -, rfl, rfl⟩
        · have unkeyed : kind ≠ .hash := by
            rintro rfl
            simp at style
          have wasRead : ∀ m ∈ ms, m.WasRead := by
            cases read : readMembers? fuel (skipGap rest) with
            | none =>
              rw [read] at row
              cases row
              exact nothing
            | some found =>
              rw [read] at row
              cases row
              exact (wasRead_of_readMembers? read).2
          exact ⟨slotsFit_make_row _ _ unkeyed _, List.forall_mem_append.mpr
            ⟨wasRead_of_mem_slots nothing, wasRead_of_mem_slots wasRead⟩⟩
        · obtain ⟨nonemptyKeys, keys⟩ := wasRead_of_readMembers? readKeys
          obtain ⟨nonemptySubs, subs⟩ := wasRead_of_readMembers? readSubs
          exact ⟨slotsFit_make_hash _ _ nonemptyKeys nonemptySubs, List.forall_mem_append.mpr
            ⟨wasRead_of_mem_slots keys, wasRead_of_mem_slots subs⟩⟩
    · exact ⟨slotsFit_make_nil _ _ kind, List.forall_mem_append.mpr
        ⟨wasRead_of_mem_slots nothing, wasRead_of_mem_slots nothing⟩⟩

theorem WasRead.name_fits {m : Member} (wasRead : m.WasRead) :
    IsTagName m.name.toList ∧ m.Fits := by
  obtain ⟨fuel, s, left, read⟩ := wasRead
  cases fuel with
  | zero => cases read
  | succ fuel =>
    obtain ⟨marked, tail, name, rest, kind, keys, subs, -, named, rfl, -⟩ := readMember?_cases read
    refine ⟨?_, fits_make _ _ _ _ _⟩
    simp only [make, String.toList_ofList]
    exact (of_readName? named).1

/-- The brackets fit the parameters, and every parameter has one member. -/
structure IsRead (m : Member) : Prop where
  fits : m.Fits
  places : ∀ u ∈ m.params, ∃ inner, u = .single inner

theorem WasRead.isRead {m : Member} (wasRead : m.WasRead) : m.IsRead :=
  ⟨wasRead.name_fits.2, fun u param => (wasRead.params.2 u param).imp fun _ inner => inner.1⟩

end Member

/-! ### What is read as a type -/

/-- The members of a type that a tag spells were read. -/
theorem wasRead_of_ofTag? {text : String} {t : Ty} (read : Ty.ofTag? text = some t) :
    ∀ m ∈ t.members, m.WasRead := by
  obtain ⟨ms, whole, rfl⟩ := Option.map_eq_some_iff.mp read
  unfold readAll? at whole
  split at whole
  · rename_i found
    split at whole
    · cases whole
      obtain ⟨nonempty, all⟩ := Member.wasRead_of_readMembers? found
      exact fun m member => all m (Ty.mem_of_mem_ofMembers nonempty member)
    · cases whole
  · cases whole

/-- The members of a type that a tag spells are written out place by place. -/
theorem isRead_of_ofTag? {text : String} {t : Ty} (read : Ty.ofTag? text = some t) :
    ∀ m ∈ t.members, m.IsRead :=
  fun m member => (wasRead_of_ofTag? read m member).isRead

theorem Ty.spellable_of_wasRead (t : Ty) : (∀ m ∈ t.members, m.WasRead) → t.Spellable := by
  induction t using Ty.induction with
  | step t ih =>
    intro wasRead
    refine .intro (fun m member => ⟨(wasRead m member).name_fits.1, (wasRead m member).params.1⟩)
      fun m member u param => ?_
    obtain ⟨inner, rfl, readInner⟩ := (wasRead m member).params.2 u param
    exact ih m member _ param (List.forall_mem_singleton.mpr readInner)

theorem Ty.normal_of_wasRead (t : Ty) : (∀ m ∈ t.members, m.WasRead) →
    ∀ m ∈ t.members, ∀ u ∈ m.params, u.Normal := by
  induction t using Ty.induction with
  | step t ih =>
    intro wasRead m member u param
    obtain ⟨inner, rfl, readInner⟩ := (wasRead m member).params.2 u param
    exact Ty.normal_single readInner.name_fits.2
      (ih m member _ param (List.forall_mem_singleton.mpr readInner) inner List.mem_cons_self)

theorem Ty.normal_spellable_of_ofTag? {text : String} {t : Ty} (read : Ty.ofTag? text = some t) :
    t.Normal ∧ t.Spellable := by
  have wasRead := wasRead_of_ofTag? read
  refine ⟨?_, t.spellable_of_wasRead wasRead⟩
  have params := t.normal_of_wasRead wasRead
  obtain ⟨ms, -, rfl⟩ := Option.map_eq_some_iff.mp read
  exact .intro (Ty.tags_ofMembers_nodup ms) (fun m member => (wasRead m member).name_fits.2) params

end DuckInfer
