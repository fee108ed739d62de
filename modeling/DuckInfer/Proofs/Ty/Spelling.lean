import DuckInfer.Proofs.Ty.Names
import DuckInfer.Proofs.Ty.Rebuilding

/-!
Types as tags spell them. A tag does not tell everything about the type that it was written for: a
union among the parameters of a member is written like several parameters, and brackets around
nothing known are left out. The spelling may leave out the spaces behind commas and around arrows as
well. Main statements: the spelling with spaces is the written form; and a type without the
differences that a tag does not tell is written in the same way.
-/

namespace DuckInfer

open TagGrammar

/-! ### Types that tags spell -/

/-- The parameters fit the brackets: a hash has keys and values, other members have no keys. -/
def Member.SlotsFit (m : Member) : Prop :=
  if m.kind = .hash then m.keys ≠ [] ∧ m.subs ≠ [] else m.keys = []

/-- All names are names of the grammar, and all parameters fit their brackets. -/
inductive Ty.Spelled : Ty → Prop where
  | intro {t : Ty} :
      (∀ m ∈ t.members, IsName m.name.toList ∧ m.SlotsFit) →
      (∀ m ∈ t.members, ∀ u ∈ m.params, u.Spelled) → t.Spelled

/-- The same with the operators among the names. -/
inductive Ty.Spellable : Ty → Prop where
  | intro {t : Ty} :
      (∀ m ∈ t.members, IsTagName m.name.toList ∧ m.SlotsFit) →
      (∀ m ∈ t.members, ∀ u ∈ m.params, u.Spellable) → t.Spellable

theorem Ty.Spelled.spellable {t : Ty} (spelled : t.Spelled) : t.Spellable := by
  induction spelled with
  | intro fit _ ih => exact .intro (fun m member => (fit m member).imp_left .inl) ih

mutual

/-- What reading the written form of a member gives. Every member of a parameter becomes a
parameter of its own, and parameters about which nothing is known are gone. -/
def Member.readBack (marks : Bool) : Member → Member
  | ⟨name, marked, kind, keys, subs⟩ =>
    if keys.all Ty.isUndefined && subs.all Ty.isUndefined then
      ⟨name, marks && marked, .none, [], []⟩
    else
      ⟨name, marks && marked, kind, slots (Ty.readBackSlots marks keys),
        slots (Ty.readBackSlots marks subs)⟩

def Ty.readBackMembers (marks : Bool) : Ty → List Member
  | ⟨first, rest⟩ => first.readBack marks :: Member.readBackAll marks rest

def Member.readBackAll (marks : Bool) : List Member → List Member
  | [] => []
  | m :: ms => m.readBack marks :: Member.readBackAll marks ms

def Ty.readBackSlots (marks : Bool) : List Ty → List Member
  | [] => []
  | t :: ts => t.readBackMembers marks ++ Ty.readBackSlots marks ts

end

/-- What reading the written form of a type gives. -/
def Ty.readBack (marks : Bool) (t : Ty) : Ty :=
  .ofMembers (t.members.map (Member.readBack marks))

theorem Member.readBackAll_eq (marks : Bool) (ms : List Member) :
    Member.readBackAll marks ms = ms.map (Member.readBack marks) := by
  induction ms with
  | nil => rfl
  | cons m ms ih => rw [Member.readBackAll, ih, List.map_cons]

theorem Ty.readBackSlots_eq (marks : Bool) (ts : List Ty) :
    Ty.readBackSlots marks ts = (ts.flatMap Ty.members).map (Member.readBack marks) := by
  induction ts with
  | nil => rfl
  | cons t ts ih =>
    obtain ⟨first, rest⟩ := t
    rw [Ty.readBackSlots, ih, List.flatMap_cons, List.map_append, Ty.readBackMembers,
      Member.readBackAll_eq]
    rfl

/-- Nothing is known about any parameter, so no brackets are written. -/
def Member.isBare (m : Member) : Bool :=
  m.keys.all Ty.isUndefined && m.subs.all Ty.isUndefined

theorem Member.readBack_bare {m : Member} (bare : m.isBare = true) (marks : Bool) :
    m.readBack marks = ⟨m.name, marks && m.marked, .none, [], []⟩ := by
  obtain ⟨name, marked, kind, keys, subs⟩ := m
  unfold Member.isBare at bare
  rw [Member.readBack, if_pos bare]

theorem Member.readBack_params {m : Member} (known : m.isBare = false) (marks : Bool) :
    m.readBack marks =
      ⟨m.name, marks && m.marked, m.kind,
        slots ((m.keys.flatMap Ty.members).map (Member.readBack marks)),
        slots ((m.subs.flatMap Ty.members).map (Member.readBack marks))⟩ := by
  obtain ⟨name, marked, kind, keys, subs⟩ := m
  unfold Member.isBare at known
  rw [Member.readBack, if_neg (by rw [known]; exact Bool.false_ne_true), Ty.readBackSlots_eq,
    Ty.readBackSlots_eq]

@[simp]
theorem Member.name_readBack (marks : Bool) (m : Member) : (m.readBack marks).name = m.name := by
  cases bare : m.isBare with
  | true => rw [Member.readBack_bare bare]
  | false => rw [Member.readBack_params bare]

@[simp]
theorem Member.isUndefined_readBack (marks : Bool) (m : Member) :
    (m.readBack marks).isUndefined = m.isUndefined := by
  rw [Member.isUndefined, Member.name_readBack]
  rfl

/-! ### The written form of parameters -/

/-- A list of members as it is written. -/
def Member.joined (marks : Bool) (ms : List Member) : String :=
  ", ".intercalate (ms.map (Member.text marks))

/-- Written members that stand behind another one. -/
def Member.followers (marks : Bool) (ms : List Member) : List Char :=
  ms.flatMap fun m => ',' :: ' ' :: (m.text marks).toList

theorem Member.toList_joined (marks : Bool) (m : Member) (ms : List Member) :
    (Member.joined marks (m :: ms)).toList =
      (m.text marks).toList ++ Member.followers marks ms := by
  induction ms generalizing m with
  | nil => simp [Member.joined, Member.followers]
  | cons next ms ih =>
    unfold Member.joined at ih ⊢
    rw [List.map_cons, List.map_cons, String.intercalate_cons_cons, String.toList_append,
      String.toList_append, ← List.map_cons, ih next]
    simp [Member.followers]

theorem Ty.text_eq_joined (marks : Bool) (t : Ty) :
    t.text marks = Member.joined marks t.members := by
  obtain ⟨first, rest⟩ := t
  rw [Ty.text, Member.texts_eq_map, Member.joined, Ty.members, List.map_cons]

/-- Parameters are written like their members, one after the other. -/
theorem Ty.intercalate_texts (marks : Bool) (ts : List Ty) :
    ", ".intercalate (ts.map (Ty.text marks)) = Member.joined marks (ts.flatMap Ty.members) := by
  induction ts with
  | nil => rfl
  | cons t ts ih =>
    by_cases last : ts = []
    · simp [last, Ty.text_eq_joined]
    · rw [List.map_cons, String.intercalate_cons_of_ne_nil (by simpa using last), ih,
        Ty.text_eq_joined, List.flatMap_cons]
      unfold Member.joined
      rw [List.map_append, String.intercalate_append_of_ne_nil]
      · simp [Ty.members]
      · simpa using Ty.flatMap_members_ne_nil last

theorem Member.text_eq (marks : Bool) (m : Member) :
    m.text marks = (if marks && m.marked then "::" else "") ++ m.name ++
      if m.isBare then ""
      else m.kind.brackets (m.keys.map (Ty.text marks)) (m.subs.map (Ty.text marks)) := by
  obtain ⟨name, marked, kind, keys, subs⟩ := m
  rw [Member.text, Ty.texts_eq_map, Ty.texts_eq_map]
  rfl

theorem Ty.all_isUndefined_eq (ts : List Ty) :
    ts.all Ty.isUndefined = (ts.flatMap Ty.members).all Member.isUndefined := by
  rw [List.all_flatMap]
  rfl

@[simp]
theorem flatMap_members_slots (ms : List Member) : (slots ms).flatMap Ty.members = ms := by
  rw [slots, List.flatMap_map]
  simp [Ty.single, Ty.members]

theorem isBare_readBack (marks : Bool) (m : Member) : (m.readBack marks).isBare = m.isBare := by
  cases bare : m.isBare with
  | true =>
    rw [Member.readBack_bare bare]
    rfl
  | false =>
    rw [Member.readBack_params bare, ← bare]
    simp only [Member.isBare, Ty.all_isUndefined_eq, flatMap_members_slots, List.all_map,
      Function.comp_def, Member.isUndefined_readBack]

/-- Brackets depend on the written parameters only as far as they stand in a row. -/
theorem brackets_congr {kind : BracketStyle} {keys keys' subs subs' : List String}
    (same : ", ".intercalate keys = ", ".intercalate keys')
    (same' : ", ".intercalate subs = ", ".intercalate subs') :
    kind.brackets keys subs = kind.brackets keys' subs' := by
  cases kind <;> simp only [BracketStyle.brackets, same, same']

/-- Brackets are written around values at least. -/
theorem Member.SlotsFit.subs_ne_nil {m : Member} (slotsFit : m.SlotsFit)
    (known : m.isBare = false) : m.subs ≠ [] := by
  intro none
  unfold Member.SlotsFit at slotsFit
  split at slotsFit
  · exact slotsFit.2 none
  · rw [Member.isBare, slotsFit, none] at known
    exact absurd known (by decide)

/-- What is read back is written in the same way. -/
theorem Ty.text_readBack (marks shown : Bool) (t : Ty) :
    ∀ m ∈ t.members, (m.readBack marks).text shown = m.text (marks && shown) := by
  induction t using Ty.induction with
  | step t ih =>
    intro m member
    rw [Member.text_eq, Member.text_eq, isBare_readBack, Member.name_readBack]
    have joins : ∀ ts : List Ty, (∀ u ∈ ts, u ∈ m.params) →
        ", ".intercalate ((slots ((ts.flatMap Ty.members).map (Member.readBack marks))).map
          (Ty.text shown)) = ", ".intercalate (ts.map (Ty.text (marks && shown))) := by
      intro ts params
      rw [Ty.intercalate_texts, Ty.intercalate_texts, flatMap_members_slots]
      unfold Member.joined
      rw [List.map_map]
      refine congrArg (", ".intercalate) (List.map_congr_left fun inner listed => ?_)
      obtain ⟨u, param, inside⟩ := List.mem_flatMap.mp listed
      exact ih m member u (params u param) inner inside
    have marksEq : (shown && (marks && m.marked)) = ((marks && shown) && m.marked) := by
      cases shown <;> cases marks <;> rfl
    cases bare : m.isBare with
    | true => simp only [Member.readBack_bare bare, marksEq, if_true]
    | false =>
      simp only [Member.readBack_params bare, marksEq, Bool.false_eq_true, if_false]
      rw [brackets_congr (joins m.keys fun u key => List.mem_append_left _ key)
        (joins m.subs fun u sub => List.mem_append_right _ sub)]

/-! ### With and without spaces -/

namespace TagGrammar

/-- What stands behind a comma and on both sides of an arrow. -/
def gap (spaced : Bool) : List Char :=
  if spaced then [' '] else []

/-- Texts behind another one, each behind a comma. -/
def trail (spaced : Bool) (texts : List (List Char)) : List Char :=
  texts.flatMap fun text => ',' :: (gap spaced ++ text)

/-- Texts in a row, with commas between them. -/
def row (spaced : Bool) : List (List Char) → List Char
  | [] => []
  | text :: texts => text ++ trail spaced texts

theorem row_append {spaced : Bool} {texts texts' : List (List Char)} (some : texts ≠ [])
    (some' : texts' ≠ []) : row spaced (texts ++ texts') =
      row spaced texts ++ ',' :: (gap spaced ++ row spaced texts') := by
  cases texts with
  | nil => exact absurd rfl some
  | cons text texts =>
    cases texts' with
    | nil => exact absurd rfl some'
    | cons text' texts' => simp [row, trail]

theorem row_spaced (texts : List String) :
    row true (texts.map String.toList) = (", ".intercalate texts).toList := by
  induction texts with
  | nil => rfl
  | cons text texts ih =>
    by_cases last : texts = []
    · simp [last, row, trail]
    · rw [String.intercalate_cons_of_ne_nil last, List.map_cons, ← List.singleton_append,
        row_append (List.cons_ne_nil _ _) (by simpa using last), ih]
      simp [row, trail, gap]

end TagGrammar

/-- Brackets around a row of keys and a row of values. -/
def BracketStyle.around (spaced : Bool) (kind : BracketStyle) (keys subs : List Char) :
    List Char :=
  match kind with
  | .none => []
  | .list => '<' :: (subs ++ ['>'])
  | .fixed => '(' :: (subs ++ [')'])
  | .hash => '{' :: (keys ++ (gap spaced ++ '=' :: '>' :: (gap spaced ++ (subs ++ ['}']))))

mutual

/-- The characters of the written form of a member; `spaced` says whether spaces stand behind commas
and around arrows. -/
def Member.spelling (spaced marks : Bool) : Member → List Char
  | ⟨name, marked, kind, keys, subs⟩ =>
    (if marks && marked then [':', ':'] else []) ++ (name.toList ++
      if keys.all Ty.isUndefined && subs.all Ty.isUndefined then []
      else kind.around spaced (row spaced (Ty.spellings spaced marks keys))
        (row spaced (Ty.spellings spaced marks subs)))

def Ty.spelling (spaced marks : Bool) : Ty → List Char
  | ⟨first, rest⟩ => row spaced (first.spelling spaced marks :: Member.spellings spaced marks rest)

def Member.spellings (spaced marks : Bool) : List Member → List (List Char)
  | [] => []
  | m :: ms => m.spelling spaced marks :: Member.spellings spaced marks ms

def Ty.spellings (spaced marks : Bool) : List Ty → List (List Char)
  | [] => []
  | t :: ts => t.spelling spaced marks :: Ty.spellings spaced marks ts

end

/-- The written form with marks, without a space between names, commas, brackets and arrows. -/
def Ty.compactTag (t : Ty) : String :=
  .ofList (t.spelling false true)

section

variable (spaced marks : Bool)

theorem Member.spellings_eq_map (ms : List Member) :
    Member.spellings spaced marks ms = ms.map (Member.spelling spaced marks) := by
  induction ms with
  | nil => rfl
  | cons m ms ih => rw [Member.spellings, ih, List.map_cons]

/-- Members in a row. -/
def Member.row (ms : List Member) : List Char :=
  TagGrammar.row spaced (ms.map (Member.spelling spaced marks))

/-- Members behind another one. -/
def Member.trail (ms : List Member) : List Char :=
  TagGrammar.trail spaced (ms.map (Member.spelling spaced marks))

theorem Member.row_cons (m : Member) (ms : List Member) : Member.row spaced marks (m :: ms) =
    m.spelling spaced marks ++ Member.trail spaced marks ms :=
  rfl

theorem Member.trail_cons (m : Member) (ms : List Member) :
    Member.trail spaced marks (m :: ms) = ',' :: (gap spaced ++ (m.spelling spaced marks ++
      Member.trail spaced marks ms)) := by
  simp [Member.trail, TagGrammar.trail]

theorem Ty.spelling_eq (t : Ty) : t.spelling spaced marks = Member.row spaced marks t.members := by
  obtain ⟨first, rest⟩ := t
  rw [Ty.spelling, Member.spellings_eq_map, Member.row, Ty.members, List.map_cons]

/-- Parameters are spelled like their members, one after the other. -/
theorem Ty.row_spellings (ts : List Ty) :
    TagGrammar.row spaced (Ty.spellings spaced marks ts) =
      Member.row spaced marks (ts.flatMap Ty.members) := by
  induction ts with
  | nil => rfl
  | cons t ts ih =>
    by_cases last : ts = []
    · simp [last, Ty.spellings, Ty.spelling_eq, TagGrammar.row, trail]
    · have some : Ty.spellings spaced marks ts ≠ [] := by
        cases ts with
        | nil => exact absurd rfl last
        | cons u ts => exact List.cons_ne_nil _ _
      rw [Ty.spellings, ← List.singleton_append, row_append (List.cons_ne_nil _ _) some, ih,
        List.flatMap_cons, Member.row, Member.row, List.map_append,
        row_append (by simp [Ty.members]) (by simpa using Ty.flatMap_members_ne_nil last)]
      simp [TagGrammar.row, trail, Ty.spelling_eq, Member.row]

/-- What is spelled behind the name. -/
def Member.bracketSpelling (m : Member) : List Char :=
  if m.isBare then []
  else m.kind.around spaced (Member.row spaced marks (m.keys.flatMap Ty.members))
    (Member.row spaced marks (m.subs.flatMap Ty.members))

theorem Member.spelling_eq (m : Member) :
    m.spelling spaced marks = (if marks && m.marked then [':', ':'] else []) ++
      (m.name.toList ++ m.bracketSpelling spaced marks) := by
  obtain ⟨name, marked, kind, keys, subs⟩ := m
  rw [Member.spelling, Ty.row_spellings, Ty.row_spellings]
  rfl

end

theorem BracketStyle.around_spaced (kind : BracketStyle) (keys subs : List String) :
    kind.around true (", ".intercalate keys).toList (", ".intercalate subs).toList =
      (kind.brackets keys subs).toList := by
  cases kind <;> simp [around, brackets, gap]

theorem Member.row_spaced {marks : Bool} {ms : List Member}
    (same : ∀ m ∈ ms, m.spelling true marks = (m.text marks).toList) :
    Member.row true marks ms = (Member.joined marks ms).toList := by
  rw [Member.row, List.map_congr_left same, ← Function.comp_def, ← List.map_map,
    TagGrammar.row_spaced, Member.joined]

/-- The spelling with spaces is the written form. -/
theorem Member.spelling_spaced (marks : Bool) (t : Ty) :
    ∀ m ∈ t.members, m.spelling true marks = (m.text marks).toList := by
  induction t using Ty.induction with
  | step t ih =>
    intro m member
    have rows : ∀ ts : List Ty, (∀ u ∈ ts, u ∈ m.params) →
        Member.row true marks (ts.flatMap Ty.members) =
          (", ".intercalate (ts.map (Ty.text marks))).toList := by
      intro ts params
      rw [Ty.intercalate_texts]
      refine Member.row_spaced fun inner listed => ?_
      obtain ⟨u, param, inside⟩ := List.mem_flatMap.mp listed
      exact ih m member u (params u param) inner inside
    rw [Member.spelling_eq, Member.text_eq, Member.bracketSpelling,
      rows m.keys fun u key => List.mem_append_left _ key,
      rows m.subs fun u sub => List.mem_append_right _ sub, BracketStyle.around_spaced]
    cases marks && m.marked <;> cases m.isBare <;> simp

theorem Ty.spelling_spaced (marks : Bool) (t : Ty) :
    t.spelling true marks = (t.text marks).toList := by
  rw [Ty.spelling_eq, Member.row_spaced (Member.spelling_spaced marks t), Ty.text_eq_joined]

end DuckInfer
