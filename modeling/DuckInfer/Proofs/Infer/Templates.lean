import DuckInfer.Infer.Template
import DuckInfer.Proofs.Ty.Names
import Mathlib.Data.List.Infix

/-!
Templates that are filled in one argument after the other, the last one first, against the body in
which all arguments are filled in at once. Main statement: for arguments whose namespaces neither
hold a `$` nor begin with a digit, both are the same text exactly if no number in the body that
belongs to no argument begins with one that does.
-/

namespace DuckInfer

/-! ### Replacing a text -/

namespace Text

variable {pattern value : List Char}

theorem replaceFrom_skip (skip : Nat) (s : List Char) :
    replaceFrom pattern value skip s = replaceAll pattern value (s.drop skip) := by
  induction s generalizing skip with
  | nil => simp [replaceAll, replaceFrom]
  | cons c rest ih =>
    cases skip with
    | zero => rfl
    | succ skip => rw [replaceFrom, ih, List.drop_succ_cons]

theorem replaceAll_append (filled : pattern ≠ []) (s : List Char) :
    replaceAll pattern value (pattern ++ s) = value ++ replaceAll pattern value s := by
  obtain ⟨c, tail, rfl⟩ := List.exists_cons_of_ne_nil filled
  have leads : (c :: tail).isPrefixOf (c :: (tail ++ s)) = true :=
    List.isPrefixOf_iff_prefix.mpr (List.prefix_append (c :: tail) s)
  rw [List.cons_append, replaceAll, replaceFrom, if_pos leads, replaceFrom_skip]
  simp

theorem replaceAll_cons {c : Char} {s : List Char} (apart : ¬ pattern <+: c :: s) :
    replaceAll pattern value (c :: s) = c :: replaceAll pattern value s := by
  rw [replaceAll, replaceFrom, if_neg (mt List.isPrefixOf_iff_prefix.mp apart)]
  rfl

/-- A text without the first character of the pattern stays. -/
theorem replaceAll_append_of_notMem {c : Char} {front : List Char} (free : c ∉ front)
    (s : List Char) :
    replaceAll (c :: pattern) value (front ++ s) = front ++ replaceAll (c :: pattern) value s := by
  induction front with
  | nil => rfl
  | cons d front ih =>
    obtain ⟨apart, free⟩ : c ≠ d ∧ c ∉ front := by simpa using free
    rw [List.cons_append, replaceAll_cons, ih free, List.cons_append]
    exact fun leads => apart (List.cons_prefix_cons.mp leads).1

end Text

namespace Template

open Text (replaceAll replaceAll_append replaceAll_cons replaceAll_append_of_notMem)

/-! ### Marks -/

theorem mark_eq (index : Nat) : mark index = '$' :: Nat.toDigits 10 (index + 1) := by
  simp [mark]

theorem isDigit_of_mem_numeral {n : Nat} {c : Char} (listed : c ∈ Nat.toDigits 10 n) :
    c.isDigit = true :=
  Nat.isDigit_of_mem_toDigits (by decide) (by decide) listed

theorem notMem_numeral (n : Nat) : '$' ∉ Nat.toDigits 10 n :=
  fun listed => absurd (isDigit_of_mem_numeral listed) (by decide)

/-- A number that the digits of another one begin with is not greater. -/
theorem le_of_prefix_numeral {m n : Nat} (leads : Nat.toDigits 10 m <+: Nat.toDigits 10 n) :
    m ≤ n := by
  obtain ⟨more, same⟩ := leads
  have value : Nat.ofDigitChars 10 (Nat.toDigits 10 m ++ more) 0 = n := by
    rw [same, Nat.ofDigitChars_ten_toDigits]
  rw [Nat.ofDigitChars_append, Nat.ofDigitChars_ten_toDigits,
    Nat.ofDigitChars_eq_ofDigitChars_zero] at value
  have scaled : m ≤ 10 ^ more.length * m := Nat.le_mul_of_pos_left m (Nat.pow_pos (by decide))
  omega

theorem le_of_prefix_mark {i j : Nat} (leads : mark i <+: mark j) : i ≤ j := by
  rw [mark_eq, mark_eq] at leads
  exact Nat.le_of_succ_le_succ (le_of_prefix_numeral (List.cons_prefix_cons.mp leads).2)

theorem mark_injective {i j : Nat} (same : mark i = mark j) : i = j :=
  Nat.le_antisymm (le_of_prefix_mark (same ▸ List.prefix_rfl))
    (le_of_prefix_mark (same ▸ List.prefix_rfl))

/-- What a text begins with is no part of a number. -/
def Bare (s : List Char) : Prop :=
  ∀ c ∈ s.head?, c.isDigit = false

instance : (s : List Char) → Decidable (Bare s)
  | [] => isTrue (by simp [Bare])
  | c :: _ => decidable_of_iff (c.isDigit = false) (by simp [Bare])

theorem bare_dropWhile (s : List Char) : Bare (s.dropWhile Char.isDigit) := by
  intro c first
  have none := List.head?_dropWhile_not Char.isDigit s
  rw [Option.mem_def.mp first] at none
  exact none

theorem notMem_run (s : List Char) : '$' ∉ s.takeWhile Char.isDigit := by
  intro listed
  have digit := List.all_eq_true.mp List.all_takeWhile '$' listed
  exact absurd digit (by decide)

/-- A mark in front of a text lies in the digits at the beginning. -/
theorem mark_prefix_append {i : Nat} {run s : List Char} (bare : Bare s)
    (leads : mark i <+: '$' :: (run ++ s)) : mark i <+: '$' :: run := by
  rw [mark_eq, List.cons_prefix_cons] at leads ⊢
  refine ⟨rfl, ?_⟩
  rcases List.prefix_or_prefix_of_prefix leads.2 (List.prefix_append run s) with
    inside | ⟨more, same⟩
  · exact inside
  · cases more with
    | nil =>
      rw [← same, List.append_nil]
    | cons c more =>
      have digit : c.isDigit = true := isDigit_of_mem_numeral (by rw [← same]; simp)
      have behind := leads.2
      rw [← same, List.prefix_append_right_inj] at behind
      obtain ⟨rest, rfl⟩ := behind
      have other := bare c rfl
      rw [digit] at other
      cases other

theorem exists_of_prefix_mark {i : Nat} {t : List Char} (leads : mark i <+: t) :
    ∃ rest, t = '$' :: rest ∧ mark i <+: '$' :: rest.takeWhile Char.isDigit := by
  obtain ⟨more, rfl⟩ := leads
  rw [mark_eq]
  refine ⟨_, List.cons_append, ?_⟩
  rw [← mark_eq]
  apply mark_prefix_append (bare_dropWhile _)
  rw [List.takeWhile_append_dropWhile, mark_eq]
  exact List.prefix_append _ more

/-! ### All arguments at once -/

/-- The marks of arguments from a place on, with the namespaces that they stand for. -/
def entries (index : Nat) : List Ty → List (List Char × List Char)
  | [] => []
  | arg :: args => (mark index, arg.space.toList) :: entries (index + 1) args

/-- Fills in all arguments at once: a character is replaced, together with all digits behind it, if
this is a mark. -/
def atOnce (es : List (List Char × List Char)) : List Char → List Char
  | [] => []
  | c :: rest =>
    match es.lookup (c :: rest.takeWhile Char.isDigit) with
    | some value => value ++ atOnce es (rest.dropWhile Char.isDigit)
    | none => c :: atOnce es rest
termination_by s => s.length
decreasing_by
  · exact Nat.lt_succ_of_le (List.dropWhile_suffix _).length_le
  · exact Nat.lt_succ_self _

/-- What may be filled in without becoming part of a mark. -/
structure Inert (value : List Char) : Prop where
  free : '$' ∉ value
  bare : Bare value

instance (value : List Char) : Decidable (Inert value) :=
  decidable_of_iff ('$' ∉ value ∧ Bare value)
    ⟨fun ⟨free, bare⟩ => ⟨free, bare⟩, fun inert => ⟨inert.free, inert.bare⟩⟩

variable {index : Nat} {args : List Ty} {s : List Char}

theorem lookup_entries {token value : List Char}
    (found : (entries index args).lookup token = some value) :
    ∃ i, index ≤ i ∧ i < index + args.length ∧ token = mark i ∧
      ∃ arg ∈ args, value = arg.space.toList := by
  induction args generalizing index with
  | nil => cases found
  | cons arg args ih =>
    rw [entries, List.lookup_cons] at found
    split at found
    · rename_i same
      cases found
      exact ⟨index, Nat.le_refl index, by simp, beq_iff_eq.mp same, arg, List.mem_cons_self, rfl⟩
    · obtain ⟨i, from_, below, same, other, listed, rfl⟩ := ih found
      exact ⟨i, by omega, by simp only [List.length_cons]; omega, same, other,
        List.mem_cons_of_mem _ listed, rfl⟩

theorem lookup_entries_eq_none_iff {token : List Char} :
    (entries index args).lookup token = none ↔
      ∀ i, index ≤ i → i < index + args.length → mark i ≠ token := by
  induction args generalizing index with
  | nil =>
    refine iff_of_true rfl fun i from_ below => ?_
    simp only [List.length_nil] at below
    omega
  | cons arg args ih =>
    rw [entries, List.lookup_cons]
    by_cases same : token = mark index
    · refine iff_of_false (by simp [same]) fun apart => ?_
      exact apart index (Nat.le_refl index) (by simp) same.symm
    · rw [beq_false_of_ne same]
      refine ih.trans ⟨fun apart i from_ below => ?_, fun apart i from_ below => ?_⟩
      · by_cases first : i = index
        · rw [first]
          exact Ne.symm same
        · simp only [List.length_cons] at below
          exact apart i (by omega) (by omega)
      · exact apart i (by omega) (by simp only [List.length_cons]; omega)

theorem atOnce_of_some {c : Char} {rest value : List Char} {es : List (List Char × List Char)}
    (found : es.lookup (c :: rest.takeWhile Char.isDigit) = some value) :
    atOnce es (c :: rest) = value ++ atOnce es (rest.dropWhile Char.isDigit) := by
  rw [atOnce, found]

theorem atOnce_of_none {c : Char} {rest : List Char} {es : List (List Char × List Char)}
    (absent : es.lookup (c :: rest.takeWhile Char.isDigit) = none) :
    atOnce es (c :: rest) = c :: atOnce es rest := by
  rw [atOnce, absent]

theorem atOnce_append_of_notMem {front : List Char} (free : '$' ∉ front) (s : List Char) :
    atOnce (entries index args) (front ++ s) = front ++ atOnce (entries index args) s := by
  induction front with
  | nil => rfl
  | cons c front ih =>
    obtain ⟨apart, free⟩ : '$' ≠ c ∧ '$' ∉ front := by simpa using free
    rw [List.cons_append, atOnce_of_none, ih free, List.cons_append]
    refine lookup_entries_eq_none_iff.mpr fun i _ _ same => ?_
    rw [mark_eq] at same
    exact apart (List.cons.inj same).1

/-- The digits at the beginning of a text stay, and the rest is filled in. -/
theorem atOnce_run (rest : List Char) : atOnce (entries index args) rest =
    rest.takeWhile Char.isDigit ++ atOnce (entries index args) (rest.dropWhile Char.isDigit) := by
  rw [← atOnce_append_of_notMem (notMem_run rest), List.takeWhile_append_dropWhile]

theorem atOnce_nil_entries (s : List Char) : atOnce [] s = s := by
  induction s with
  | nil => rw [atOnce]
  | cons c rest ih => rw [atOnce_of_none rfl, ih]

/-- Filling in does not put a digit behind a number. -/
theorem bare_atOnce (inert : ∀ arg ∈ args, Inert arg.space.toList) (s : List Char) (bare : Bare s) :
    Bare (atOnce (entries index args) s) := by
  fun_induction atOnce (entries index args) s with
  | case1 => exact bare
  | case2 c rest value found ih =>
    obtain ⟨i, -, -, -, arg, listed, rfl⟩ := lookup_entries found
    intro d first
    cases value : arg.space.toList with
    | nil =>
      rw [value] at first
      exact ih (bare_dropWhile rest) d first
    | cons e more =>
      rw [value] at first
      exact (inert arg listed).bare d (by rw [value]; exact first)
  | case3 c rest absent ih => exact fun d first => bare d first

/-! ### One argument more -/

/-- Somewhere the digits behind a `$` are no number of an argument but begin with one. -/
def OverlongFrom (index count : Nat) (s : List Char) : Prop :=
  ∃ t, t <:+ s ∧ (∃ i, index ≤ i ∧ i < index + count ∧ mark i <+: t) ∧
    ∀ i, index ≤ i → i < index + count → mark i ≠ '$' :: t.tail.takeWhile Char.isDigit

theorem OverlongFrom.of_suffix {count : Nat} {t : List Char}
    (overlong : OverlongFrom index count t) (within : t <:+ s) : OverlongFrom index count s := by
  obtain ⟨u, suffix, found⟩ := overlong
  exact ⟨u, suffix.trans within, found⟩

theorem OverlongFrom.of_succ {count : Nat} (overlong : OverlongFrom (index + 1) count s) :
    OverlongFrom index (count + 1) s := by
  obtain ⟨t, suffix, ⟨i, from_, below, leads⟩, none⟩ := overlong
  refine ⟨t, suffix, ⟨i, by omega, by omega, leads⟩, fun j from' below' => ?_⟩
  by_cases first : j = index
  · subst first
    intro same
    obtain ⟨rest, rfl, inside⟩ := exists_of_prefix_mark leads
    rw [List.tail_cons] at same
    rw [← same] at inside
    have := le_of_prefix_mark inside
    omega
  · exact none j (by omega) (by omega)

/-- If a mark comes up that the body does not have, some number in the body begins with it. -/
theorem overlongFrom_of_mark {arg : Ty} {c : Char} {rest : List Char}
    (inert : ∀ later ∈ args, Inert later.space.toList)
    (absent : (entries index (arg :: args)).lookup (c :: rest.takeWhile Char.isDigit) = none)
    (leads : mark index <+: c :: (rest.takeWhile Char.isDigit ++
      atOnce (entries (index + 1) args) (rest.dropWhile Char.isDigit))) :
    OverlongFrom index (args.length + 1) (c :: rest) := by
  obtain rfl : c = '$' := by
    rw [mark_eq] at leads
    exact (List.cons_prefix_cons.mp leads).1.symm
  have inside := mark_prefix_append (bare_atOnce inert _ (bare_dropWhile rest)) leads
  have whole := inside.trans (List.cons_prefix_cons.mpr ⟨rfl, List.takeWhile_prefix _⟩)
  exact ⟨'$' :: rest, List.suffix_rfl, ⟨index, Nat.le_refl index, by omega, whole⟩,
    lookup_entries_eq_none_iff.mp absent⟩

/-- With the later arguments filled in at once, replacing the mark of this one fills it in too. -/
theorem replaceAll_atOnce {arg : Ty} (inert : ∀ later ∈ args, Inert later.space.toList)
    (s : List Char) (fits : ¬ OverlongFrom index (args.length + 1) s) :
    replaceAll (mark index) arg.space.toList (atOnce (entries (index + 1) args) s) =
      atOnce (entries index (arg :: args)) s := by
  fun_induction atOnce (entries (index + 1) args) s with
  | case1 =>
    rw [atOnce]
    rfl
  | case2 c rest value found ih =>
    have within : rest.dropWhile Char.isDigit <:+ c :: rest :=
      (List.dropWhile_suffix _).trans (List.suffix_cons c rest)
    have later := ih fun overlong => fits (overlong.of_suffix within)
    obtain ⟨i, from_, -, token, other, listed, rfl⟩ := lookup_entries found
    have kept : (entries index (arg :: args)).lookup (c :: rest.takeWhile Char.isDigit) =
        some other.space.toList := by
      have apart : c :: rest.takeWhile Char.isDigit ≠ mark index := by
        rw [token]
        intro same
        have := mark_injective same
        omega
      rw [entries, List.lookup_cons, beq_false_of_ne apart, found]
    have free := (inert other listed).free
    rw [atOnce_of_some kept, ← later, mark_eq, replaceAll_append_of_notMem free]
  | case3 c rest absent ih =>
    have later := ih fun overlong => fits (overlong.of_suffix (List.suffix_cons c rest))
    rw [atOnce_run rest]
    by_cases here : c :: rest.takeWhile Char.isDigit = mark index
    · have kept : (entries index (arg :: args)).lookup (c :: rest.takeWhile Char.isDigit) =
          some arg.space.toList := by
        rw [entries, here, List.lookup_cons_self]
      rw [atOnce_run rest, atOnce_run rest, mark_eq,
        replaceAll_append_of_notMem (notMem_run rest), ← mark_eq] at later
      rw [atOnce_of_some kept, ← List.cons_append, here,
        replaceAll_append (by simp [mark_eq]), List.append_cancel_left later]
    · have none : (entries index (arg :: args)).lookup (c :: rest.takeWhile Char.isDigit) =
          none := by
        rw [entries, List.lookup_cons, beq_false_of_ne here, absent]
      rw [atOnce_of_none none, ← later, atOnce_run rest, replaceAll_cons]
      exact fun leads => fits (overlongFrom_of_mark inert none leads)

/-- Filling in one argument after the other fills in all at once, if no number is too long. -/
theorem fillFrom_eq_atOnce (body : List Char) (inert : ∀ arg ∈ args.tail, Inert arg.space.toList)
    (fits : ¬ OverlongFrom index args.length body) :
    fillFrom body index args = atOnce (entries index args) body := by
  induction args generalizing index with
  | nil => exact (atOnce_nil_entries body).symm
  | cons arg args ih =>
    have later := ih (fun arg listed => inert arg (List.mem_of_mem_tail listed))
      fun overlong => fits overlong.of_succ
    rw [fillFrom, later]
    exact replaceAll_atOnce inert body fits

/-! ### Marks that are left -/

/-- Number of `$` with which no mark of the first arguments begins. -/
def loose (count : Nat) : List Char → Nat
  | [] => 0
  | c :: rest =>
    (if c = '$' ∧ ¬ ∃ i < count, mark i <+: c :: rest then 1 else 0) + loose count rest

variable {count : Nat}

theorem loose_append_of_notMem {front : List Char} (free : '$' ∉ front) (s : List Char) :
    loose count (front ++ s) = loose count s := by
  induction front with
  | nil => rfl
  | cons c front ih =>
    obtain ⟨apart, free⟩ : '$' ≠ c ∧ '$' ∉ front := by simpa using free
    rw [List.cons_append, loose, if_neg fun found => apart found.1.symm, ih free, Nat.zero_add]

theorem loose_zero (s : List Char) : loose 0 s = s.count '$' := by
  induction s with
  | nil => rfl
  | cons c rest ih =>
    rw [loose, ih, List.count_cons]
    simp [Nat.add_comm]

theorem loose_cons_of_mark {c : Char} {rest : List Char} {i : Nat} (below : i < count)
    (leads : mark i <+: c :: rest) : loose count (c :: rest) = loose count rest := by
  rw [loose, if_neg fun found => found.2 ⟨i, below, leads⟩, Nat.zero_add]

theorem loose_run (rest : List Char) :
    loose count (rest.dropWhile Char.isDigit) = loose count rest := by
  rw [← loose_append_of_notMem (notMem_run rest), List.takeWhile_append_dropWhile]

/-- A mark stays in front when another mark behind its `$` is replaced. -/
theorem mark_prefix_replaceAll {value rest : List Char} {c : Char} {i : Nat}
    (leads : mark i <+: c :: rest) : mark i <+: c :: replaceAll (mark index) value rest := by
  rw [mark_eq i, List.cons_prefix_cons] at leads ⊢
  obtain ⟨rfl, more, rfl⟩ := leads
  rw [mark_eq index, replaceAll_append_of_notMem (notMem_numeral _)]
  exact ⟨rfl, List.prefix_append _ _⟩

/-- Filling in an argument makes no `$` loose that was not. -/
theorem loose_replaceAll_le {value : List Char} (free : '$' ∉ value) (index : Nat) (s : List Char) :
    loose index (replaceAll (mark index) value s) ≤ loose (index + 1) s := by
  by_cases leads : mark index <+: s
  · obtain ⟨rest, rfl⟩ := leads
    have shorter : rest.length < (mark index ++ rest).length := by
      simp only [mark_eq, List.length_append, List.length_cons]
      omega
    have gone : loose (index + 1) (mark index ++ rest) = loose (index + 1) rest := by
      have whole : mark index <+: mark index ++ rest := List.prefix_append _ _
      rw [mark_eq, List.cons_append] at whole ⊢
      rw [loose_cons_of_mark (Nat.lt_succ_self index) (mark_eq index ▸ whole),
        loose_append_of_notMem (notMem_numeral _)]
    rw [replaceAll_append (by simp [mark_eq]), loose_append_of_notMem free, gone]
    exact loose_replaceAll_le free index rest
  · cases s with
    | nil => exact Nat.le_refl 0
    | cons c rest =>
      rw [replaceAll_cons leads, loose, loose]
      refine Nat.add_le_add ?_ (loose_replaceAll_le free index rest)
      split
      · rename_i now
        have before : ¬ ∃ i < index + 1, mark i <+: c :: rest := by
          rintro ⟨i, below, first⟩
          have other : i ≠ index := by
            rintro rfl
            exact leads first
          exact now.2 ⟨i, by omega, mark_prefix_replaceAll first⟩
        exact Nat.le_of_eq (if_pos ⟨now.1, before⟩).symm
      · exact Nat.zero_le _
termination_by s.length

theorem loose_fillFrom_le (body : List Char) (free : ∀ arg ∈ args, '$' ∉ arg.space.toList) :
    loose index (fillFrom body index args) ≤ loose (index + args.length) body := by
  induction args generalizing index with
  | nil => exact Nat.le_refl _
  | cons arg args ih =>
    calc loose index (replaceAll (mark index) arg.space.toList (fillFrom body (index + 1) args))
        ≤ loose (index + 1) (fillFrom body (index + 1) args) :=
          loose_replaceAll_le (free arg List.mem_cons_self) index _
      _ ≤ loose (index + 1 + args.length) body :=
          ih fun arg listed => free arg (List.mem_cons_of_mem _ listed)
      _ = loose (index + (args.length + 1)) body := by rw [Nat.add_assoc, Nat.add_comm 1]

/-- A suffix that begins with a `$` lies behind characters that are none. -/
theorem suffix_of_notMem {front s u : List Char} (free : '$' ∉ front)
    (within : '$' :: u <:+ front ++ s) : '$' :: u <:+ s := by
  induction front with
  | nil => exact within
  | cons c front ih =>
    obtain ⟨apart, free⟩ : '$' ≠ c ∧ '$' ∉ front := by simpa using free
    rcases List.suffix_cons_iff.mp within with whole | within
    · exact absurd (List.cons.inj whole).1 apart
    · exact ih free within

/-- An overlong number behind a mark lies behind the digits of the mark. -/
theorem OverlongFrom.dropWhile {c : Char} {rest : List Char} {i : Nat}
    (overlong : OverlongFrom index count (c :: rest)) (from_ : index ≤ i)
    (below : i < index + count) (token : c :: rest.takeWhile Char.isDigit = mark i) :
    OverlongFrom index count (rest.dropWhile Char.isDigit) := by
  obtain ⟨t, within, ⟨j, from', below', leads⟩, none⟩ := overlong
  obtain ⟨u, rfl, -⟩ := exists_of_prefix_mark leads
  refine ⟨'$' :: u, ?_, ⟨j, from', below', leads⟩, none⟩
  rcases List.suffix_cons_iff.mp within with whole | within
  · obtain ⟨rfl, rfl⟩ := List.cons.inj whole
    exact absurd token.symm (none i from_ below)
  · rw [← List.takeWhile_append_dropWhile (l := rest)] at within
    exact suffix_of_notMem (notMem_run rest) within

theorem loose_cons_le (count : Nat) (c : Char) (rest : List Char) :
    loose count (c :: rest) ≤ (if c == '$' then 1 else 0) + loose count rest := by
  rw [loose]
  refine Nat.add_le_add_right ?_ _
  split
  · rename_i found
    exact Nat.le_of_eq (if_pos (beq_iff_eq.mpr found.1)).symm
  · exact Nat.zero_le _

theorem loose_of_lookup {c : Char} {rest value : List Char}
    (found : (entries 0 args).lookup (c :: rest.takeWhile Char.isDigit) = some value) :
    loose args.length (c :: rest) = loose args.length (rest.dropWhile Char.isDigit) := by
  obtain ⟨i, -, below, token, -⟩ := lookup_entries found
  have leads : mark i <+: c :: rest := by
    rw [← token]
    exact List.cons_prefix_cons.mpr ⟨rfl, List.takeWhile_prefix _⟩
  rw [loose_cons_of_mark (by omega) leads, loose_run]

theorem loose_le_count (s : List Char) :
    loose args.length s ≤ (atOnce (entries 0 args) s).count '$' := by
  fun_induction atOnce (entries 0 args) s with
  | case1 => exact Nat.zero_le _
  | case2 c rest value found ih =>
    rw [loose_of_lookup found, List.count_append]
    exact Nat.le_trans ih (Nat.le_add_left _ _)
  | case3 c rest absent ih =>
    have here := loose_cons_le args.length c rest
    rw [List.count_cons]
    omega

/-- A `$` before an overlong number is not loose, but it stays when all is filled in at once. -/
theorem loose_lt_count (s : List Char) (overlong : OverlongFrom 0 args.length s) :
    loose args.length s < (atOnce (entries 0 args) s).count '$' := by
  fun_induction atOnce (entries 0 args) s with
  | case1 =>
    obtain ⟨t, within, ⟨i, -, -, leads⟩, -⟩ := overlong
    rw [List.suffix_nil.mp within, mark_eq] at leads
    exact absurd leads (by simp)
  | case2 c rest value found ih =>
    obtain ⟨i, from_, below, token, -⟩ := lookup_entries found
    rw [loose_of_lookup found, List.count_append]
    exact Nat.lt_of_lt_of_le (ih (overlong.dropWhile from_ below token)) (Nat.le_add_left _ _)
  | case3 c rest absent ih =>
    rw [List.count_cons]
    obtain ⟨t, within, ⟨i, from_, below, leads⟩, none⟩ := overlong
    rcases List.suffix_cons_iff.mp within with rfl | within
    · obtain ⟨u, same, -⟩ := exists_of_prefix_mark leads
      obtain ⟨rfl, rfl⟩ := List.cons.inj same
      have behind : loose args.length rest ≤ (atOnce (entries 0 args) rest).count '$' :=
        loose_le_count rest
      rw [loose_cons_of_mark (by omega) leads]
      simp only [beq_self_eq_true, if_true]
      omega
    · have later := ih ⟨t, within, ⟨i, from_, below, leads⟩, none⟩
      have here := loose_cons_le args.length c rest
      omega

/-! ### Bodies of templates -/

/-- A body with all arguments filled in at once. -/
def fillAtOnce (body : String) (args : List Ty) : String :=
  String.ofList (atOnce (entries 0 args) body.toList)

/-- Some number in a body is no argument's but begins with one that is. -/
def Overlong (body : String) (args : List Ty) : Prop :=
  OverlongFrom 0 args.length body.toList

instance (body : String) (args : List Ty) : Decidable (Overlong body args) :=
  decidable_of_iff (∃ t ∈ body.toList.tails, (∃ i < args.length, mark i <+: t) ∧
    ∀ i < args.length, mark i ≠ '$' :: t.tail.takeWhile Char.isDigit)
    (by simp [Overlong, OverlongFrom])

theorem fill_eq_fillAtOnce {body : String} (inert : ∀ arg ∈ args.tail, Inert arg.space.toList)
    (fits : ¬ Overlong body args) : fill body args = fillAtOnce body args :=
  congrArg String.ofList (fillFrom_eq_atOnce body.toList inert fits)

theorem fill_ne_fillAtOnce {body : String} (free : ∀ arg ∈ args, '$' ∉ arg.space.toList)
    (overlong : Overlong body args) : fill body args ≠ fillAtOnce body args := by
  intro same
  have texts := String.ofList_injective same
  have most : loose 0 (fillFrom body.toList 0 args) ≤ loose (0 + args.length) body.toList :=
    loose_fillFrom_le body.toList free
  have least := loose_lt_count body.toList overlong
  rw [loose_zero, texts, Nat.zero_add] at most
  omega

/-- The type that a body states is read from the body in which all arguments are filled in at once,
if no number of an argument begins a number that is none. Otherwise another text is read, unless
a `$` is filled in. -/
theorem expand_atOnce {body : String} (inert : ∀ arg ∈ args.tail, Inert arg.space.toList) :
    (¬ Overlong body args → fill body args = fillAtOnce body args ∧
      expand body args = (Doc.DocComment.ofText (fillAtOnce body args)).returnTy) ∧
    (Overlong body args → (∀ arg ∈ args, '$' ∉ arg.space.toList) →
      fill body args ≠ fillAtOnce body args) := by
  refine ⟨fun fits => ?_, fun overlong free => fill_ne_fillAtOnce free overlong⟩
  have same := fill_eq_fillAtOnce inert fits
  exact ⟨same, by rw [expand, same]⟩

section Letters

/-- Ten arguments, whose types are called by the first letters. -/
def letters : List Ty :=
  ["A", "B", "C", "D", "E", "F", "G", "H", "I", "J"].map fun name => .single (.named name)

/-- With ten arguments, `$10` is the last one and `$1` the first one. -/
theorem expand_atOnce_letters : (∀ arg ∈ letters.tail, Inert arg.space.toList) ∧
    ¬ Overlong "@return [$10, $1]" letters ∧
      expand "@return [$10, $1]" letters = (Doc.DocComment.ofText "@return [J, A]").returnTy := by
  have inert : ∀ arg ∈ letters.tail, Inert arg.space.toList := by decide +kernel
  have fits : ¬ Overlong "@return [$10, $1]" letters := by decide +kernel
  have filled : fillAtOnce "@return [$10, $1]" letters = "@return [J, A]" := by decide +kernel
  exact ⟨inert, fits, filled ▸ ((expand_atOnce inert).1 fits).2⟩

/-- With one argument, the beginning of `$10` is taken for the mark of it. -/
theorem expand_ne_atOnce :
    fillAtOnce "@return [$10]" [.single (.named "String")] = "@return [$10]" ∧
      (Doc.DocComment.ofText "@return [$10]").returnTy.isUndefined = true ∧
      (expand "@return [$10]" [.single (.named "String")]).tag = "String0" := by
  decide +kernel

end Letters

end Template

end DuckInfer
