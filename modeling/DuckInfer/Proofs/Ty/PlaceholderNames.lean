import DuckInfer.Proofs.Ty.Matching

/-!
The names that stand in placeholders, and what a replacement puts in the place of a member. Main
statements: a type without placeholders has no names in it, and a replacement by such types leaves
no placeholder of a bound name, wherever one is looked for.
-/

namespace DuckInfer

/-! ### One member -/

theorem Ty.eq_single {t : Ty} (alone : t.rest = []) : t = Ty.single t.first := by
  obtain ⟨first, rest⟩ := t
  obtain rfl : rest = [] := alone
  rfl

theorem Ty.isGeneric_single {m : Member} :
    (Ty.single m).isGeneric = false ↔
      m.isPlaceholder = false ∧ ∀ u ∈ m.params, u.isGeneric = false := by
  rw [Ty.isGeneric_eq_false]
  simp [Ty.single, Ty.members]

theorem Member.isPlaceholder_of_placeholderName? {m : Member} {name : String}
    (placeholder : m.placeholderName? = some name) : m.isPlaceholder = true := by
  by_contra proper
  rw [Member.placeholderName?_of_not_isPlaceholder (by simpa using proper)] at placeholder
  exact absurd placeholder (by simp)

/-! ### Names in placeholders -/

theorem Ty.mem_placeholderNamesIn {name : String} {ts : List Ty} :
    name ∈ Ty.placeholderNamesIn ts ↔ ∃ t ∈ ts, name ∈ t.placeholderNames := by
  induction ts with
  | nil => simp [Ty.placeholderNamesIn]
  | cons t ts ih => simp [Ty.placeholderNamesIn, ih]

theorem Member.mem_placeholderNamesIn {name : String} {ms : List Member} :
    name ∈ Member.placeholderNamesIn ms ↔ ∃ m ∈ ms, name ∈ m.placeholderNames := by
  induction ms with
  | nil => simp [Member.placeholderNamesIn]
  | cons m ms ih => simp [Member.placeholderNamesIn, ih]

theorem Member.mem_placeholderNames {name : String} {m : Member} :
    name ∈ m.placeholderNames ↔
      m.placeholderName? = some name ∨
        m.placeholderName? = none ∧ ∃ t ∈ m.params, name ∈ t.placeholderNames := by
  obtain ⟨own, marked, kind, keys, subs⟩ := m
  rw [Member.placeholderNames]
  cases placeholder : Member.placeholderName? ⟨own, marked, kind, keys, subs⟩ with
  | some other => simp [eq_comm]
  | none => simp [Member.params, Ty.mem_placeholderNamesIn, or_and_right, exists_or]

theorem Ty.mem_placeholderNames {name : String} {t : Ty} :
    name ∈ t.placeholderNames ↔ ∃ m ∈ t.members, name ∈ m.placeholderNames := by
  obtain ⟨first, rest⟩ := t
  simp [Ty.placeholderNames, Ty.members, Member.mem_placeholderNamesIn]

theorem Ty.mem_placeholderNames_single {name : String} {m : Member} :
    name ∈ (Ty.single m).placeholderNames ↔ name ∈ m.placeholderNames := by
  simp [Ty.mem_placeholderNames, Ty.single, Ty.members]

/-- Names stand in placeholders only. -/
theorem Ty.not_mem_placeholderNames_of_ground {name : String} {t : Ty}
    (ground : t.isGeneric = false) : name ∉ t.placeholderNames := by
  induction t using Ty.induction with
  | step t ih =>
    intro listed
    obtain ⟨m, member, listed⟩ := Ty.mem_placeholderNames.mp listed
    obtain ⟨proper, params⟩ := Ty.isGeneric_eq_false.mp ground m member
    rcases Member.mem_placeholderNames.mp listed with placeholder | ⟨-, t, param, listed⟩
    · simp [Member.placeholderName?_of_not_isPlaceholder proper] at placeholder
    · exact ih m member t param (params t param) listed

theorem Ty.mem_placeholderNames_node {m : Member} (proper : m.isPlaceholder = false)
    {name : String} :
    name ∈ (Ty.single m).placeholderNames ↔ name ∈ Ty.placeholderNamesIn m.params := by
  rw [Ty.mem_placeholderNames_single, Member.mem_placeholderNames,
    Member.placeholderName?_of_not_isPlaceholder proper, Ty.mem_placeholderNamesIn]
  simp

/-! ### Replacements -/

namespace Bindings

variable {b : Bindings}

theorem replacement_of_isSome {m : Member} {generic : String} {t : Ty}
    (placeholder : m.placeholderName? = some generic) (bound : b.find? generic = some t) :
    b.replacement m = t := by
  simp [replacement, placeholder, bound]

theorem replacement_of_free {m : Member} (free : m.placeholderName?.bind b.find? = none) :
    b.replacement m = .single m := by
  simp [replacement, free]

/-- A replacement puts in a bound type, or keeps the member. -/
theorem replacement_cases (b : Bindings) (m : Member) :
    (∃ generic t, m.placeholderName? = some generic ∧ b.find? generic = some t ∧
        b.replacement m = t) ∨
      m.placeholderName?.bind b.find? = none ∧ b.replacement m = .single m := by
  cases found : m.placeholderName?.bind b.find? with
  | none => exact Or.inr ⟨rfl, replacement_of_free found⟩
  | some t =>
    obtain ⟨generic, placeholder, bound⟩ := Option.bind_eq_some_iff.mp found
    exact Or.inl ⟨generic, t, placeholder, bound, replacement_of_isSome placeholder bound⟩

end Bindings

/-! ### Shown placeholders -/

/-- A placeholder of the name stands in the type, and not in the parameters of another one. -/
inductive Ty.Shows (name : String) : Ty → Prop where
  | here {t : Ty} {m : Member} : m ∈ t.members → m.placeholderName? = some name → t.Shows name
  | inside {t u : Ty} {m : Member} :
      m ∈ t.members → m.isPlaceholder = false → u ∈ m.params → u.Shows name → t.Shows name

theorem Ty.not_shows_of_ground {name : String} {t : Ty} (ground : t.isGeneric = false) :
    ¬ t.Shows name := by
  intro shown
  induction shown with
  | here member named =>
    have proper := (Ty.isGeneric_eq_false.mp ground _ member).1
    exact absurd (Member.isPlaceholder_of_placeholderName? named) (by simp [proper])
  | inside member _ param _ ih => exact ih ((Ty.isGeneric_eq_false.mp ground _ member).2 _ param)

theorem Ty.Shows.of_unionAll {name : String} {ts : List Ty} (some : ts ≠ [])
    (shown : (Ty.unionAll ts).Shows name) : ∃ t ∈ ts, t.Shows name := by
  cases shown with
  | here member named =>
    obtain ⟨t, listed, member⟩ := Ty.exists_of_mem_unionAll some member
    exact ⟨t, listed, .here member named⟩
  | inside member proper param shown =>
    obtain ⟨t, listed, member⟩ := Ty.exists_of_mem_unionAll some member
    exact ⟨t, listed, .inside member proper param shown⟩

theorem Ty.Shows.of_single {name : String} {m : Member} (shown : (Ty.single m).Shows name) :
    m.placeholderName? = some name ∨ m.isPlaceholder = false ∧ ∃ u ∈ m.params, u.Shows name := by
  cases shown with
  | here member named =>
    obtain rfl := List.mem_singleton.mp member
    exact Or.inl named
  | inside member proper param shown =>
    obtain rfl := List.mem_singleton.mp member
    exact Or.inr ⟨proper, _, param, shown⟩

/-- No placeholder of a bound name is left, if no placeholders come in. -/
theorem Ty.not_shows_rebuild {b : Bindings} {name : String} (bound : b.contains name = true)
    (ground : ∀ entry ∈ b.entries, entry.2.isGeneric = false) (t : Ty) :
    ¬ (t.rebuild b.replacement).Shows name := by
  induction t using Ty.induction with
  | step t ih =>
    intro shown
    rw [Ty.rebuild_eq] at shown
    obtain ⟨u, rebuilt, shown⟩ := shown.of_unionAll (by simp [t.members_ne_nil])
    obtain ⟨m, member, rfl⟩ := List.mem_map.mp rebuilt
    cases leaf : m.isLeaf with
    | true =>
      rw [Member.rebuild_of_isLeaf leaf] at shown
      rcases b.replacement_cases m with ⟨generic, v, -, found, replaced⟩ | ⟨free, kept⟩
      · rw [replaced] at shown
        exact Ty.not_shows_of_ground (ground _ (Bindings.mem_of_find? found)) shown
      · rw [kept] at shown
        rcases shown.of_single with named | ⟨proper, u, param, -⟩
        · rw [named, Option.bind_some] at free
          simp [Bindings.contains, free] at bound
        · simp only [Member.isLeaf, proper, Bool.false_or, Bool.and_eq_true,
            List.isEmpty_iff] at leaf
          simp [Member.params, leaf] at param
    | false =>
      have ordinary : ∀ keys subs, (m.replaceParams keys subs).isPlaceholder = false :=
        fun _ _ => (Bool.or_eq_false_iff.mp leaf).1
      rw [Member.rebuild_of_not_isLeaf leaf,
        Bindings.replacement_of_not_isPlaceholder (ordinary _ _)] at shown
      rcases shown.of_single with named | ⟨-, u, param, shown⟩
      · exact absurd (Member.isPlaceholder_of_placeholderName? named) (by simp [ordinary])
      · obtain ⟨old, original, rfl⟩ := Member.exists_of_mem_params_map param
        exact ih m member old original shown

theorem Ty.not_shows_substitute {b : Bindings} {name : String} (bound : b.contains name = true)
    (ground : ∀ entry ∈ b.entries, entry.2.isGeneric = false) (t : Ty) :
    ¬ (t.substitute b).Shows name := by
  unfold Ty.substitute
  split
  · exact Ty.not_shows_rebuild bound ground t
  · rename_i idle
    have filled := Bindings.isEmpty_of_contains bound
    exact Ty.not_shows_of_ground (by simpa [filled] using idle)

end DuckInfer
