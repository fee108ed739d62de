import DuckInfer.Ty.Bindings
import Mathlib.Data.List.Nodup
import Mathlib.Data.List.Perm.Basic
import Mathlib.Data.String.Basic

/-!
Bindings as maps from names to types. Main statements: what is found after an insertion, and that
sorted bindings in which the same is found are equal.
-/

namespace DuckInfer

theorem map_fst_zip_sublist {α β : Type} (xs : List α) (ys : List β) :
    ((xs.zip ys).map Prod.fst).Sublist xs := by
  induction xs generalizing ys with
  | nil => simp
  | cons x xs ih =>
    cases ys with
    | nil => simp
    | cons y ys => simpa using ih ys

namespace Bindings

/-! ### What is found -/

theorem mem_of_find? {b : Bindings} {name : String} {t : Ty} (found : b.find? name = some t) :
    (name, t) ∈ b.entries := by
  unfold find? at found
  rw [List.lookup_eq_some_iff] at found
  obtain ⟨before, after, same, -⟩ := found
  rw [same]
  exact List.mem_append_right _ List.mem_cons_self

theorem not_mem_of_contains {b : Bindings} {name : String} (free : b.contains name = false) :
    name ∉ b.entries.map Prod.fst := by
  unfold contains find? at free
  rw [Option.isSome_eq_false_iff, Option.isNone_iff_eq_none, List.lookup_eq_none_iff] at free
  intro bound
  obtain ⟨entry, member, same⟩ := List.mem_map.mp bound
  simpa [same] using free entry member

theorem isEmpty_of_contains {b : Bindings} {name : String} (bound : b.contains name = true) :
    b.isEmpty = false := by
  by_contra empty
  have none : b.entries = [] := by simpa [isEmpty] using empty
  simp [contains, find?, none] at bound

theorem lookup_entry (entries : List (String × Ty)) (name other : String) (t : Ty) :
    ((name, t) :: entries).lookup other =
      if other = name then some t else entries.lookup other := by
  by_cases same : other = name
  · simp [same]
  · simp [List.lookup_cons, same, beq_false_of_ne same]

theorem find?_insert (b : Bindings) (name other : String) (t : Ty) :
    (b.insert name t).find? other = if other = name then some t else b.find? other := by
  obtain ⟨entries⟩ := b
  show (insertSorted name t entries).lookup other = if _ then _ else entries.lookup other
  induction entries with
  | nil => exact lookup_entry [] name other t
  | cons entry entries ih =>
    obtain ⟨first, u⟩ := entry
    unfold insertSorted
    by_cases before : name < first
    · rw [if_pos before, lookup_entry]
    · by_cases equal : name = first
      · subst equal
        rw [if_neg before, if_pos rfl, lookup_entry, lookup_entry]
        by_cases same : other = name <;> simp [same]
      · rw [if_neg before, if_neg equal, lookup_entry, lookup_entry, ih]
        by_cases same : other = name
        · subst same
          simp [equal]
        · simp [same]

/-- Binds the names of several pairs, one after the other. -/
def insertAll (b : Bindings) (pairs : List (String × Ty)) : Bindings :=
  pairs.foldl (fun b (name, t) => b.insert name t) b

theorem find?_insertAll_of_fresh {pairs : List (String × Ty)} {name : String}
    (fresh : name ∉ pairs.map Prod.fst) (b : Bindings) :
    (b.insertAll pairs).find? name = b.find? name := by
  induction pairs generalizing b with
  | nil => rfl
  | cons pair pairs ih =>
    obtain ⟨different, fresh⟩ := not_or.mp (mt List.mem_cons.mpr fresh)
    refine (ih fresh (b.insert pair.1 pair.2)).trans ?_
    rw [find?_insert, if_neg different]

/-- Pairs with distinct names bind each name to its type. -/
theorem find?_insertAll {pairs : List (String × Ty)} (distinct : (pairs.map Prod.fst).Nodup)
    {name : String} {t : Ty} (listed : (name, t) ∈ pairs) (b : Bindings) :
    (b.insertAll pairs).find? name = some t := by
  induction pairs generalizing b with
  | nil => exact absurd listed List.not_mem_nil
  | cons pair pairs ih =>
    obtain ⟨fresh, distinct⟩ := List.nodup_cons.mp distinct
    rcases List.mem_cons.mp listed with rfl | listed
    · refine (find?_insertAll_of_fresh fresh (b.insert name t)).trans ?_
      rw [find?_insert, if_pos rfl]
    · exact ih distinct listed (b.insert pair.1 pair.2)

/-- Types without placeholders are complete. -/
theorem refresh_of_ground {b : Bindings} (ground : ∀ entry ∈ b.entries, entry.2.isGeneric = false) :
    b.refresh = b := by
  have same : b.entries.map (fun entry => (entry.1, Ty.substitute b entry.2)) = b.entries := by
    refine (List.map_congr_left fun entry member => ?_).trans (List.map_id _)
    simp [Ty.substitute, ground entry member]
  exact congrArg Bindings.mk same

/-! ### Order -/

/-- The names stand in order, each once. -/
def Sorted (b : Bindings) : Prop :=
  b.entries.Pairwise fun entry later => entry.1 < later.1

/-- An inserted pair stands among the entries that were there. -/
theorem mem_of_mem_insertSorted {name : String} {t : Ty} {entries : List (String × Ty)}
    {entry : String × Ty} (member : entry ∈ insertSorted name t entries) :
    entry = (name, t) ∨ entry ∈ entries := by
  induction entries with
  | nil => exact Or.inl (List.mem_singleton.mp member)
  | cons first entries ih =>
    obtain ⟨other, u⟩ := first
    unfold insertSorted at member
    by_cases before : name < other
    · rw [if_pos before] at member
      exact List.mem_cons.mp member
    · by_cases equal : name = other
      · rw [if_neg before, if_pos equal] at member
        exact (List.mem_cons.mp member).imp_right (List.mem_cons_of_mem _)
      · rw [if_neg before, if_neg equal] at member
        rcases List.mem_cons.mp member with rfl | member
        · exact Or.inr List.mem_cons_self
        · exact (ih member).imp_right (List.mem_cons_of_mem _)

theorem mem_of_mem_insertAll {b : Bindings} {pairs : List (String × Ty)} {entry : String × Ty}
    (member : entry ∈ (b.insertAll pairs).entries) : entry ∈ b.entries ∨ entry ∈ pairs := by
  induction pairs generalizing b with
  | nil => exact Or.inl member
  | cons pair pairs ih =>
    rcases ih (b := b.insert pair.1 pair.2) member with inserted | later
    · rcases mem_of_mem_insertSorted inserted with rfl | older
      · exact Or.inr List.mem_cons_self
      · exact Or.inl older
    · exact Or.inr (List.mem_cons_of_mem _ later)

theorem mem_of_mem_ofList {pairs : List (String × Ty)} {entry : String × Ty}
    (member : entry ∈ (Bindings.ofList pairs).entries) : entry ∈ pairs :=
  (mem_of_mem_insertAll (b := .empty) member).resolve_left List.not_mem_nil

theorem Sorted.insert {b : Bindings} (sorted : b.Sorted) (name : String) (t : Ty) :
    (b.insert name t).Sorted := by
  obtain ⟨entries⟩ := b
  show (insertSorted name t entries).Pairwise _
  induction entries with
  | nil => exact List.pairwise_singleton _ _
  | cons entry entries ih =>
    obtain ⟨first, u⟩ := entry
    obtain ⟨later, rest⟩ := List.pairwise_cons.mp sorted
    unfold insertSorted
    by_cases before : name < first
    · rw [if_pos before]
      refine List.pairwise_cons.mpr ⟨fun entry member => ?_, sorted⟩
      rcases List.mem_cons.mp member with rfl | member
      · exact before
      · exact before.trans (later entry member)
    · by_cases equal : name = first
      · rw [if_neg before, if_pos equal]
        exact List.pairwise_cons.mpr ⟨equal ▸ later, rest⟩
      · rw [if_neg before, if_neg equal]
        refine List.pairwise_cons.mpr ⟨fun entry member => ?_, ih rest⟩
        rcases mem_of_mem_insertSorted member with rfl | member
        · exact lt_of_le_of_ne (not_lt.mp before) (Ne.symm equal)
        · exact later entry member

theorem Sorted.insertAll {b : Bindings} (sorted : b.Sorted) (pairs : List (String × Ty)) :
    (b.insertAll pairs).Sorted := by
  induction pairs generalizing b with
  | nil => exact sorted
  | cons pair pairs ih => exact ih (sorted.insert pair.1 pair.2)

theorem Sorted.nodup {b : Bindings} (sorted : b.Sorted) : (b.entries.map Prod.fst).Nodup :=
  List.pairwise_map.mpr (sorted.imp fun before => before.ne)

theorem Sorted.find?_eq_some {b : Bindings} (sorted : b.Sorted) {name : String} {t : Ty} :
    b.find? name = some t ↔ (name, t) ∈ b.entries := by
  refine ⟨mem_of_find?, fun listed => ?_⟩
  obtain ⟨entries⟩ := b
  show entries.lookup name = some t
  induction entries with
  | nil => exact absurd listed List.not_mem_nil
  | cons entry entries ih =>
    obtain ⟨later, rest⟩ := List.pairwise_cons.mp sorted
    rw [lookup_entry]
    rcases List.mem_cons.mp listed with rfl | listed
    · rw [if_pos rfl]
    · rw [if_neg (later _ listed).ne']
      exact ih rest listed

/-- Sorted bindings in which the same is found are equal. -/
theorem Sorted.ext {b b' : Bindings} (sorted : b.Sorted) (sorted' : b'.Sorted)
    (same : ∀ name, b.find? name = b'.find? name) : b = b' := by
  have members : ∀ entry, entry ∈ b.entries ↔ entry ∈ b'.entries := by
    rintro ⟨name, t⟩
    rw [← sorted.find?_eq_some, ← sorted'.find?_eq_some, same]
  have perm : b.entries.Perm b'.entries :=
    (List.perm_ext_iff_of_nodup (List.Nodup.of_map _ sorted.nodup)
      (List.Nodup.of_map _ sorted'.nodup)).mpr members
  exact congrArg Bindings.mk
    (perm.eq_of_pairwise (fun _ _ _ _ before after => absurd after before.not_gt) sorted sorted')

/-! ### Parts and sums -/

/-- The entries of some names. -/
def restrict (b : Bindings) (names : List String) : Bindings :=
  ⟨b.entries.filter fun entry => names.contains entry.1⟩

/-- Further entries, over older ones of the same names. -/
def plus (b more : Bindings) : Bindings :=
  b.insertAll more.entries

/-- Everything that is found in `b` is found in `s`. -/
def PartOf (b s : Bindings) : Prop :=
  ∀ name t, b.find? name = some t → s.find? name = some t

theorem Sorted.restrict {b : Bindings} (sorted : b.Sorted) (names : List String) :
    (b.restrict names).Sorted :=
  sorted.sublist List.filter_sublist

theorem Sorted.find?_restrict {b : Bindings} (sorted : b.Sorted) (names : List String)
    (name : String) :
    (b.restrict names).find? name = if name ∈ names then b.find? name else none := by
  ext t
  have kept : (name, t) ∈ (b.restrict names).entries ↔ (name, t) ∈ b.entries ∧ name ∈ names := by
    simp [Bindings.restrict]
  rw [(sorted.restrict names).find?_eq_some, kept, ← sorted.find?_eq_some]
  by_cases listed : name ∈ names <;> simp [listed]

theorem Sorted.find?_plus {more : Bindings} (sorted : more.Sorted) (b : Bindings) (name : String) :
    (b.plus more).find? name = (more.find? name).or (b.find? name) := by
  cases found : more.find? name with
  | some t => exact find?_insertAll sorted.nodup (mem_of_find? found) b
  | none => exact find?_insertAll_of_fresh (not_mem_of_contains (by simp [contains, found])) b

end Bindings

end DuckInfer
