import DuckInfer.Store.Basic
import Mathlib.Data.List.Nodup
import Mathlib.Logic.Function.Iterate

/-!
What one change does to the postings of a key. Insertion puts a posting between those that do not
come after it and the others; taking a group away filters one bucket. Both keep the buckets tidy:
each key has one bucket and no bucket is empty.
-/

namespace DuckInfer

namespace Posting

/-- The postings in front do not come after the new one, and those behind it do. -/
def Between (front : List Posting) (posting : Posting) (back : List Posting) : Prop :=
  (∀ p ∈ front, p.notAfter posting = true) ∧ ∀ p ∈ back, p.notAfter posting = false

theorem notAfter_self (posting : Posting) : posting.notAfter posting = true := by
  simp [notAfter]

theorem insertSorted_between {posting : Posting} {back : List Posting} :
    ∀ {front : List Posting}, Between front posting back →
      insertSorted posting (front ++ back) = front ++ posting :: back := by
  intro front
  induction front with
  | nil =>
    intro between
    cases back with
    | nil => rfl
    | cons p ps => simp [insertSorted, between.2 p List.mem_cons_self]
  | cons p ps ih =>
    intro between
    have first : p.notAfter posting = true := between.1 p List.mem_cons_self
    have rest : Between ps posting back :=
      ⟨fun q member => between.1 q (List.mem_cons_of_mem p member), between.2⟩
    simp only [List.cons_append, insertSorted, first, if_true, ih rest]

/-- A posting can be inserted again and again; the copies stand side by side. -/
theorem insertSorted_iterate {posting : Posting} {front back : List Posting}
    (between : Between front posting back) (n : Nat) :
    (insertSorted posting)^[n] (front ++ back) = front ++ List.replicate n posting ++ back := by
  induction n with
  | zero => simp
  | succ n ih =>
    have again : Between (front ++ List.replicate n posting) posting back := by
      refine ⟨fun p member => ?_, between.2⟩
      rcases List.mem_append.mp member with old | copy
      · exact between.1 p old
      · rw [List.eq_of_mem_replicate copy]
        exact notAfter_self posting
    rw [Function.iterate_succ_apply', ih, insertSorted_between again, List.replicate_succ']
    simp

theorem withoutGroup_append (ordinal : Nat) (front back : List Posting) :
    withoutGroup ordinal (front ++ back) =
      withoutGroup ordinal front ++ withoutGroup ordinal back :=
  List.filter_append ..

end Posting

namespace Index

/-- Each key has one bucket, and no bucket is empty. -/
structure Tidy (ix : Index) : Prop where
  keys : (ix.buckets.map Prod.fst).Nodup
  nonempty : ∀ bucket ∈ ix.buckets, bucket.2 ≠ []

theorem tidy_empty : empty.Tidy :=
  ⟨List.nodup_nil, by simp [empty]⟩

/-! ### Insertion -/

theorem lookup_insertBucket (key k : String) (posting : Posting) :
    ∀ buckets : List (String × List Posting),
      ((insertBucket key posting buckets).lookup k).getD [] =
        if k = key then Posting.insertSorted posting ((buckets.lookup key).getD [])
        else (buckets.lookup k).getD [] := by
  intro buckets
  induction buckets with
  | nil =>
    by_cases same : k = key
    · simp [insertBucket, same, Posting.insertSorted]
    · simp [insertBucket, List.lookup_cons, same, beq_eq_false_iff_ne.mpr same]
  | cons bucket rest ih =>
    obtain ⟨name, ps⟩ := bucket
    by_cases here : name = key
    · subst here
      by_cases same : k = name
      · simp [insertBucket, same]
      · simp [insertBucket, List.lookup_cons, same, beq_eq_false_iff_ne.mpr same]
    · by_cases found : k = name
      · subst found
        simp [insertBucket, here]
      · simp only [insertBucket, beq_iff_eq, here, if_false, List.lookup_cons,
          beq_eq_false_iff_ne.mpr found, beq_eq_false_iff_ne.mpr (Ne.symm here)]
        exact ih

theorem keys_insertBucket (key : String) (posting : Posting) :
    ∀ buckets : List (String × List Posting),
      (insertBucket key posting buckets).map Prod.fst =
        if key ∈ buckets.map Prod.fst then buckets.map Prod.fst
        else buckets.map Prod.fst ++ [key] := by
  intro buckets
  induction buckets with
  | nil => simp [insertBucket]
  | cons bucket rest ih =>
    obtain ⟨name, ps⟩ := bucket
    by_cases here : name = key
    · simp [insertBucket, here]
    · have other : ¬ key = name := Ne.symm here
      simp only [insertBucket, beq_iff_eq, here, if_false, List.map_cons, ih, List.mem_cons, other,
        false_or]
      split <;> rfl

theorem insertSorted_ne_nil (posting : Posting) (ps : List Posting) :
    Posting.insertSorted posting ps ≠ [] := by
  cases ps with
  | nil => simp [Posting.insertSorted]
  | cons p ps =>
    unfold Posting.insertSorted
    split <;> simp

theorem nonempty_insertBucket (key : String) (posting : Posting) :
    ∀ buckets : List (String × List Posting), (∀ bucket ∈ buckets, bucket.2 ≠ []) →
      ∀ bucket ∈ insertBucket key posting buckets, bucket.2 ≠ [] := by
  intro buckets
  induction buckets with
  | nil =>
    intro _ bucket member
    simp only [insertBucket, List.mem_singleton] at member
    simp [member]
  | cons head rest ih =>
    obtain ⟨name, ps⟩ := head
    intro full bucket member
    have tail : ∀ bucket ∈ rest, bucket.2 ≠ [] := fun b h => full b (List.mem_cons_of_mem _ h)
    unfold insertBucket at member
    split at member
    · rcases List.mem_cons.mp member with rfl | later
      · exact insertSorted_ne_nil posting ps
      · exact tail bucket later
    · rcases List.mem_cons.mp member with rfl | later
      · exact full _ List.mem_cons_self
      · exact ih tail bucket later

theorem postings_insert (ix : Index) (key k : String) (posting : Posting) :
    (ix.insert key posting).postings k =
      if k = key then Posting.insertSorted posting (ix.postings key) else ix.postings k :=
  lookup_insertBucket key k posting ix.buckets

theorem Tidy.insert {ix : Index} (tidy : ix.Tidy) (key : String) (posting : Posting) :
    (ix.insert key posting).Tidy := by
  refine ⟨?_, nonempty_insertBucket key posting ix.buckets tidy.nonempty⟩
  show ((insertBucket key posting ix.buckets).map Prod.fst).Nodup
  rw [keys_insertBucket]
  split
  · exact tidy.keys
  · rename_i fresh
    exact List.nodup_append.mpr ⟨tidy.keys, List.nodup_singleton key, by
      intro a old b new equal
      rw [List.mem_singleton.mp new] at equal
      exact fresh (equal ▸ old)⟩

/-! ### Taking a group away -/

theorem eraseBucket_sublist (key : String) (ordinal : Nat) :
    ∀ buckets : List (String × List Posting),
      ((eraseBucket key ordinal buckets).map Prod.fst).Sublist (buckets.map Prod.fst) := by
  intro buckets
  induction buckets with
  | nil => exact List.Sublist.refl _
  | cons bucket rest ih =>
    obtain ⟨name, ps⟩ := bucket
    unfold eraseBucket
    split
    · split
      · exact List.sublist_cons_self ..
      · exact List.Sublist.refl _
    · exact ih.cons_cons name

theorem nonempty_eraseBucket (key : String) (ordinal : Nat) :
    ∀ buckets : List (String × List Posting), (∀ bucket ∈ buckets, bucket.2 ≠ []) →
      ∀ bucket ∈ eraseBucket key ordinal buckets, bucket.2 ≠ [] := by
  intro buckets
  induction buckets with
  | nil => simp [eraseBucket]
  | cons head rest ih =>
    obtain ⟨name, ps⟩ := head
    intro full bucket member
    have tail : ∀ bucket ∈ rest, bucket.2 ≠ [] := fun b h => full b (List.mem_cons_of_mem _ h)
    unfold eraseBucket at member
    split at member
    · split at member
      · exact tail bucket member
      · rename_i left
        rcases List.mem_cons.mp member with rfl | later
        · exact left
        · exact tail bucket later
    · rcases List.mem_cons.mp member with rfl | later
      · exact full _ List.mem_cons_self
      · exact ih tail bucket later

theorem lookup_eq_none_of_not_mem {k : String} :
    ∀ {buckets : List (String × List Posting)}, k ∉ buckets.map Prod.fst →
      buckets.lookup k = none := by
  intro buckets absent
  rw [List.lookup_eq_none_iff]
  intro bucket member
  refine bne_iff_ne.mpr fun equal => absent ?_
  rw [equal]
  exact List.mem_map_of_mem member

theorem lookup_eraseBucket (key k : String) (ordinal : Nat) :
    ∀ buckets : List (String × List Posting), (buckets.map Prod.fst).Nodup →
      ((eraseBucket key ordinal buckets).lookup k).getD [] =
        if k = key then Posting.withoutGroup ordinal ((buckets.lookup key).getD [])
        else (buckets.lookup k).getD [] := by
  intro buckets
  induction buckets with
  | nil => intro _; by_cases same : k = key <;> simp [eraseBucket, same, Posting.withoutGroup]
  | cons bucket rest ih =>
    obtain ⟨name, ps⟩ := bucket
    intro distinct
    obtain ⟨single, distinctRest⟩ := List.nodup_cons.mp distinct
    by_cases here : name = key
    · subst here
      by_cases same : k = name
      · -- the bucket disappears with its last posting, and no second one stands behind it
        subst same
        have absent := lookup_eq_none_of_not_mem single
        cases left : Posting.withoutGroup ordinal ps with
        | nil => simp [eraseBucket, left, absent]
        | cons p ps' => simp [eraseBucket, left]
      · have apart : (k == name) = false := beq_eq_false_iff_ne.mpr same
        cases left : Posting.withoutGroup ordinal ps <;>
          simp [eraseBucket, left, List.lookup_cons, same, apart]
    · by_cases found : k = name
      · subst found
        simp [eraseBucket, here]
      · simp only [eraseBucket, beq_iff_eq, here, if_false, List.lookup_cons,
          beq_eq_false_iff_ne.mpr found, beq_eq_false_iff_ne.mpr (Ne.symm here)]
        exact ih distinctRest

theorem Tidy.postings_eraseGroup {ix : Index} (tidy : ix.Tidy) (key k : String) (ordinal : Nat) :
    (ix.eraseGroup key ordinal).postings k =
      if k = key then Posting.withoutGroup ordinal (ix.postings key) else ix.postings k :=
  lookup_eraseBucket key k ordinal ix.buckets tidy.keys

theorem Tidy.eraseGroup {ix : Index} (tidy : ix.Tidy) (key : String) (ordinal : Nat) :
    (ix.eraseGroup key ordinal).Tidy :=
  ⟨tidy.keys.sublist (eraseBucket_sublist key ordinal ix.buckets),
    nonempty_eraseBucket key ordinal ix.buckets tidy.nonempty⟩

/-- A tidy index has a bucket exactly for the keys with postings. -/
theorem Tidy.contains_eq {ix : Index} (tidy : ix.Tidy) (key : String) :
    ix.contains key = !(ix.postings key).isEmpty := by
  unfold contains postings
  cases found : ix.buckets.lookup key with
  | none => rfl
  | some ps =>
    obtain ⟨before, after, split, -⟩ := List.lookup_eq_some_iff.mp found
    have full : ps ≠ [] := tidy.nonempty (key, ps) (by rw [split]; simp)
    simp [List.isEmpty_eq_false_iff.mpr full]

end Index

end DuckInfer
