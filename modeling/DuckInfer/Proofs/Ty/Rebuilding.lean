import DuckInfer.Ty.Rebuild
import Mathlib.Data.List.Nodup

/-!
Types as trees. A type is normal if its members have different tags and every bracket style fits its
parameters, which is what the constructors make. Main statements: rebuilding keeps a normal type
whose members it keeps, and what holds of the types that `f` makes, and of their unions, holds of
what rebuilding with `f` makes.
-/

namespace DuckInfer

/-! ### Lists without repeated keys -/

theorem distinctFrom_nodup {α : Type} (key : α → String) (xs : List α) :
    ∀ seen : List String, ((distinctFrom key seen xs).map key).Nodup := by
  induction xs with
  | nil => exact fun _ => List.nodup_nil
  | cons x xs ih =>
    intro seen
    unfold distinctFrom
    split
    · exact ih seen
    · refine List.nodup_cons.mpr ⟨fun again => ?_, ih _⟩
      obtain ⟨y, member, same⟩ := List.mem_map.mp again
      exact (mem_of_mem_distinctFrom member).2 (same ▸ List.mem_cons_self)

theorem distinctFrom_sublist {α : Type} (key : α → String) (xs : List α) :
    ∀ seen : List String, (distinctFrom key seen xs).Sublist xs := by
  induction xs with
  | nil => exact fun _ => List.Sublist.slnil
  | cons x xs ih =>
    intro seen
    unfold distinctFrom
    split
    · exact (ih seen).cons x
    · exact (ih _).cons_cons x

theorem distinctFrom_eq_self {α : Type} {key : α → String} {xs : List α} :
    ∀ {seen : List String}, (xs.map key).Nodup → (∀ x ∈ xs, key x ∉ seen) →
      distinctFrom key seen xs = xs := by
  induction xs with
  | nil => exact fun _ _ => rfl
  | cons x xs ih =>
    intro seen distinct new
    obtain ⟨first, distinct⟩ := List.nodup_cons.mp distinct
    unfold distinctFrom
    rw [if_neg (by simpa using new x List.mem_cons_self)]
    refine congrArg (x :: ·) (ih distinct fun y member known => ?_)
    rcases List.mem_cons.mp known with same | known
    · exact first (same ▸ List.mem_map_of_mem member)
    · exact new y (List.mem_cons_of_mem x member) known

theorem distinctOn_eq_nil {α : Type} {key : α → String} {xs : List α}
    (none : distinctOn key xs = []) : xs = [] := by
  cases xs with
  | nil => rfl
  | cons x xs => simp [distinctOn, distinctFrom] at none

/-- An element with a key of its own is the first with its key. -/
theorem find?_of_mem_distinct {α κ : Type} [BEq κ] [LawfulBEq κ] {key : α → κ} {xs : List α} {x : α}
    (distinct : (xs.map key).Nodup) (member : x ∈ xs) :
    xs.find? (fun y => key y == key x) = some x := by
  induction xs with
  | nil => exact absurd member List.not_mem_nil
  | cons y ys ih =>
    obtain ⟨first, distinct⟩ := List.nodup_cons.mp distinct
    rcases List.mem_cons.mp member with rfl | later
    · exact List.find?_cons_of_pos (beq_self_eq_true (key x))
    · have other : key y ≠ key x := fun same => first (same ▸ List.mem_map_of_mem later)
      rw [List.find?_cons_of_neg (by simpa using other)]
      exact ih distinct later

/-! ### Trees -/

theorem Member.sizeOf_lt_of_mem_params {m : Member} {t : Ty} (param : t ∈ m.params) :
    sizeOf t < sizeOf m := by
  obtain ⟨name, marked, kind, keys, subs⟩ := m
  have below : sizeOf t < sizeOf keys ∨ sizeOf t < sizeOf subs :=
    (List.mem_append.mp param).imp List.sizeOf_lt_of_mem List.sizeOf_lt_of_mem
  simp only [Member.mk.sizeOf_spec]
  omega

theorem Ty.sizeOf_lt_of_mem_members {t : Ty} {m : Member} (member : m ∈ t.members) :
    sizeOf m < sizeOf t := by
  obtain ⟨first, rest⟩ := t
  have below : m = first ∨ sizeOf m < sizeOf rest :=
    (List.mem_cons.mp member).imp_right List.sizeOf_lt_of_mem
  simp only [Ty.mk.sizeOf_spec]
  rcases below with rfl | below <;> omega

/-- Induction on a type, through the parameters of its members. -/
theorem Ty.induction {p : Ty → Prop}
    (step : ∀ t : Ty, (∀ m ∈ t.members, ∀ u ∈ m.params, p u) → p t) (t : Ty) : p t :=
  step t fun _ member u param =>
    have := Nat.lt_trans (Member.sizeOf_lt_of_mem_params param) (Ty.sizeOf_lt_of_mem_members member)
    Ty.induction step u
termination_by sizeOf t

theorem Member.anyMemberIn_eq (p : Member → Bool) (ms : List Member) :
    Member.anyMemberIn p ms = ms.any (Member.anyMember p) := by
  induction ms with
  | nil => rfl
  | cons m ms ih => simp [Member.anyMemberIn, ih]

theorem Ty.anyMemberIn_eq (p : Member → Bool) (ts : List Ty) :
    Ty.anyMemberIn p ts = ts.any (Ty.anyMember p) := by
  induction ts with
  | nil => rfl
  | cons t ts ih => simp [Ty.anyMemberIn, ih]

theorem Ty.anyMember_eq_false {p : Member → Bool} {t : Ty} :
    t.anyMember p = false ↔
      ∀ m ∈ t.members, p m = false ∧ ∀ u ∈ m.params, u.anyMember p = false := by
  have inMember : ∀ m : Member, m.anyMember p = false ↔
      p m = false ∧ ∀ u ∈ m.params, u.anyMember p = false := by
    rintro ⟨name, marked, kind, keys, subs⟩
    simp only [Member.anyMember, Ty.anyMemberIn_eq, Bool.or_eq_false_iff, List.any_eq_false,
      Bool.not_eq_true, Member.params, List.forall_mem_append, and_assoc]
  obtain ⟨first, rest⟩ := t
  simp only [Ty.anyMember, Member.anyMemberIn_eq, Bool.or_eq_false_iff, List.any_eq_false,
    Bool.not_eq_true, Ty.members, List.forall_mem_cons, inMember]

/-- A type is ground if no member is a placeholder and all parameters are ground. -/
theorem Ty.isGeneric_eq_false {t : Ty} :
    t.isGeneric = false ↔
      ∀ m ∈ t.members, m.isPlaceholder = false ∧ ∀ u ∈ m.params, u.isGeneric = false :=
  Ty.anyMember_eq_false

theorem Member.placeholderName?_of_not_isPlaceholder {m : Member}
    (proper : m.isPlaceholder = false) : m.placeholderName? = none := by
  simp [Member.placeholderName?, proper]

/-! ### Unions -/

theorem Ty.members_ne_nil (t : Ty) : t.members ≠ [] :=
  List.cons_ne_nil _ _

theorem Ty.members_ofMembers {ms : List Member} (some : ms ≠ []) :
    (Ty.ofMembers ms).members = distinctOn Member.tag ms := by
  unfold Ty.ofMembers
  split
  · rename_i none
    exact absurd (distinctOn_eq_nil none) some
  · rename_i made
    exact made.symm

theorem Ty.mem_of_mem_ofMembers {ms : List Member} {m : Member} (some : ms ≠ [])
    (member : m ∈ (Ty.ofMembers ms).members) : m ∈ ms := by
  rw [Ty.members_ofMembers some] at member
  exact (mem_of_mem_distinctFrom member).1

theorem Ty.tags_ofMembers_nodup (ms : List Member) :
    ((Ty.ofMembers ms).members.map Member.tag).Nodup := by
  by_cases none : ms = []
  · subst none
    exact List.nodup_singleton _
  · rw [Ty.members_ofMembers none]
    exact distinctFrom_nodup Member.tag ms []

theorem Ty.ofMembers_members {t : Ty} (distinct : (t.members.map Member.tag).Nodup) :
    Ty.ofMembers t.members = t := by
  have same : distinctOn Member.tag t.members = t.members :=
    distinctFrom_eq_self distinct fun _ _ => List.not_mem_nil
  obtain ⟨first, rest⟩ := t
  unfold Ty.ofMembers
  rw [same]
  rfl

theorem Ty.unionAll_single {t : Ty} (distinct : (t.members.map Member.tag).Nodup) :
    Ty.unionAll (t.members.map Ty.single) = t := by
  have flat : ∀ ms : List Member, (ms.map Ty.single).flatMap Ty.members = ms := by
    intro ms
    induction ms with
    | nil => rfl
    | cons m ms ih => simp [Ty.single, Ty.members, List.flatMap_cons] at ih ⊢; exact ih
  unfold Ty.unionAll
  rw [flat, Ty.ofMembers_members distinct]

theorem Ty.flatMap_members_ne_nil {ts : List Ty} (some : ts ≠ []) :
    ts.flatMap Ty.members ≠ [] := by
  cases ts with
  | nil => exact absurd rfl some
  | cons t ts => simp [List.flatMap_cons, Ty.members]

theorem Ty.exists_of_mem_unionAll {ts : List Ty} {m : Member} (some : ts ≠ [])
    (member : m ∈ (Ty.unionAll ts).members) : ∃ t ∈ ts, m ∈ t.members :=
  List.mem_flatMap.mp (Ty.mem_of_mem_ofMembers (Ty.flatMap_members_ne_nil some) member)

theorem Ty.isGeneric_unionAll {ts : List Ty} (some : ts ≠ [])
    (ground : ∀ t ∈ ts, t.isGeneric = false) : (Ty.unionAll ts).isGeneric = false := by
  rw [Ty.isGeneric_eq_false]
  intro m member
  obtain ⟨t, listed, member⟩ := Ty.exists_of_mem_unionAll some member
  exact Ty.isGeneric_eq_false.mp (ground t listed) m member

/-! ### Normal types -/

/-- The bracket style fits: it is missing exactly when there are no parameters. -/
def Member.Fits (m : Member) : Prop :=
  m.kind = .none ↔ m.keys = [] ∧ m.subs = []

theorem Member.fits_make (name : String) (marked : Bool) (kind : BracketStyle)
    (keys subs : List Ty) : (Member.make name marked kind keys subs).Fits := by
  unfold Member.make Member.Fits
  cases keys <;> cases subs <;> cases kind <;> simp

theorem Member.Fits.replaceParams_eq {m : Member} (fits : m.Fits) :
    m.replaceParams m.keys m.subs = m := by
  obtain ⟨name, marked, kind, keys, subs⟩ := m
  unfold Member.Fits at fits
  unfold Member.replaceParams Member.make
  cases keys <;> cases subs <;> cases kind <;> simp_all

/-- The tags of the members differ and the bracket styles fit, also in all parameters. -/
inductive Ty.Normal : Ty → Prop where
  | intro {t : Ty} :
      (t.members.map Member.tag).Nodup → (∀ m ∈ t.members, m.Fits) →
      (∀ m ∈ t.members, ∀ u ∈ m.params, u.Normal) → t.Normal

/-- What `Ty.ofMembers` makes is normal. -/
theorem Ty.normal_ofMembers {ms : List Member} (fits : ∀ m ∈ ms, m.Fits)
    (params : ∀ m ∈ ms, ∀ u ∈ m.params, u.Normal) : (Ty.ofMembers ms).Normal := by
  by_cases none : ms = []
  · subst none
    exact .intro (List.nodup_singleton _) (by simp [Ty.ofMembers, Ty.undefined, distinctOn,
      distinctFrom, Ty.members, Ty.single, Member.named, Member.Fits]) (by simp [Ty.ofMembers,
      Ty.undefined, distinctOn, distinctFrom, Ty.members, Ty.single, Member.named, Member.params])
  · refine .intro (Ty.tags_ofMembers_nodup ms) ?_ ?_
    · exact fun m member => fits m (Ty.mem_of_mem_ofMembers none member)
    · exact fun m member => params m (Ty.mem_of_mem_ofMembers none member)

theorem Ty.normal_unionAll {ts : List Ty} (normal : ∀ t ∈ ts, t.Normal) :
    (Ty.unionAll ts).Normal := by
  refine Ty.normal_ofMembers ?_ ?_
  · intro m member
    obtain ⟨t, listed, member⟩ := List.mem_flatMap.mp member
    cases normal t listed with
    | intro _ fits _ => exact fits m member
  · intro m member
    obtain ⟨t, listed, member⟩ := List.mem_flatMap.mp member
    cases normal t listed with
    | intro _ _ params => exact params m member

theorem Ty.normal_single {m : Member} (fits : m.Fits) (params : ∀ u ∈ m.params, u.Normal) :
    (Ty.single m).Normal := by
  have only : ∀ other ∈ (Ty.single m).members, other = m := by
    simp [Ty.single, Ty.members]
  refine .intro (List.nodup_singleton _) ?_ ?_
  · exact fun other member => only other member ▸ fits
  · exact fun other member => only other member ▸ params

theorem Member.fits_named (name : String) : (Member.named name).Fits :=
  ⟨fun _ => ⟨rfl, rfl⟩, fun _ => rfl⟩

theorem Ty.normal_named (name : String) : (Ty.single (.named name)).Normal :=
  Ty.normal_single (Member.fits_named name) fun _ param => absurd param List.not_mem_nil

theorem Ty.normal_generic (name : String) : (Ty.single (.generic name)).Normal := by
  refine Ty.normal_single (Member.fits_make _ _ _ _ _) fun t param => ?_
  rw [List.mem_singleton.mp param]
  exact Ty.normal_named name

/-! ### Rebuilding -/

/-- Rebuilds a member from the bottom up. -/
def Member.rebuild (f : Member → Ty) (m : Member) : Ty :=
  Id.run (m.rebuildM fun m => pure (f m))

theorem Member.run_rebuildListM (f : Member → Ty) (ms : List Member) :
    Id.run (Member.rebuildListM (fun m => pure (f m)) ms) = ms.map (Member.rebuild f) := by
  induction ms with
  | nil => rfl
  | cons m ms ih =>
    simp only [Member.rebuildListM, Id.run_bind, Id.run_pure, ih]
    rfl

theorem Ty.run_rebuildListM (f : Member → Ty) (ts : List Ty) :
    Id.run (Ty.rebuildListM (fun m => pure (f m)) ts) = ts.map (Ty.rebuild f) := by
  induction ts with
  | nil => rfl
  | cons t ts ih =>
    simp only [Ty.rebuildListM, Id.run_bind, Id.run_pure, ih]
    rfl

theorem Member.rebuild_of_isLeaf {f : Member → Ty} {m : Member} (leaf : m.isLeaf = true) :
    m.rebuild f = f m := by
  obtain ⟨name, marked, kind, keys, subs⟩ := m
  simp only [Member.rebuild, Member.rebuildM, leaf, if_true, Id.run_pure]

theorem Member.rebuild_of_not_isLeaf {f : Member → Ty} {m : Member} (node : m.isLeaf = false) :
    m.rebuild f = f (m.replaceParams (m.keys.map (Ty.rebuild f)) (m.subs.map (Ty.rebuild f))) := by
  obtain ⟨name, marked, kind, keys, subs⟩ := m
  simp only [Member.rebuild, Member.rebuildM, node, Bool.false_eq_true, if_false, Id.run_bind,
    Id.run_pure, Ty.run_rebuildListM, Member.replaceParams]

theorem Ty.rebuild_eq (f : Member → Ty) (t : Ty) :
    t.rebuild f = Ty.unionAll (t.members.map (Member.rebuild f)) := by
  obtain ⟨first, rest⟩ := t
  simp only [Ty.rebuild, Ty.rebuildM, Id.run_bind, Id.run_pure, Member.run_rebuildListM,
    Ty.members, List.map_cons]
  rfl

/-- Changed parameters come from parameters. -/
theorem Member.exists_of_mem_params_map {m : Member} {f : Ty → Ty} {u : Ty}
    (param : u ∈ (m.replaceParams (m.keys.map f) (m.subs.map f)).params) :
    ∃ old ∈ m.params, f old = u := by
  have changed : u ∈ m.keys.map f ++ m.subs.map f := param
  rw [← List.map_append] at changed
  exact List.mem_map.mp changed

/-- What holds of the types that `f` makes, and of their unions, holds of a rebuilt type. -/
theorem Ty.rebuild_induction {p : Ty → Prop} {f : Member → Ty}
    (union : ∀ ts, ts ≠ [] → (∀ u ∈ ts, p u) → p (Ty.unionAll ts))
    (results : ∀ m : Member, m.isLeaf = true ∨ m.Fits ∧ (∀ u ∈ m.params, p u) → p (f m)) (t : Ty) :
    p (t.rebuild f) := by
  induction t using Ty.induction with
  | step t ih =>
    rw [Ty.rebuild_eq]
    refine union _ (by simp [t.members_ne_nil]) fun u made => ?_
    obtain ⟨m, member, rfl⟩ := List.mem_map.mp made
    cases leaf : m.isLeaf with
    | true =>
      rw [Member.rebuild_of_isLeaf leaf]
      exact results m (Or.inl leaf)
    | false =>
      rw [Member.rebuild_of_not_isLeaf leaf]
      refine results _ (Or.inr ⟨Member.fits_make _ _ _ _ _, fun u param => ?_⟩)
      obtain ⟨old, listed, rfl⟩ := Member.exists_of_mem_params_map param
      exact ih m member old listed

/-- A type that rebuilding with `f` keeps: it is normal and `f` keeps its members, apart from what
stands inside a leaf. -/
inductive Ty.Kept (f : Member → Ty) : Ty → Prop where
  | intro {t : Ty} :
      (t.members.map Member.tag).Nodup → (∀ m ∈ t.members, f m = Ty.single m) →
      (∀ m ∈ t.members, m.isLeaf = false → m.Fits) →
      (∀ m ∈ t.members, m.isLeaf = false → ∀ u ∈ m.params, u.Kept f) → t.Kept f

theorem Ty.Kept.rebuild_eq {f : Member → Ty} {t : Ty} (kept : t.Kept f) : t.rebuild f = t := by
  induction kept with
  | @intro t distinct same fits _ ih =>
    rw [Ty.rebuild_eq]
    have members : t.members.map (Member.rebuild f) = t.members.map Ty.single := by
      refine List.map_congr_left fun m member => ?_
      cases leaf : m.isLeaf with
      | true => rw [Member.rebuild_of_isLeaf leaf, same m member]
      | false =>
        have keys : m.keys.map (Ty.rebuild f) = m.keys :=
          (List.map_congr_left fun u key => ih m member leaf u (List.mem_append_left _ key)).trans
            (List.map_id _)
        have subs : m.subs.map (Ty.rebuild f) = m.subs :=
          (List.map_congr_left fun u sub => ih m member leaf u (List.mem_append_right _ sub)).trans
            (List.map_id _)
        rw [Member.rebuild_of_not_isLeaf leaf, keys, subs, (fits m member leaf).replaceParams_eq,
          same m member]
    rw [members, Ty.unionAll_single distinct]

theorem Ty.kept_unionAll {f : Member → Ty} {ts : List Ty} (some : ts ≠ [])
    (kept : ∀ t ∈ ts, t.Kept f) : (Ty.unionAll ts).Kept f := by
  have inPart : ∀ m ∈ (Ty.unionAll ts).members, f m = Ty.single m ∧ (m.isLeaf = false → m.Fits) ∧
      (m.isLeaf = false → ∀ u ∈ m.params, u.Kept f) := by
    intro m member
    obtain ⟨t, listed, member⟩ := Ty.exists_of_mem_unionAll some member
    cases kept t listed with
    | intro _ same fits params => exact ⟨same m member, fits m member, params m member⟩
  exact .intro (Ty.tags_ofMembers_nodup _) (fun m member => (inPart m member).1)
    (fun m member => (inPart m member).2.1) fun m member => (inPart m member).2.2

theorem Ty.kept_single {f : Member → Ty} {m : Member} (same : f m = Ty.single m)
    (inside : m.isLeaf = true ∨ m.Fits ∧ ∀ u ∈ m.params, u.Kept f) : (Ty.single m).Kept f := by
  have only : ∀ other ∈ (Ty.single m).members, other = m := by
    simp [Ty.single, Ty.members]
  refine .intro (List.nodup_singleton _) ?_ ?_ ?_
  · exact fun other member => only other member ▸ same
  · intro other member node
    rw [only other member] at node ⊢
    exact (inside.resolve_left (by simp [node])).1
  · intro other member node
    rw [only other member] at node ⊢
    exact (inside.resolve_left (by simp [node])).2

/-- A normal type is kept if `f` keeps every member. -/
theorem Ty.Normal.kept {f : Member → Ty} (same : ∀ m, f m = Ty.single m) {t : Ty}
    (normal : t.Normal) : t.Kept f := by
  induction normal with
  | intro distinct fits _ ih =>
    exact .intro distinct (fun m _ => same m) (fun m member _ => fits m member)
      fun m member _ => ih m member

/-- A normal ground type is kept if `f` keeps every member that is no placeholder. -/
theorem Ty.Normal.kept_of_ground {f : Member → Ty}
    (same : ∀ m : Member, m.isPlaceholder = false → f m = Ty.single m) {t : Ty}
    (normal : t.Normal) (ground : t.isGeneric = false) : t.Kept f := by
  induction normal with
  | intro distinct fits _ ih =>
    rw [Ty.isGeneric_eq_false] at ground
    exact .intro distinct (fun m member => same m (ground m member).1)
      (fun m member _ => fits m member)
      fun m member _ u param => ih m member u param ((ground m member).2 u param)

/-! ### Erasing placeholders -/

/-- No placeholder is left after erasing. -/
theorem Ty.isGeneric_erasePlaceholders (t : Ty) : t.erasePlaceholders.isGeneric = false := by
  unfold Ty.erasePlaceholders
  split
  · refine Ty.rebuild_induction (p := fun t => t.isGeneric = false)
      (fun _ => Ty.isGeneric_unionAll) ?_ t
    intro m inside
    cases placeholder : m.isPlaceholder with
    | true => rfl
    | false =>
      simp only [Bool.false_eq_true, if_false]
      rw [Ty.isGeneric_eq_false]
      simp only [Ty.single, Ty.members, List.mem_singleton, forall_eq, placeholder, true_and]
      rcases inside with leaf | ⟨-, ground⟩
      · simp only [Member.isLeaf, placeholder, Bool.false_or, Bool.and_eq_true,
          List.isEmpty_iff] at leaf
        simp [Member.params, leaf]
      · exact ground
  · rename_i ground
    simpa using ground

end DuckInfer
