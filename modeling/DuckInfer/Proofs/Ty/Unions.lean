import DuckInfer.Proofs.Ty.Qualifying

/-!
Unions that are made in parts. Main statements: the union of the known ones among several types can
be made of the unions of two parts, it is known as soon as one of the types is, the instance type of
a union is the union of the instance types, and a type whose names are all absolute stays as it is
when it is qualified.
-/

namespace DuckInfer

/-! ### Lists without repeated keys -/

section

variable {α : Type} {key : α → String} {xs ys : List α}

/-- Of the front of a list the same elements are kept as of the front alone. -/
theorem distinctFrom_prefix (key : α → String) (xs ys : List α) : ∀ seen : List String,
    distinctFrom key seen xs <+: distinctFrom key seen (xs ++ ys) := by
  induction xs with
  | nil => exact fun _ => List.nil_prefix
  | cons x xs ih =>
    intro seen
    rw [List.cons_append, distinctFrom, distinctFrom]
    by_cases known : seen.contains (key x) = true
    · rw [if_pos known, if_pos known]
      exact ih seen
    · rw [if_neg known, if_neg known]
      exact List.prefix_cons_inj x |>.mpr (ih _)

/-- Repeated keys may be dropped in the front of a list first. -/
theorem distinctFrom_distinctFrom_append : ∀ {seen before : List String}, before ⊆ seen →
    distinctFrom key seen (distinctFrom key before xs ++ ys) =
      distinctFrom key seen (xs ++ ys) := by
  induction xs with
  | nil => exact fun _ => rfl
  | cons x xs ih =>
    intro seen before within
    rw [distinctFrom, List.cons_append, distinctFrom]
    by_cases dropped : before.contains (key x) = true
    · have known : seen.contains (key x) = true := by
        rw [List.contains_iff_mem] at dropped ⊢
        exact within dropped
      rw [if_pos dropped, if_pos known]
      exact ih within
    · rw [if_neg dropped, List.cons_append, distinctFrom]
      by_cases known : seen.contains (key x) = true
      · rw [if_pos known, if_pos known]
        refine ih (List.cons_subset.mpr ⟨?_, within⟩)
        rwa [List.contains_iff_mem] at known
      · rw [if_neg known, if_neg known, ih (List.cons_subset_cons _ within)]

theorem distinctFrom_append_congr {zs : List α} (same : ∀ seen : List String,
    distinctFrom key seen ys = distinctFrom key seen zs) : ∀ seen : List String,
    distinctFrom key seen (xs ++ ys) = distinctFrom key seen (xs ++ zs) := by
  induction xs with
  | nil => exact same
  | cons x xs ih =>
    intro seen
    rw [List.cons_append, List.cons_append, distinctFrom, distinctFrom, ih, ih]

/-- Repeated keys may be dropped in both parts of a list first. -/
theorem distinctOn_append_distinctOn (key : α → String) (xs ys : List α) :
    distinctOn key (distinctOn key xs ++ distinctOn key ys) = distinctOn key (xs ++ ys) := by
  have back : ∀ seen : List String,
      distinctFrom key seen (distinctOn key ys) = distinctFrom key seen ys := by
    intro seen
    have whole : distinctFrom key seen (distinctOn key ys ++ []) =
        distinctFrom key seen (ys ++ []) :=
      distinctFrom_distinctFrom_append (List.nil_subset seen)
    rwa [List.append_nil, List.append_nil] at whole
  have front : distinctOn key (distinctOn key xs ++ distinctOn key ys) =
      distinctOn key (xs ++ distinctOn key ys) :=
    distinctFrom_distinctFrom_append (List.nil_subset [])
  exact front.trans (distinctFrom_append_congr back [])

/-- Each key that was not seen before is kept once. -/
theorem exists_mem_distinctFrom {x : α} (listed : x ∈ xs) : ∀ {seen : List String}, key x ∉ seen →
    ∃ y ∈ distinctFrom key seen xs, key y = key x := by
  induction xs with
  | nil => exact absurd listed List.not_mem_nil
  | cons z xs ih =>
    intro seen new
    rw [distinctFrom]
    by_cases known : seen.contains (key z) = true
    · rw [if_pos known]
      rcases List.mem_cons.mp listed with rfl | listed
      · exact absurd (List.contains_iff_mem.mp known) new
      · exact ih listed new
    · rw [if_neg known]
      by_cases same : key z = key x
      · exact ⟨z, List.mem_cons_self, same⟩
      · have listed : x ∈ xs :=
          (List.mem_cons.mp listed).resolve_left fun first => same (first ▸ rfl)
        have new' : key x ∉ key z :: seen := by simp [new, Ne.symm same]
        obtain ⟨y, kept, equal⟩ := ih listed new'
        exact ⟨y, List.mem_cons_of_mem z kept, equal⟩

/-- Elements whose keys were seen before or stand in front may be left out of the back of a list. -/
theorem distinctFrom_append_filter {keep : α → Bool} : ∀ {seen : List String},
    (∀ y ∈ ys, keep y = false → key y ∈ seen ∨ key y ∈ xs.map key) →
      distinctFrom key seen (xs ++ ys.filter keep) = distinctFrom key seen (xs ++ ys) := by
  induction xs with
  | nil =>
    simp only [List.nil_append, List.map_nil, List.not_mem_nil, or_false]
    induction ys with
    | nil => exact fun _ => rfl
    | cons y ys ih =>
      intro seen known
      have later : ∀ {more}, seen ⊆ more →
          distinctFrom key more (ys.filter keep) = distinctFrom key more ys := fun within =>
        ih fun z listed out => within (known z (List.mem_cons_of_mem y listed) out)
      cases kept : keep y with
      | true =>
        rw [List.filter_cons_of_pos kept, distinctFrom, distinctFrom,
          later (List.Subset.refl seen), later (List.subset_cons_self _ _)]
      | false =>
        have dropped : seen.contains (key y) = true :=
          List.contains_iff_mem.mpr (known y List.mem_cons_self kept)
        rw [List.filter_cons_of_neg (by simp [kept]), distinctFrom, if_pos dropped,
          later (List.Subset.refl seen)]
  | cons x xs ih =>
    intro seen known
    rw [List.cons_append, List.cons_append, distinctFrom, distinctFrom]
    by_cases dropped : seen.contains (key x) = true
    · rw [if_pos dropped, if_pos dropped]
      refine ih fun y listed out => ?_
      rcases known y listed out with seen | again
      · exact Or.inl seen
      · rcases List.mem_cons.mp again with same | later
        · rw [List.contains_iff_mem] at dropped
          exact Or.inl (same ▸ dropped)
        · exact Or.inr later
    · rw [if_neg dropped, if_neg dropped]
      refine congrArg (x :: ·) (ih fun y listed out => ?_)
      rcases known y listed out with seen | again
      · exact Or.inl (List.mem_cons_of_mem _ seen)
      · rcases List.mem_cons.mp again with same | later
        · exact Or.inl (same ▸ List.mem_cons_self)
        · exact Or.inr later

/-- A part that brings no new keys is dropped. -/
theorem distinctFrom_append_of_known {seen : List String}
    (known : ∀ y ∈ ys, key y ∈ seen ∨ key y ∈ xs.map key) :
    distinctFrom key seen (xs ++ ys) = distinctFrom key seen xs := by
  have whole : distinctFrom key seen (xs ++ ys.filter fun _ => false) =
      distinctFrom key seen (xs ++ ys) :=
    distinctFrom_append_filter fun y listed _ => known y listed
  rw [← whole, List.filter_false, List.append_nil]

/-- Of images the first one of each key is kept. -/
theorem distinctFrom_map {β : Type} (f : β → α) (zs : List β) : ∀ seen : List String,
    distinctFrom key seen (zs.map f) = (distinctFrom (key ∘ f) seen zs).map f := by
  induction zs with
  | nil => exact fun _ => rfl
  | cons z zs ih =>
    intro seen
    rw [List.map_cons, distinctFrom, distinctFrom, Function.comp_apply, ih, ih]
    split <;> rfl

end

namespace Ty

/-! ### Unions in parts -/

/-- The members have different tags. -/
def Distinct (t : Ty) : Prop :=
  (t.members.map Member.tag).Nodup

theorem distinct_unionAll (ts : List Ty) : (unionAll ts).Distinct :=
  tags_ofMembers_nodup _

theorem Normal.distinct {t : Ty} (normal : t.Normal) : t.Distinct := by
  cases normal with
  | intro distinct _ _ => exact distinct

theorem Normal.of_mem {t : Ty} (normal : t.Normal) {m : Member} (member : m ∈ t.members) :
    m.Fits ∧ ∀ u ∈ m.params, u.Normal := by
  cases normal with
  | intro _ fits params => exact ⟨fits m member, params m member⟩

theorem Normal.single {t : Ty} (normal : t.Normal) {m : Member} (member : m ∈ t.members) :
    (Ty.single m).Normal :=
  normal_single (normal.of_mem member).1 (normal.of_mem member).2

theorem ofMembers_append {xs ys : List Member} (some : xs ≠ []) (some' : ys ≠ []) :
    ofMembers (xs ++ ys) = (ofMembers xs).union (ofMembers ys) := by
  have parts : (ofMembers xs).union (ofMembers ys) =
      ofMembers (distinctOn Member.tag xs ++ distinctOn Member.tag ys) := by
    simp only [union, unionAll, List.flatMap_cons, List.flatMap_nil, List.append_nil,
      members_ofMembers some, members_ofMembers some']
  rw [parts, ofMembers, ofMembers, distinctOn_append_distinctOn]

/-- A union of several types can be made of the unions of two parts. -/
theorem unionAll_append {xs ys : List Ty} (some : xs ≠ []) (some' : ys ≠ []) :
    unionAll (xs ++ ys) = (unionAll xs).union (unionAll ys) := by
  rw [unionAll, List.flatMap_append]
  exact ofMembers_append (flatMap_members_ne_nil some) (flatMap_members_ne_nil some')

theorem unionAll_alone {t : Ty} (distinct : t.Distinct) : unionAll [t] = t := by
  simpa [unionAll] using ofMembers_members distinct

/-- A union has a member for each tag in its parts. -/
theorem exists_mem_unionAll {ts : List Ty} {t : Ty} {m : Member} (part : t ∈ ts)
    (member : m ∈ t.members) : ∃ kept ∈ (unionAll ts).members, kept.tag = m.tag := by
  have listed : m ∈ ts.flatMap members := List.mem_flatMap.mpr ⟨t, part, member⟩
  rw [unionAll, members_ofMembers (List.ne_nil_of_mem listed)]
  exact exists_mem_distinctFrom listed List.not_mem_nil

theorem mem_of_mem_union {a b : Ty} {m : Member} (member : m ∈ (a.union b).members) :
    m ∈ a.members ∨ m ∈ b.members := by
  obtain ⟨t, listed, member⟩ := exists_of_mem_unionAll (List.cons_ne_nil _ _) member
  rcases List.mem_pair.mp listed with same | same
  · exact Or.inl (same ▸ member)
  · exact Or.inr (same ▸ member)

theorem normal_union {a b : Ty} (normal : a.Normal) (normal' : b.Normal) : (a.union b).Normal :=
  normal_unionAll (List.forall_mem_cons.mpr ⟨normal, List.forall_mem_singleton.mpr normal'⟩)

/-- A union has the members of the first type and those of the second with other tags. -/
theorem members_union_eq {a b : Ty} (distinct : a.Distinct) (distinct' : b.Distinct) :
    (a.union b).members =
      a.members ++ b.members.filter fun y => !(a.members.map Member.tag).contains y.tag := by
  have nodup : ((a.members ++ b.members.filter fun y =>
      !(a.members.map Member.tag).contains y.tag).map Member.tag).Nodup := by
    rw [List.map_append]
    refine List.Nodup.append distinct (distinct'.sublist (List.filter_sublist.map _))
      fun tag front back => ?_
    obtain ⟨y, kept, rfl⟩ := List.mem_map.mp back
    have new := (List.mem_filter.mp kept).2
    rw [List.contains_iff_mem.mpr front] at new
    exact absurd new (by simp)
  have whole : a.union b = ofMembers (a.members ++ b.members) := by
    simp only [union, unionAll, List.flatMap_cons, List.flatMap_nil, List.append_nil]
  rw [whole, members_ofMembers (by simp [members_ne_nil]), distinctOn,
    ← distinctFrom_append_filter fun y _ dropped =>
      Or.inr (List.contains_iff_mem.mp ((Bool.not_eq_false' ..).mp dropped))]
  exact distinctFrom_eq_self nodup fun _ _ => List.not_mem_nil

/-- Types without a common tag are united by putting the members one after the other. -/
theorem members_union {a b : Ty} (distinct : a.Distinct) (distinct' : b.Distinct)
    (disjoint : ∀ x ∈ a.members, ∀ y ∈ b.members, x.tag ≠ y.tag) :
    (a.union b).members = a.members ++ b.members := by
  rw [members_union_eq distinct distinct', List.filter_eq_self.mpr]
  intro y member
  rw [Bool.not_eq_true', ← Bool.not_eq_true, List.contains_iff_mem]
  intro again
  obtain ⟨x, member', same⟩ := List.mem_map.mp again
  exact disjoint x member' y member same

theorem isUndefined_eq_false {t : Ty} :
    t.isUndefined = false ↔ ∃ m ∈ t.members, m.isUndefined = false := by
  simp [isUndefined, List.all_eq_false]

/-- A union begins with its first part. -/
theorem members_prefix_unionAll {t : Ty} (distinct : t.Distinct) (ts : List Ty) :
    t.members <+: (unionAll (t :: ts)).members := by
  have kept := distinctFrom_prefix Member.tag t.members (ts.flatMap members) []
  rw [distinctFrom_eq_self distinct fun _ _ => List.not_mem_nil] at kept
  rwa [unionAll, List.flatMap_cons, members_ofMembers (by simp [members_ne_nil])]

/-- A union is known if its first part is. -/
theorem isUndefined_unionAll_cons {t : Ty} {ts : List Ty} (distinct : t.Distinct)
    (known : t.isUndefined = false) : (unionAll (t :: ts)).isUndefined = false := by
  obtain ⟨m, member, known⟩ := isUndefined_eq_false.mp known
  exact isUndefined_eq_false.mpr ⟨m, (members_prefix_unionAll distinct ts).subset member, known⟩

/-! ### Unions of known types -/

/-- The union of the types about which something is known. -/
def knownUnion (ts : List Ty) : Ty :=
  unionAll (ts.filter (!·.isUndefined))

theorem distinct_knownUnion (ts : List Ty) : (knownUnion ts).Distinct :=
  distinct_unionAll _

theorem knownUnion_cons_of_unknown {t : Ty} (unknown : t.isUndefined = true) (ts : List Ty) :
    knownUnion (t :: ts) = knownUnion ts := by
  rw [knownUnion, List.filter_cons_of_neg (by simp [unknown])]
  rfl

theorem knownUnion_concat_of_unknown {t : Ty} (unknown : t.isUndefined = true) (ts : List Ty) :
    knownUnion (ts ++ [t]) = knownUnion ts := by
  rw [knownUnion, List.filter_append, List.filter_cons_of_neg (by simp [unknown]), List.filter_nil,
    List.append_nil]
  rfl

theorem knownUnion_of_known {t : Ty} (distinct : t.Distinct) (known : t.isUndefined = false) :
    knownUnion [t] = t := by
  rw [knownUnion, List.filter_cons_of_pos (by simp [known]), List.filter_nil,
    unionAll_alone distinct]

theorem knownUnion_cons_of_known {t : Ty} (known : t.isUndefined = false) (ts : List Ty) :
    knownUnion (t :: ts) = unionAll (t :: ts.filter (!·.isUndefined)) := by
  rw [knownUnion, List.filter_cons_of_pos (by simp [known])]

/-- Further types leave a known type as it is if they add no members of other tags. -/
theorem knownUnion_cons_eq_iff {t : Ty} (distinct : t.Distinct) (known : t.isUndefined = false)
    (ts : List Ty) :
    knownUnion (t :: ts) = t ↔ ∀ u ∈ ts, u.isUndefined = false →
      ∀ m ∈ u.members, m.tag ∈ t.members.map Member.tag := by
  rw [knownUnion_cons_of_known known]
  constructor
  · intro same u listed defined m member
    have part : u ∈ t :: ts.filter (!·.isUndefined) :=
      List.mem_cons_of_mem t (List.mem_filter.mpr ⟨listed, by simp [defined]⟩)
    obtain ⟨kept, inside, tag⟩ := exists_mem_unionAll part member
    rw [same] at inside
    exact tag ▸ List.mem_map_of_mem inside
  · intro covered
    have once : distinctOn Member.tag
        (t.members ++ (ts.filter (!·.isUndefined)).flatMap members) =
          distinctOn Member.tag t.members := by
      refine distinctFrom_append_of_known fun m member => Or.inr ?_
      obtain ⟨u, part, member⟩ := List.mem_flatMap.mp member
      obtain ⟨listed, defined⟩ := List.mem_filter.mp part
      exact covered u listed (by simpa using defined) m member
    rw [unionAll, List.flatMap_cons, ofMembers, once]
    exact ofMembers_members distinct

theorem knownUnion_pair {a b : Ty} (known : a.isUndefined = false)
    (known' : b.isUndefined = false) : knownUnion [a, b] = a.union b := by
  rw [knownUnion, List.filter_cons_of_pos (by simp [known]),
    List.filter_cons_of_pos (by simp [known'])]
  rfl

/-- Nothing is known about the union exactly if nothing is known about any of the types. -/
theorem isUndefined_knownUnion {ts : List Ty} (distinct : ∀ t ∈ ts, t.Distinct) :
    (knownUnion ts).isUndefined = true ↔ ∀ t ∈ ts, t.isUndefined = true := by
  constructor
  · intro unknown
    by_contra some
    have nonempty : ts.filter (!·.isUndefined) ≠ [] := by
      intro none
      apply some
      simpa [List.filter_eq_nil_iff] using none
    obtain ⟨t, rest, kept⟩ := List.exists_cons_of_ne_nil nonempty
    have first : t ∈ ts.filter (!·.isUndefined) := kept ▸ List.mem_cons_self
    obtain ⟨listed, known⟩ := List.mem_filter.mp first
    have defined : (knownUnion ts).isUndefined = false := by
      rw [knownUnion, kept]
      exact isUndefined_unionAll_cons (distinct t listed) (by simpa using known)
    exact absurd (unknown.symm.trans defined) (by simp)
  · intro none
    have nothing : ts.filter (!·.isUndefined) = [] := by
      simpa [List.filter_eq_nil_iff] using none
    rw [knownUnion, nothing]
    rfl

theorem knownUnion_of_unknown {ts : List Ty} (unknown : ∀ t ∈ ts, t.isUndefined = true) :
    knownUnion ts = undefined := by
  have nothing : ts.filter (!·.isUndefined) = [] := by
    simpa [List.filter_eq_nil_iff] using unknown
  rw [knownUnion, nothing]
  rfl

theorem knownUnion_knownUnion {ts : List Ty} (distinct : ∀ t ∈ ts, t.Distinct) :
    knownUnion [knownUnion ts] = knownUnion ts := by
  cases unknown : (knownUnion ts).isUndefined with
  | true =>
    rw [knownUnion_cons_of_unknown unknown,
      knownUnion_of_unknown ((isUndefined_knownUnion distinct).mp unknown)]
    rfl
  | false => exact knownUnion_of_known (distinct_knownUnion ts) unknown

/-- The union of the known ones among several types, made of the unions of two parts. -/
theorem knownUnion_append {xs ys : List Ty} (distinct : ∀ t ∈ xs, t.Distinct)
    (distinct' : ∀ t ∈ ys, t.Distinct) :
    knownUnion (xs ++ ys) = knownUnion [knownUnion xs, knownUnion ys] := by
  have split : (xs ++ ys).filter (!·.isUndefined) =
      xs.filter (!·.isUndefined) ++ ys.filter (!·.isUndefined) := List.filter_append ..
  have nothing : ∀ {ts : List Ty}, (∀ t ∈ ts, t.Distinct) → (knownUnion ts).isUndefined = true →
      ts.filter (!·.isUndefined) = [] := by
    intro ts distinct unknown
    simpa [List.filter_eq_nil_iff] using (isUndefined_knownUnion distinct).mp unknown
  cases unknown : (knownUnion xs).isUndefined with
  | true =>
    rw [knownUnion_cons_of_unknown unknown, knownUnion_knownUnion distinct', knownUnion, split,
      nothing distinct unknown, List.nil_append]
    rfl
  | false =>
    cases unknown' : (knownUnion ys).isUndefined with
    | true =>
      have alone : knownUnion [knownUnion xs, knownUnion ys] = knownUnion [knownUnion xs] :=
        knownUnion_concat_of_unknown unknown' [knownUnion xs]
      rw [alone, knownUnion_knownUnion distinct, knownUnion, split, nothing distinct' unknown',
        List.append_nil]
      rfl
    | false =>
      have some : ∀ {ts : List Ty}, (knownUnion ts).isUndefined = false →
          ts.filter (!·.isUndefined) ≠ [] := by
        intro ts known none
        rw [knownUnion, none] at known
        exact absurd known (by decide)
      rw [knownUnion_pair unknown unknown', knownUnion, split,
        unionAll_append (some unknown) (some unknown')]
      rfl

/-- A type that is listed several times counts once. -/
theorem knownUnion_of_repeated {t : Ty} {tys : List Ty} (distinct : t.Distinct) (some : tys ≠ [])
    (same : ∀ v ∈ tys, v = t) : knownUnion tys = knownUnion [t] := by
  obtain ⟨first, rest, rfl⟩ := List.exists_cons_of_ne_nil some
  obtain rfl := same first List.mem_cons_self
  cases unknown : first.isUndefined with
  | true =>
    rw [knownUnion_of_unknown fun v listed => same v listed ▸ unknown,
      knownUnion_of_unknown fun v listed => List.mem_singleton.mp listed ▸ unknown]
  | false =>
    rw [knownUnion_of_known distinct unknown]
    refine (knownUnion_cons_eq_iff distinct unknown rest).mpr fun v listed _ m member => ?_
    obtain rfl := same v (List.mem_cons_of_mem _ listed)
    exact List.mem_map_of_mem member

theorem knownUnion_self {t : Ty} (distinct : t.Distinct) : knownUnion [t, t] = knownUnion [t] :=
  knownUnion_of_repeated distinct (List.cons_ne_nil _ _) fun _ listed => by simpa using listed

theorem isUndefined_union_of_unknown {a b : Ty} (unknown : a.isUndefined = true)
    (unknown' : b.isUndefined = true) : (a.union b).isUndefined = true := by
  refine List.all_eq_true.mpr fun m member => ?_
  rcases mem_of_mem_union member with member | member
  · exact List.all_eq_true.mp unknown m member
  · exact List.all_eq_true.mp unknown' m member

/-- A union of two types, if both are known or neither is, may be made of what is known of each. -/
theorem knownUnion_union {a b : Ty} (distinct : a.Distinct) (distinct' : b.Distinct)
    (alike : a.isUndefined = b.isUndefined) :
    knownUnion [a.union b] = knownUnion [knownUnion [a], knownUnion [b]] := by
  cases unknown : a.isUndefined with
  | true =>
    have unknown' : b.isUndefined = true := alike.symm.trans unknown
    rw [knownUnion_cons_of_unknown unknown, knownUnion_cons_of_unknown unknown',
      knownUnion_cons_of_unknown (isUndefined_union_of_unknown unknown unknown')]
    rfl
  | false =>
    have known' : b.isUndefined = false := alike.symm.trans unknown
    rw [knownUnion_of_known distinct unknown, knownUnion_of_known distinct' known',
      knownUnion_pair unknown known']
    exact knownUnion_of_known (distinct_unionAll _) (isUndefined_unionAll_cons distinct unknown)

/-! ### Instances of classes -/

theorem instanceMembers_ne_nil (m : Member) : instanceMembers m ≠ [] := by
  unfold instanceMembers
  split
  · split
    · exact List.cons_ne_nil _ _
    · exact members_ne_nil _
  · exact List.cons_ne_nil _ _

theorem flatMap_instanceMembers_ne_nil (t : Ty) : t.members.flatMap instanceMembers ≠ [] := by
  intro none
  rw [List.flatMap_eq_nil_iff] at none
  exact instanceMembers_ne_nil t.first (none t.first List.mem_cons_self)

/-- The instance type of a union of types without a common tag. -/
theorem instanceTy_union {a b : Ty} (distinct : a.Distinct) (distinct' : b.Distinct)
    (disjoint : ∀ x ∈ a.members, ∀ y ∈ b.members, x.tag ≠ y.tag) :
    (a.union b).instanceTy = a.instanceTy.union b.instanceTy := by
  rw [instanceTy, members_union distinct distinct' disjoint, List.flatMap_append]
  exact ofMembers_append (flatMap_instanceMembers_ne_nil a) (flatMap_instanceMembers_ne_nil b)

/-- A member of an instance type is a member of the type, or of a parameter of one of them. -/
theorem mem_members_instanceTy {t : Ty} {m : Member} (member : m ∈ t.instanceTy.members) :
    m ∈ t.members ∨ ∃ old ∈ t.members, ∃ u ∈ old.params, m ∈ u.members := by
  obtain ⟨old, listed, member⟩ := List.mem_flatMap.mp
    (mem_of_mem_ofMembers (flatMap_instanceMembers_ne_nil t) member)
  unfold instanceMembers at member
  split at member
  · split at member
    · obtain rfl := List.mem_singleton.mp member
      exact Or.inl listed
    · rename_i sub subs shape
      have param : sub ∈ old.params := List.mem_append_right _ (by simp [shape])
      exact Or.inr ⟨old, listed, sub, param, member⟩
  · obtain rfl := List.mem_singleton.mp member
    exact Or.inl listed

theorem normal_instanceTy {t : Ty} (normal : t.Normal) : t.instanceTy.Normal := by
  have made : ∀ m ∈ t.instanceTy.members, m.Fits ∧ ∀ v ∈ m.params, v.Normal := by
    intro m member
    rcases mem_members_instanceTy member with member | ⟨old, listed, u, param, member⟩
    · exact normal.of_mem member
    · exact ((normal.of_mem listed).2 u param).of_mem member
  exact .intro (tags_ofMembers_nodup _) (fun m member => (made m member).1)
    fun m member => (made m member).2

theorem normal_toClassLevel {t : Ty} (normal : t.Normal) : t.toClassLevel.Normal := by
  refine normal_ofMembers (fun m member => ?_) fun m member u param => ?_
  · obtain ⟨old, -, rfl⟩ := List.mem_map.mp member
    exact Member.fits_make _ _ _ _ _
  · obtain ⟨old, listed, rfl⟩ := List.mem_map.mp member
    exact List.mem_singleton.mp param ▸ normal.single listed

end Ty

/-! ### Absolute types -/

theorem Member.allAbsolute_eq (ms : List Member) :
    Member.allAbsolute ms = ms.all Member.isAbsolute := by
  induction ms with
  | nil => rfl
  | cons m ms ih => simp [Member.allAbsolute, ih]

theorem Ty.allAbsolute_eq (ts : List Ty) : allAbsolute ts = ts.all isAbsolute := by
  induction ts with
  | nil => rfl
  | cons t ts ih => simp [allAbsolute, ih]

theorem Member.isAbsolute_iff {m : Member} :
    m.isAbsolute = true ↔ m.marked = true ∧ ∀ u ∈ m.params, u.isAbsolute = true := by
  obtain ⟨name, marked, kind, keys, subs⟩ := m
  simp only [isAbsolute, Ty.allAbsolute_eq, Bool.and_eq_true, List.all_eq_true, params,
    List.forall_mem_append, and_assoc]

namespace Ty

theorem isAbsolute_iff {t : Ty} :
    t.isAbsolute = true ↔
      ∀ m ∈ t.members, m.marked = true ∧ ∀ u ∈ m.params, u.isAbsolute = true := by
  obtain ⟨first, rest⟩ := t
  simp only [isAbsolute, Member.allAbsolute_eq, Bool.and_eq_true, List.all_eq_true, members,
    List.forall_mem_cons, Member.isAbsolute_iff]

theorem isAbsolute_single {t : Ty} (rooted : t.isAbsolute = true) {m : Member}
    (member : m ∈ t.members) : (single m).isAbsolute = true :=
  isAbsolute_iff.mpr (List.forall_mem_singleton.mpr (isAbsolute_iff.mp rooted m member))

theorem isAbsolute_union {a b : Ty} (rooted : a.isAbsolute = true)
    (rooted' : b.isAbsolute = true) : (a.union b).isAbsolute = true := by
  refine isAbsolute_iff.mpr fun m member => ?_
  rcases mem_of_mem_union member with member | member
  · exact isAbsolute_iff.mp rooted m member
  · exact isAbsolute_iff.mp rooted' m member

theorem isAbsolute_instanceTy {t : Ty} (rooted : t.isAbsolute = true) :
    t.instanceTy.isAbsolute = true := by
  rw [isAbsolute_iff] at rooted ⊢
  intro m member
  rcases mem_members_instanceTy member with member | ⟨old, listed, u, param, member⟩
  · exact rooted m member
  · exact isAbsolute_iff.mp ((rooted old listed).2 u param) m member

theorem normal_absolute (name : String) : (absolute name).Normal :=
  normal_single ⟨fun _ => ⟨rfl, rfl⟩, fun _ => rfl⟩ fun _ param => absurd param List.not_mem_nil

/-- Qualifying changes nothing in a type whose names are all absolute. -/
theorem qualify_of_isAbsolute {t : Ty} (normal : t.Normal) (rooted : t.isAbsolute = true)
    (lookup : String → Option String) : t.qualify lookup = t := by
  have kept : t.Kept (Member.qualified lookup) := by
    induction normal with
    | intro distinct fits _ ih =>
      rw [isAbsolute_iff] at rooted
      refine .intro distinct (fun m member => ?_) (fun m member _ => fits m member)
        fun m member _ u param => ih m member u param ((rooted m member).2 u param)
      exact if_neg (by simp [isRelativeName, (rooted m member).1])
  rw [qualify_eq, kept.rebuild_eq]

end Ty

end DuckInfer
