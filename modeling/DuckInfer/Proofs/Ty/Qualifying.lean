import DuckInfer.Proofs.Ty.Rebuilding

/-!
Qualifying types: relative names become the absolute ones that a lookup finds for them. Main
statements: qualifying twice is qualifying once, it puts in no name that the lookup does not find,
and only the lookups of names in the type matter.
-/

namespace DuckInfer

/-! ### Names that stand nowhere in a type -/

section

variable {p : Member → Bool}

theorem Ty.anyMember_single {m : Member} :
    (Ty.single m).anyMember p = false ↔
      p m = false ∧ ∀ u ∈ m.params, u.anyMember p = false := by
  rw [Ty.anyMember_eq_false]
  exact List.forall_mem_singleton

theorem Ty.anyMember_ofMembers {ms : List Member} (undefined : p (.named "undefined") = false)
    (each : ∀ m ∈ ms, p m = false ∧ ∀ u ∈ m.params, u.anyMember p = false) :
    (Ty.ofMembers ms).anyMember p = false := by
  by_cases none : ms = []
  · subst none
    exact Ty.anyMember_single.mpr ⟨undefined, by simp [Member.named, Member.params]⟩
  · rw [Ty.anyMember_eq_false]
    exact fun m member => each m (Ty.mem_of_mem_ofMembers none member)

theorem Ty.anyMember_unionAll {ts : List Ty} (undefined : p (.named "undefined") = false)
    (each : ∀ t ∈ ts, t.anyMember p = false) : (Ty.unionAll ts).anyMember p = false := by
  refine Ty.anyMember_ofMembers undefined fun m member => ?_
  obtain ⟨t, listed, member⟩ := List.mem_flatMap.mp member
  exact Ty.anyMember_eq_false.mp (each t listed) m member

/-- `p` holds nowhere in a rebuilt type, if it does not for what the members become. Of the members
only those are looked at for which `q` does not hold, as it holds nowhere in the type. -/
theorem Ty.anyMember_rebuild {q : Member → Bool} {f : Member → Ty}
    (undefined : p (.named "undefined") = false)
    (stable : ∀ m keys subs, q (Member.replaceParams m keys subs) = q m)
    (leaves : ∀ m : Member, m.isLeaf = true → q m = false →
      (∀ u ∈ m.params, u.anyMember q = false) → ∀ u ∈ m.params, u.anyMember p = false)
    (each : ∀ m : Member, q m = false → (∀ u ∈ m.params, u.anyMember p = false) →
      (f m).anyMember p = false) {t : Ty} (absent : t.anyMember q = false) :
    (t.rebuild f).anyMember p = false := by
  induction t using Ty.induction with
  | step t ih =>
    rw [Ty.rebuild_eq]
    refine Ty.anyMember_unionAll undefined fun u rebuilt => ?_
    obtain ⟨m, member, rfl⟩ := List.mem_map.mp rebuilt
    obtain ⟨here, below⟩ := Ty.anyMember_eq_false.mp absent m member
    cases leaf : m.isLeaf with
    | true =>
      rw [Member.rebuild_of_isLeaf leaf]
      exact each m here (leaves m leaf here below)
    | false =>
      rw [Member.rebuild_of_not_isLeaf leaf]
      refine each _ ((stable _ _ _).trans here) fun u param => ?_
      obtain ⟨old, original, rfl⟩ := Member.exists_of_mem_params_map param
      exact ih m member old original (below old original)

/-- Rebuilding asks only about members with the names of members. -/
theorem Ty.rebuild_congr {f g : Member → Ty} {t : Ty}
    (same : ∀ m : Member, t.anyMember (fun other => other.name == m.name) = true → f m = g m) :
    t.rebuild f = t.rebuild g := by
  induction t using Ty.induction with
  | step t ih =>
    have named : ∀ m ∈ t.members, ∀ other : Member, other.name = m.name → f other = g other := by
      intro m member other name
      refine same other ?_
      by_contra absent
      have here := (Ty.anyMember_eq_false.mp (by simpa using absent) m member).1
      simp [name] at here
    have below : ∀ m ∈ t.members, ∀ u ∈ m.params, u.rebuild f = u.rebuild g := by
      intro m member u param
      refine ih m member u param fun other inside => same other ?_
      by_contra absent
      have outside := (Ty.anyMember_eq_false.mp (by simpa using absent) m member).2 u param
      exact absurd (outside.symm.trans inside) (by simp)
    rw [Ty.rebuild_eq, Ty.rebuild_eq]
    refine congrArg Ty.unionAll (List.map_congr_left fun m member => ?_)
    cases leaf : m.isLeaf with
    | true =>
      rw [Member.rebuild_of_isLeaf leaf, Member.rebuild_of_isLeaf leaf]
      exact named m member m rfl
    | false =>
      have keys : m.keys.map (Ty.rebuild f) = m.keys.map (Ty.rebuild g) :=
        List.map_congr_left fun u key => below m member u (List.mem_append_left _ key)
      have subs : m.subs.map (Ty.rebuild f) = m.subs.map (Ty.rebuild g) :=
        List.map_congr_left fun u sub => below m member u (List.mem_append_right _ sub)
      rw [Member.rebuild_of_not_isLeaf leaf, Member.rebuild_of_not_isLeaf leaf, keys, subs]
      exact named m member _ rfl

theorem Ty.anyMember_instanceTy {t : Ty} (undefined : p (.named "undefined") = false)
    (absent : t.anyMember p = false) : t.instanceTy.anyMember p = false := by
  refine Ty.anyMember_ofMembers undefined fun m member => ?_
  obtain ⟨old, listed, member⟩ := List.mem_flatMap.mp member
  obtain ⟨here, below⟩ := Ty.anyMember_eq_false.mp absent old listed
  have own : m = old → p m = false ∧ ∀ u ∈ m.params, u.anyMember p = false := by
    rintro rfl
    exact ⟨here, below⟩
  unfold Ty.instanceMembers at member
  split at member
  · split at member
    · exact own (by simpa using member)
    · rename_i sub subs shape
      have param : sub ∈ old.params := List.mem_append_right _ (by simp [shape])
      exact Ty.anyMember_eq_false.mp (below sub param) m member
  · exact own (by simpa using member)

end

/-- A type in which nothing is generic, with `self` replaced by another such type. -/
theorem Ty.isGeneric_selfTo {t receiver : Ty} (ground : t.isGeneric = false)
    (known : receiver.isGeneric = false) : (t.selfTo receiver).isGeneric = false := by
  unfold Ty.selfTo
  split
  · refine Ty.anyMember_rebuild rfl (fun _ _ _ => rfl) (fun _ _ _ below => below)
      (fun m here below => ?_) ground
    split
    · exact Ty.anyMember_instanceTy rfl known
    · exact Ty.anyMember_single.mpr ⟨here, below⟩
  · exact ground

/-- Replacing `self` leaves no `self`, if the receiver does not mention it. -/
theorem Ty.mentionsSelf_selfTo {t receiver : Ty} (ground : t.isGeneric = false)
    (absent : receiver.mentionsSelf = false) : (t.selfTo receiver).mentionsSelf = false := by
  unfold Ty.selfTo
  split
  · refine Ty.anyMember_rebuild rfl (fun _ _ _ => rfl) (fun m leaf proper _ => ?_)
      (fun m _ below => ?_) ground
    · simp only [Member.isLeaf, proper, Bool.false_or, Bool.and_eq_true, List.isEmpty_iff] at leaf
      simp [Member.params, leaf]
    · split
      · exact Ty.anyMember_instanceTy rfl absent
      · rename_i other
        exact Ty.anyMember_single.mpr ⟨by simpa using other, below⟩
  · rename_i absent
    simpa using absent

theorem Ty.selfTo_of_not_mentionsSelf {t : Ty} (absent : t.mentionsSelf = false) (receiver : Ty) :
    t.selfTo receiver = t := by
  simp [Ty.selfTo, absent]

/-! ### Qualifying -/

section

variable {lookup other : String → Option String}

/-- What qualifying puts in the place of a member. -/
def Member.qualified (lookup : String → Option String) (m : Member) : Ty :=
  if Ty.isRelativeName m then
    match lookup m.name with
    | some path => .single (m.renamed path true)
    | none => .single m
  else .single m

theorem Ty.qualify_eq (lookup : String → Option String) (t : Ty) :
    t.qualify lookup = t.rebuild (Member.qualified lookup) := by
  have same : (fun m : Member => do
        if Ty.isRelativeName m then
          match ← (Pure.pure (lookup m.name) : Id (Option String)) with
          | some path => return Ty.single (m.renamed path true)
          | none => return Ty.single m
        else return Ty.single m) = fun m => Pure.pure (Member.qualified lookup m) := by
    funext m
    unfold Member.qualified
    split
    · cases lookup m.name <;> rfl
    · rfl
  exact congrArg (fun f => Id.run (t.rebuildM f)) same

theorem Member.qualified_cases (lookup : String → Option String) (m : Member) :
    m.qualified lookup = .single m ∨ ∃ path, Ty.isRelativeName m = true ∧
      lookup m.name = some path ∧ m.qualified lookup = .single (m.renamed path true) := by
  unfold Member.qualified
  by_cases relative : Ty.isRelativeName m = true
  · rw [if_pos relative]
    cases found : lookup m.name with
    | none => exact Or.inl rfl
    | some path => exact Or.inr ⟨path, relative, rfl, rfl⟩
  · rw [if_neg relative]
    exact Or.inl rfl

/-- Qualifying puts in only what the lookup finds. -/
theorem Ty.anyMember_qualify {p : Member → Bool} (undefined : p (.named "undefined") = false)
    (stable : ∀ m keys subs, p (Member.replaceParams m keys subs) = p m)
    (unfound : ∀ (m : Member) path, lookup m.name = some path →
      p (m.renamed path true) = false) {t : Ty} (absent : t.anyMember p = false) :
    (t.qualify lookup).anyMember p = false := by
  rw [Ty.qualify_eq]
  refine Ty.anyMember_rebuild undefined stable (fun _ _ _ below => below)
    (fun m here below => ?_) absent
  rcases m.qualified_cases lookup with kept | ⟨path, -, found, renamed⟩
  · rw [kept]
    exact Ty.anyMember_single.mpr ⟨here, below⟩
  · rw [renamed]
    exact Ty.anyMember_single.mpr ⟨unfound m path found, below⟩

theorem Ty.isGeneric_qualify (unreserved : ∀ name, lookup name ≠ some "generic") {t : Ty}
    (ground : t.isGeneric = false) : (t.qualify lookup).isGeneric = false := by
  refine Ty.anyMember_qualify rfl (fun _ _ _ => rfl) (fun m path found => ?_) ground
  refine beq_eq_false_iff_ne.mpr fun same => unreserved m.name ?_
  exact found.trans (congrArg some same)

theorem Ty.mentionsSelf_qualify (unreserved : ∀ name, lookup name ≠ some "self") {t : Ty}
    (absent : t.mentionsSelf = false) : (t.qualify lookup).mentionsSelf = false := by
  refine Ty.anyMember_qualify rfl (fun _ _ _ => rfl) (fun m path found => ?_) absent
  refine beq_eq_false_iff_ne.mpr fun same => unreserved m.name ?_
  exact found.trans (congrArg some same)

/-- What is qualified already stays as it is. -/
theorem Ty.kept_qualify (lookup : String → Option String) (t : Ty) :
    (t.qualify lookup).Kept (Member.qualified lookup) := by
  rw [Ty.qualify_eq]
  refine Ty.rebuild_induction (fun _ => Ty.kept_unionAll) (fun m inside => ?_) t
  rcases m.qualified_cases lookup with kept | ⟨path, relative, -, renamed⟩
  · rw [kept]
    exact Ty.kept_single kept inside
  · rw [renamed]
    refine Ty.kept_single (if_neg (by simp [Ty.isRelativeName, Member.renamed, Member.make])) ?_
    refine inside.imp (fun leaf => ?_) fun ⟨_, params⟩ => ⟨Member.fits_make _ _ _ _ _, params⟩
    have proper : m.isPlaceholder = false := by
      simp only [Ty.isRelativeName, Bool.not_eq_true', Bool.or_eq_false_iff] at relative
      exact relative.2
    simp only [Member.isLeaf, proper, Bool.false_or] at leaf
    simp [Member.isLeaf, Member.renamed, Member.make, leaf]

theorem Ty.qualify_qualify (lookup : String → Option String) (t : Ty) :
    (t.qualify lookup).qualify lookup = t.qualify lookup := by
  rw [Ty.qualify_eq lookup (t.qualify lookup), (Ty.kept_qualify lookup t).rebuild_eq]

/-- Only the lookups of the names in a type matter. -/
theorem Ty.qualify_congr {t : Ty}
    (same : ∀ name, t.anyMember (fun m => m.name == name) = true → lookup name = other name) :
    t.qualify lookup = t.qualify other := by
  rw [Ty.qualify_eq, Ty.qualify_eq]
  refine Ty.rebuild_congr fun m named => ?_
  unfold Member.qualified
  rw [same m.name named]

end

end DuckInfer
