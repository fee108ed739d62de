import DuckInfer.Proofs.Ty.Unions

/-!
Unions of types that write a name with and without a mark. Tags leave the marks out, so a union
keeps one of `Foo` and `::Foo` only, and a lookup may find another class for the one that is lost.
Main statement: a union may be qualified in parts if every member that it leaves out means, once it
is qualified, what a member of the first part means.
-/

namespace DuckInfer

variable {lookup : String → Option String}

/-! ### Qualified members -/

/-- A member with its relative names made absolute, at every depth. -/
def Member.qualify (lookup : String → Option String) (m : Member) : Member :=
  (m.rebuild (Member.qualified lookup)).first

theorem Member.rebuild_qualified (m : Member) :
    m.rebuild (Member.qualified lookup) = .single (m.qualify lookup) := by
  have alone : ∀ m : Member, m.qualified lookup = .single (m.qualified lookup).first := by
    intro m
    rcases m.qualified_cases lookup with kept | ⟨path, -, -, renamed⟩
    · rw [kept]
      rfl
    · rw [renamed]
      rfl
  unfold Member.qualify
  cases leaf : m.isLeaf with
  | true =>
    rw [Member.rebuild_of_isLeaf leaf]
    exact alone m
  | false =>
    rw [Member.rebuild_of_not_isLeaf leaf]
    exact alone _

theorem Ty.qualify_eq_ofMembers (t : Ty) :
    t.qualify lookup = Ty.ofMembers (t.members.map (Member.qualify lookup)) := by
  have members : ∀ ms : List Member,
      (ms.map (Member.rebuild (Member.qualified lookup))).flatMap Ty.members =
        ms.map (Member.qualify lookup) := by
    intro ms
    induction ms with
    | nil => rfl
    | cons m ms ih =>
      rw [List.map_cons, List.flatMap_cons, ih, Member.rebuild_qualified]
      rfl
  rw [Ty.qualify_eq, Ty.rebuild_eq, Ty.unionAll, members]

theorem Ty.qualify_single (m : Member) :
    (Ty.single m).qualify lookup = .single (m.qualify lookup) :=
  Ty.qualify_eq_ofMembers (.single m)

/-! ### Qualified unions -/

/-- A qualified union is made of the first type and of the members of the second with other tags:
those with the tag of a member of the first are lost before anything is looked up. -/
theorem Ty.qualify_union_eq {a b : Ty} (distinct : a.Distinct) (distinct' : b.Distinct) :
    (a.union b).qualify lookup = Ty.ofMembers ((a.members ++ b.members.filter fun y =>
      !(a.members.map Member.tag).contains y.tag).map (Member.qualify lookup)) := by
  rw [Ty.qualify_eq_ofMembers, Ty.members_union_eq distinct distinct']

theorem Ty.union_qualify_eq (a b : Ty) :
    (a.qualify lookup).union (b.qualify lookup) =
      Ty.ofMembers ((a.members ++ b.members).map (Member.qualify lookup)) := by
  have some : ∀ t : Ty, t.members.map (Member.qualify lookup) ≠ [] := by
    simp [Ty.members_ne_nil]
  rw [Ty.qualify_eq_ofMembers, Ty.qualify_eq_ofMembers, List.map_append,
    Ty.ofMembers_append (some a) (some b)]

/-- Qualifying a union and uniting what is qualified is the same, and nothing that a member means is
lost, if each member that is left out of the union for its tag means, once it is qualified, what a
member of the first type means. -/
theorem Ty.qualify_union {a b : Ty} (distinct : a.Distinct) (distinct' : b.Distinct)
    (covered : ∀ y ∈ b.members, (∃ x ∈ a.members, x.tag = y.tag) →
      ∃ x ∈ a.members,
        ((Ty.single x).qualify lookup).tag = ((Ty.single y).qualify lookup).tag) :
    (a.union b).qualify lookup = (a.qualify lookup).union (b.qualify lookup) ∧
      ∀ m, m ∈ a.members ∨ m ∈ b.members → ∃ kept ∈ (a.union b).members,
        ((Ty.single kept).qualify lookup).tag = ((Ty.single m).qualify lookup).tag := by
  have dropped : ∀ y ∈ b.members, (!(a.members.map Member.tag).contains y.tag) = false →
      ∃ x ∈ a.members,
        ((Ty.single x).qualify lookup).tag = ((Ty.single y).qualify lookup).tag := by
    intro y member out
    rw [Bool.not_eq_false', List.contains_iff_mem] at out
    exact covered y member (List.mem_map.mp out)
  constructor
  · have known : ∀ y ∈ b.members, (!(a.members.map Member.tag).contains y.tag) = false →
        (Member.tag ∘ Member.qualify lookup) y ∈ ([] : List String) ∨
          (Member.tag ∘ Member.qualify lookup) y ∈
            a.members.map (Member.tag ∘ Member.qualify lookup) := by
      intro y member out
      obtain ⟨x, member', same⟩ := dropped y member out
      rw [Ty.qualify_single, Ty.qualify_single] at same
      exact Or.inr (List.mem_map.mpr ⟨x, member', same⟩)
    rw [Ty.qualify_union_eq distinct distinct', Ty.union_qualify_eq, Ty.ofMembers, Ty.ofMembers,
      distinctOn, distinctOn, distinctFrom_map, distinctFrom_map, distinctFrom_append_filter known]
  · intro m member
    rw [Ty.members_union_eq distinct distinct']
    rcases member with member | member
    · exact ⟨m, List.mem_append_left _ member, rfl⟩
    · cases kept : !(a.members.map Member.tag).contains m.tag with
      | true => exact ⟨m, List.mem_append_right _ (List.mem_filter.mpr ⟨member, kept⟩), rfl⟩
      | false =>
        obtain ⟨x, member', same⟩ := dropped m member kept
        exact ⟨x, List.mem_append_left _ member', same⟩

section Namesakes

/-- In `A` there is a class `Foo`, so the name means that one there. -/
def fooOfA (name : String) : Option String :=
  if name = "Foo" then some "A::Foo" else none

/-- `Foo, ::String` -/
def fooOrString : Ty :=
  .union (.single (.named "Foo")) (.absolute "String")

/-- `::String, ::Array<Foo>` -/
def stringOrFoos : Ty :=
  .union (.absolute "String") (.single (.list "Array" [.single (.named "Foo")]))

/-- Only `::String` is left out of the union, and it means the same in both types. -/
theorem qualify_union_fooOfA : (fooOrString.union stringOrFoos).qualify fooOfA =
    (fooOrString.qualify fooOfA).union (stringOrFoos.qualify fooOfA) := by
  refine (Ty.qualify_union (Ty.distinct_unionAll _) (Ty.distinct_unionAll _) ?_).1
  rintro y member ⟨x, member', same⟩
  rcases List.mem_pair.mp member with rfl | rfl
  · exact ⟨.absolute "String", List.mem_pair.mpr (Or.inr rfl), rfl⟩
  · rcases List.mem_pair.mp member' with rfl | rfl
    · exact absurd same (by decide)
    · exact absurd same (by decide)

/-- Of `Foo` and `::Foo` the union keeps the first, which in `A` means `A::Foo`. -/
theorem qualify_union_ne_namesakes :
    ¬ ∀ (lookup : String → Option String) (a b : Ty), a.Normal → b.Normal →
      ((a.union b).qualify lookup).tag = ((a.qualify lookup).union (b.qualify lookup)).tag := by
  intro claimed
  have same := claimed fooOfA (.single (.named "Foo")) (.absolute "Foo") (Ty.normal_named "Foo")
    (Ty.normal_absolute "Foo")
  exact absurd same (by decide)

end Namesakes

end DuckInfer
