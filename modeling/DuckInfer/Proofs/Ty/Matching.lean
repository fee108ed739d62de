import DuckInfer.Proofs.Ty.Entries
import DuckInfer.Proofs.Ty.Rebuilding
import DuckInfer.Ty.Unify
import Mathlib.Data.List.Perm.Subperm

/-!
Matching against types without placeholders. Main statements: matching only adds bindings, each of a
declared generic to a type without placeholders; and matching that adds none replaces placeholders
by what they are bound to.
-/

namespace DuckInfer

/-- A type in which nothing is open. -/
structure Ty.Concrete (t : Ty) : Prop where
  normal : t.Normal
  ground : t.isGeneric = false

theorem Ty.Concrete.param {t u : Ty} {m : Member} (concrete : t.Concrete) (member : m ∈ t.members)
    (param : u ∈ m.params) : u.Concrete := by
  refine ⟨?_, (Ty.isGeneric_eq_false.mp concrete.ground m member).2 u param⟩
  cases concrete.normal with
  | intro _ _ params => exact params m member u param

theorem Ty.concrete_unionAll {ts : List Ty} (some : ts ≠ []) (concrete : ∀ t ∈ ts, t.Concrete) :
    (Ty.unionAll ts).Concrete where
  normal := Ty.normal_unionAll fun t listed => (concrete t listed).normal
  ground := Ty.isGeneric_unionAll some fun t listed => (concrete t listed).ground

/-! ### Bindings -/

namespace Bindings

/-- What rebuilding puts in the place of a member: the type that a placeholder is bound to. -/
def replacement (b : Bindings) (m : Member) : Ty :=
  match m.placeholderName?.bind b.find? with
  | some bound => bound
  | none => .single m

/-- Each entry binds a generic of its own to a type in which nothing is open. -/
structure Settled (generics : List String) (b : Bindings) : Prop where
  distinct : (b.entries.map Prod.fst).Nodup
  named : ∀ entry ∈ b.entries, entry.1 ∈ generics
  concrete : ∀ entry ∈ b.entries, entry.2.Concrete

theorem settled_empty (generics : List String) : Settled generics ∅ where
  distinct := List.nodup_nil
  named _ member := absurd member List.not_mem_nil
  concrete _ member := absurd member List.not_mem_nil

theorem insertSorted_perm {name : String} (t : Ty) {entries : List (String × Ty)}
    (fresh : name ∉ entries.map Prod.fst) :
    (insertSorted name t entries).Perm ((name, t) :: entries) := by
  induction entries with
  | nil => exact .refl _
  | cons entry entries ih =>
    obtain ⟨other, u⟩ := entry
    simp only [List.map_cons, List.mem_cons, not_or] at fresh
    unfold insertSorted
    split
    · exact .refl _
    · rw [if_neg fresh.1]
      exact ((ih fresh.2).cons _).trans (List.Perm.swap _ _ _)

theorem sublist_insertSorted {name : String} (t : Ty) {entries : List (String × Ty)}
    (fresh : name ∉ entries.map Prod.fst) : entries.Sublist (insertSorted name t entries) := by
  induction entries with
  | nil => exact List.nil_sublist _
  | cons entry entries ih =>
    obtain ⟨other, u⟩ := entry
    simp only [List.map_cons, List.mem_cons, not_or] at fresh
    unfold insertSorted
    split
    · exact List.sublist_cons_self _ _
    · rw [if_neg fresh.1]
      exact (ih fresh.2).cons_cons _

theorem Settled.refresh_eq {generics : List String} {b : Bindings} (settled : b.Settled generics) :
    b.refresh = b :=
  refresh_of_ground fun entry member => (settled.concrete entry member).ground

theorem Settled.insert {generics : List String} {b : Bindings} {name : String} {t : Ty}
    (settled : b.Settled generics) (listed : name ∈ generics) (free : b.contains name = false)
    (concrete : t.Concrete) : (b.insert name t).Settled generics := by
  have fresh := not_mem_of_contains free
  have perm : (b.insert name t).entries.Perm ((name, t) :: b.entries) := insertSorted_perm t fresh
  refine ⟨?_, fun entry member => ?_, fun entry member => ?_⟩
  · rw [(perm.map Prod.fst).nodup_iff]
    exact List.nodup_cons.mpr ⟨fresh, settled.distinct⟩
  · rcases List.mem_cons.mp (perm.mem_iff.mp member) with rfl | older
    · exact listed
    · exact settled.named entry older
  · rcases List.mem_cons.mp (perm.mem_iff.mp member) with rfl | older
    · exact concrete
    · exact settled.concrete entry older

/-- Each generic is bound at most once. -/
theorem Settled.length_le {generics : List String} {b : Bindings} (settled : b.Settled generics) :
    b.entries.length ≤ generics.length := by
  have inside : b.entries.map Prod.fst ⊆ generics := by
    intro name bound
    obtain ⟨entry, member, rfl⟩ := List.mem_map.mp bound
    exact settled.named entry member
  have bounded := (List.subperm_of_subset settled.distinct inside).length_le
  rwa [List.length_map] at bounded

/-- Further bindings of declared generics, and none lost. -/
structure Grows (generics : List String) (b b' : Bindings) : Prop where
  settled : b'.Settled generics
  sublist : b.entries.Sublist b'.entries

variable {generics : List String} {b b' b'' : Bindings}

theorem Grows.refl (settled : b.Settled generics) : b.Grows generics b :=
  ⟨settled, .refl _⟩

theorem Grows.trans (first : b.Grows generics b') (second : b'.Grows generics b'') :
    b.Grows generics b'' :=
  ⟨second.settled, first.sublist.trans second.sublist⟩

theorem Grows.antisymm (first : b.Grows generics b') (second : b'.Grows generics b) : b' = b :=
  congrArg Bindings.mk (second.sublist.antisymm first.sublist)

/-- Bindings that grow and stay as many are the same. -/
theorem Grows.eq_of_length (grows : b.Grows generics b')
    (same : b'.entries.length ≤ b.entries.length) : b' = b :=
  congrArg Bindings.mk (grows.sublist.eq_of_length_le same).symm

end Bindings

/-! ### What parameters are matched with -/

namespace Unify

open Bindings

variable {generics : List String}

theorem counterpart_mem (name : String) (context : Ty) :
    counterpart name context ∈ context.members := by
  unfold counterpart
  cases found : context.members.find? fun m => m.name == name with
  | none => exact List.mem_cons_self
  | some m => exact List.mem_of_find?_eq_some found

theorem slotContexts_concrete {kind : BracketStyle} {declared context : List Ty}
    (concrete : ∀ t ∈ context, t.Concrete) :
    ∀ t ∈ slotContexts kind declared context, t.Concrete := by
  unfold slotContexts
  split
  · rename_i joined
    intro t member
    rw [List.mem_singleton.mp member]
    refine Ty.concrete_unionAll ?_ concrete
    rintro rfl
    simp at joined
  · exact concrete

/-- The types that the parameters of a member are matched with; `part` chooses keys or values. -/
def contexts (part : Member → List Ty) (m : Member) (context : Option Ty) : List Ty :=
  ((context.map (counterpart m.name)).map fun other =>
    slotContexts m.kind (part m) (part other)).getD []

theorem contexts_concrete (part : Member → List Ty) (params : ∀ m, part m ⊆ m.params) (m : Member)
    {context : Option Ty} (concrete : ∀ t ∈ context, t.Concrete) :
    ∀ t ∈ contexts part m context, t.Concrete := by
  cases context with
  | none => exact fun t member => absurd member List.not_mem_nil
  | some context =>
    refine slotContexts_concrete fun t member => ?_
    exact (concrete context rfl).param (counterpart_mem m.name context) (params _ member)

/-- Binding adds at most the one generic. -/
theorem bind_grows {b : Bindings} {name : String} {context : Option Ty} (listed : name ∈ generics)
    (concrete : ∀ t ∈ context, t.Concrete) (settled : b.Settled generics) :
    b.Grows generics (bind name context b) := by
  unfold bind
  cases context with
  | none => exact .refl settled
  | some t =>
    simp only
    split
    · exact .refl settled
    · rename_i open'
      simp only [Bool.or_eq_true, not_or, Bool.not_eq_true] at open'
      have inserted := settled.insert listed open'.2 (concrete t rfl)
      rw [inserted.refresh_eq]
      exact ⟨inserted, sublist_insertSorted t (not_mem_of_contains open'.2)⟩

end Unify

/-! ### One match -/

section Equations

variable (generics : List String)

theorem Member.unify_placeholder {m : Member} {name : String} (context : Option Ty) (b : Bindings)
    (placeholder : m.placeholderName? = some name) :
    m.unify generics context b =
      if generics.contains name then
        (((Unify.bind name context b).find? name).getD (.single m), Unify.bind name context b)
      else (.single m, b) := by
  obtain ⟨_, marked, kind, keys, subs⟩ := m
  rw [Member.unify]
  simp only [placeholder]

theorem Member.unify_params {m : Member} (context : Option Ty) (b : Bindings)
    (name : m.placeholderName? = none) (generic : m.params.any Ty.isGeneric = true) :
    m.unify generics context b =
      let keys := Ty.unifyList generics m.keys (Unify.contexts Member.keys m context) b
      let subs := Ty.unifyList generics m.subs (Unify.contexts Member.subs m context) keys.2
      (.single (m.replaceParams keys.1 subs.1), subs.2) := by
  obtain ⟨_, marked, kind, keys, subs⟩ := m
  rw [Member.unify]
  simp only [Member.params, List.any_append] at generic
  simp only [name, generic, if_true]
  rfl

theorem Member.unify_ground {m : Member} (context : Option Ty) (b : Bindings)
    (name : m.placeholderName? = none) (ground : m.params.any Ty.isGeneric = false) :
    m.unify generics context b = (.single m, b) := by
  obtain ⟨_, marked, kind, keys, subs⟩ := m
  rw [Member.unify]
  simp only [Member.params, List.any_append] at ground
  simp only [name, ground, Bool.false_eq_true, if_false]

theorem Ty.unify_generic {t : Ty} (context : Option Ty) (b : Bindings)
    (generic : t.isGeneric = true) :
    t.unify generics context b =
      let ts := Member.unifyList generics t.members context b
      (Ty.unionAll ts.1, ts.2) := by
  obtain ⟨first, rest⟩ := t
  rw [Ty.unify]
  simp only [generic, if_true, Ty.members, Member.unifyList]

theorem Ty.unify_ground {t : Ty} (context : Option Ty) (b : Bindings)
    (ground : t.isGeneric = false) : t.unify generics context b = (t, b) := by
  obtain ⟨first, rest⟩ := t
  rw [Ty.unify]
  simp only [ground, Bool.false_eq_true, if_false]

end Equations

/-! ### Matching only adds bindings -/

section Growth

variable {generics : List String} {b : Bindings}

open Bindings

theorem Member.unifyList_grows {context : Option Ty} {ms : List Member}
    (each : ∀ m ∈ ms, ∀ b : Bindings, b.Settled generics →
      b.Grows generics (m.unify generics context b).2) :
    ∀ b : Bindings, b.Settled generics →
      b.Grows generics (Member.unifyList generics ms context b).2 := by
  induction ms with
  | nil => exact fun b settled => .refl settled
  | cons m ms ih =>
    intro b settled
    have first := each m List.mem_cons_self b settled
    have later := ih (fun m member => each m (List.mem_cons_of_mem _ member)) _ first.settled
    rw [Member.unifyList]
    exact first.trans later

theorem Ty.unifyList_grows {ts : List Ty}
    (each : ∀ t ∈ ts, ∀ context : Option Ty, (∀ u ∈ context, u.Concrete) → ∀ b : Bindings,
      b.Settled generics → b.Grows generics (t.unify generics context b).2) :
    ∀ contexts : List Ty, (∀ u ∈ contexts, u.Concrete) → ∀ b : Bindings, b.Settled generics →
      b.Grows generics (Ty.unifyList generics ts contexts b).2 := by
  induction ts with
  | nil => exact fun _ _ b settled => .refl settled
  | cons t ts ih =>
    intro contexts concrete b settled
    have first := each t List.mem_cons_self contexts.head?
      (fun u here => concrete u (List.mem_of_mem_head? here)) b settled
    have later := ih (fun t member => each t (List.mem_cons_of_mem _ member)) contexts.tail
      (fun u member => concrete u (List.mem_of_mem_tail member)) _ first.settled
    rw [Ty.unifyList]
    exact first.trans later

theorem Member.unify_grows {m : Member}
    (each : ∀ t ∈ m.params, ∀ context : Option Ty, (∀ u ∈ context, u.Concrete) →
      ∀ b : Bindings, b.Settled generics → b.Grows generics (t.unify generics context b).2)
    {context : Option Ty} (concrete : ∀ u ∈ context, u.Concrete) (settled : b.Settled generics) :
    b.Grows generics (m.unify generics context b).2 := by
  cases named : m.placeholderName? with
  | some name =>
    rw [Member.unify_placeholder generics context b named]
    split
    · rename_i listed
      exact Unify.bind_grows (List.contains_iff_mem.mp listed) concrete settled
    · exact .refl settled
  | none =>
    cases generic : m.params.any Ty.isGeneric with
    | false =>
      rw [Member.unify_ground generics context b named generic]
      exact .refl settled
    | true =>
      rw [Member.unify_params generics context b named generic]
      have keys := Ty.unifyList_grows (fun t key => each t (List.mem_append_left _ key)) _
        (Unify.contexts_concrete Member.keys
          (fun m => List.subset_append_left m.keys m.subs) m concrete) b settled
      have subs := Ty.unifyList_grows (fun t sub => each t (List.mem_append_right _ sub)) _
        (Unify.contexts_concrete Member.subs
          (fun m => List.subset_append_right m.keys m.subs) m concrete) _ keys.settled
      exact keys.trans subs

theorem Ty.unify_grows (t : Ty) : ∀ context : Option Ty, (∀ u ∈ context, u.Concrete) →
    ∀ b : Bindings, b.Settled generics → b.Grows generics (t.unify generics context b).2 := by
  induction t using Ty.induction with
  | step t ih =>
    intro context concrete b settled
    cases generic : t.isGeneric with
    | false =>
      rw [Ty.unify_ground generics context b generic]
      exact .refl settled
    | true =>
      rw [Ty.unify_generic generics context b generic]
      exact Member.unifyList_grows (fun m member b settled =>
        Member.unify_grows (ih m member) concrete settled) b settled

end Growth

/-! ### Matching that adds nothing -/

/-- The name of a placeholder is missing, so that it is no placeholder for anything, but another
placeholder stands among its keys. -/
def Member.isNamelessPlaceholder (m : Member) : Bool :=
  m.isPlaceholder && m.subs.isEmpty && m.keys.any Ty.isGeneric

/-- A placeholder without a name and with another one among its keys stands somewhere. -/
def Ty.hasNamelessPlaceholder (t : Ty) : Bool :=
  t.anyMember Member.isNamelessPlaceholder

section Unchanged

variable {generics : List String} {b : Bindings}

open Bindings

theorem Bindings.replacement_of_not_isPlaceholder {m : Member} (proper : m.isPlaceholder = false) :
    b.replacement m = .single m := by
  simp [replacement, Member.placeholderName?_of_not_isPlaceholder proper]

/-- Normal types without placeholders stay as they are. -/
theorem Ty.Concrete.kept {t : Ty} (concrete : t.Concrete) : t.Kept b.replacement :=
  concrete.normal.kept_of_ground (fun _ => replacement_of_not_isPlaceholder) concrete.ground

theorem Member.unifyList_unchanged {context : Option Ty} {ms : List Member}
    (grows : ∀ m ∈ ms, ∀ b : Bindings, b.Settled generics →
      b.Grows generics (m.unify generics context b).2)
    (each : ∀ m ∈ ms, (m.unify generics context b).2 = b →
      (m.unify generics context b).1 = m.rebuild b.replacement)
    (settled : b.Settled generics) (same : (Member.unifyList generics ms context b).2 = b) :
    (Member.unifyList generics ms context b).1 = ms.map (Member.rebuild b.replacement) := by
  induction ms with
  | nil => rfl
  | cons m ms ih =>
    rw [Member.unifyList] at same ⊢
    have later := fun m member => grows m (List.mem_cons_of_mem _ member)
    have first := grows m List.mem_cons_self b settled
    have rest := Member.unifyList_grows later _ first.settled
    rw [same] at rest
    have stays : (m.unify generics context b).2 = b := first.antisymm rest
    simp only [stays] at same ⊢
    rw [each m List.mem_cons_self stays,
      ih later (fun m member => each m (List.mem_cons_of_mem _ member)) same, List.map_cons]

theorem Ty.unifyList_unchanged {ts : List Ty}
    (each : ∀ t ∈ ts, ∀ context : Option Ty, (∀ u ∈ context, u.Concrete) →
      (t.unify generics context b).2 = b →
      (t.unify generics context b).1 = t.rebuild b.replacement)
    (settled : b.Settled generics) :
    ∀ contexts : List Ty, (∀ u ∈ contexts, u.Concrete) →
      (Ty.unifyList generics ts contexts b).2 = b →
      (Ty.unifyList generics ts contexts b).1 = ts.map (Ty.rebuild b.replacement) := by
  induction ts with
  | nil => exact fun _ _ _ => rfl
  | cons t ts ih =>
    intro contexts concrete same
    rw [Ty.unifyList] at same ⊢
    have head : ∀ u ∈ contexts.head?, u.Concrete :=
      fun u here => concrete u (List.mem_of_mem_head? here)
    have tail : ∀ u ∈ contexts.tail, u.Concrete :=
      fun u member => concrete u (List.mem_of_mem_tail member)
    have first := Ty.unify_grows t contexts.head? head b settled
    have rest := Ty.unifyList_grows (fun t (_ : t ∈ ts) => Ty.unify_grows t) contexts.tail tail _
      first.settled
    rw [same] at rest
    have stays : (t.unify generics contexts.head? b).2 = b := first.antisymm rest
    simp only [stays] at same ⊢
    rw [each t List.mem_cons_self contexts.head? head stays,
      ih (fun t member => each t (List.mem_cons_of_mem _ member)) contexts.tail tail same,
      List.map_cons]

theorem Member.placeholder_unchanged {m : Member} {name : String}
    (named : m.placeholderName? = some name) (settled : b.Settled generics) {context : Option Ty}
    (same : (m.unify generics context b).2 = b) :
    (m.unify generics context b).1 = m.rebuild b.replacement := by
  have placeholder : m.isPlaceholder = true := by
    by_contra ordinary
    simp [Member.placeholderName?, ordinary] at named
  have bound : m.rebuild b.replacement = (b.find? name).getD (.single m) := by
    rw [Member.rebuild_of_isLeaf (by simp [Member.isLeaf, placeholder])]
    simp only [replacement, named, Option.bind_some]
    cases b.find? name <;> rfl
  rw [Member.unify_placeholder generics context b named] at same ⊢
  rw [bound]
  split
  · rename_i listed
    rw [if_pos listed] at same
    exact congrArg (fun b : Bindings => (b.find? name).getD (.single m)) same
  · rename_i foreign
    have free : b.find? name = none := by
      by_contra found
      obtain ⟨t, found⟩ := Option.ne_none_iff_exists'.mp found
      exact foreign (List.contains_iff_mem.mpr (settled.named _ (mem_of_find? found)))
    rw [free]
    rfl

theorem Member.ground_unchanged {m : Member} (fits : m.Fits) (normal : ∀ t ∈ m.params, t.Normal)
    (named : m.placeholderName? = none) (ground : m.params.any Ty.isGeneric = false) :
    m.rebuild b.replacement = .single m := by
  have stays : b.replacement m = .single m := by
    simp [replacement, named]
  cases leaf : m.isLeaf with
  | true => rw [Member.rebuild_of_isLeaf leaf, stays]
  | false =>
    have kept : ∀ t ∈ m.params, t.rebuild b.replacement = t := by
      intro t param
      have ground : t.isGeneric = false := by
        simpa using List.any_eq_false.mp ground t param
      exact (Ty.Concrete.kept ⟨normal t param, ground⟩).rebuild_eq
    have keys : m.keys.map (Ty.rebuild b.replacement) = m.keys :=
      (List.map_congr_left fun t key => kept t (List.mem_append_left _ key)).trans (List.map_id _)
    have subs : m.subs.map (Ty.rebuild b.replacement) = m.subs :=
      (List.map_congr_left fun t sub => kept t (List.mem_append_right _ sub)).trans (List.map_id _)
    rw [Member.rebuild_of_not_isLeaf leaf, keys, subs, fits.replaceParams_eq, stays]

theorem Member.isLeaf_of_generic {m : Member} (ordinary : m.isPlaceholder = false)
    (generic : m.params.any Ty.isGeneric = true) : m.isLeaf = false := by
  by_contra leaf
  simp_all [Member.isLeaf, Member.params]

theorem Member.params_unchanged {m : Member} (ordinary : m.isPlaceholder = false)
    (generic : m.params.any Ty.isGeneric = true)
    (each : ∀ t ∈ m.params, ∀ context : Option Ty, (∀ u ∈ context, u.Concrete) →
      (t.unify generics context b).2 = b →
      (t.unify generics context b).1 = t.rebuild b.replacement)
    (settled : b.Settled generics) {context : Option Ty} (concrete : ∀ u ∈ context, u.Concrete)
    (same : (m.unify generics context b).2 = b) :
    (m.unify generics context b).1 = m.rebuild b.replacement := by
  have node := Member.isLeaf_of_generic ordinary generic
  rw [Member.unify_params generics context b
    (Member.placeholderName?_of_not_isPlaceholder ordinary) generic] at same ⊢
  have keysConcrete := Unify.contexts_concrete Member.keys
    (fun m => List.subset_append_left m.keys m.subs) m concrete
  have subsConcrete := Unify.contexts_concrete Member.subs
    (fun m => List.subset_append_right m.keys m.subs) m concrete
  have first := Ty.unifyList_grows (fun t (_ : t ∈ m.keys) => Ty.unify_grows t) _ keysConcrete
    b settled
  have second := Ty.unifyList_grows (fun t (_ : t ∈ m.subs) => Ty.unify_grows t) _ subsConcrete
    _ first.settled
  simp only at same ⊢
  rw [same] at second
  have unchanged := first.antisymm second
  rw [unchanged] at same ⊢
  rw [Ty.unifyList_unchanged (fun t key => each t (List.mem_append_left _ key)) settled _
      keysConcrete unchanged,
    Ty.unifyList_unchanged (fun t sub => each t (List.mem_append_right _ sub)) settled _
      subsConcrete same, Member.rebuild_of_not_isLeaf node, replacement_of_not_isPlaceholder]
  simpa [Member.isPlaceholder, Member.replaceParams, Member.make] using ordinary

theorem Member.unify_unchanged {m : Member} (fits : m.Fits)
    (normal : ∀ t ∈ m.params, t.Normal) (proper : m.isNamelessPlaceholder = false)
    (each : ∀ t ∈ m.params, ∀ context : Option Ty, (∀ u ∈ context, u.Concrete) →
      (t.unify generics context b).2 = b →
      (t.unify generics context b).1 = t.rebuild b.replacement)
    (settled : b.Settled generics) {context : Option Ty} (concrete : ∀ u ∈ context, u.Concrete)
    (same : (m.unify generics context b).2 = b) :
    (m.unify generics context b).1 = m.rebuild b.replacement := by
  cases named : m.placeholderName? with
  | some name => exact Member.placeholder_unchanged named settled same
  | none =>
    cases generic : m.params.any Ty.isGeneric with
    | false =>
      rw [Member.unify_ground generics context b named generic,
        Member.ground_unchanged fits normal named generic]
    | true =>
      -- without a name it is no placeholder, or there is nothing to match among its parameters
      have ordinary : m.isPlaceholder = false := by
        by_contra placeholder
        simp only [Bool.not_eq_false] at placeholder
        have nameless : m.subs = [] := by
          simpa [Member.placeholderName?, placeholder] using named
        simp only [Member.isNamelessPlaceholder, placeholder, nameless, List.isEmpty_nil,
          Bool.and_true, Bool.true_and] at proper
        simp only [Member.params, nameless, List.append_nil, proper] at generic
        exact absurd generic Bool.false_ne_true
      exact Member.params_unchanged ordinary generic each settled concrete same

/-- Matching that adds no binding replaces the bound placeholders, wherever they stand. -/
theorem Ty.unify_unchanged {t : Ty} (normal : t.Normal) (proper : t.hasNamelessPlaceholder = false)
    (settled : b.Settled generics) : ∀ context : Option Ty, (∀ u ∈ context, u.Concrete) →
      (t.unify generics context b).2 = b →
      (t.unify generics context b).1 = t.rebuild b.replacement := by
  induction normal with
  | @intro t distinct fits params ih =>
    intro context concrete same
    cases generic : t.isGeneric with
    | false =>
      rw [Ty.unify_ground generics context b generic]
      exact (Ty.Concrete.kept ⟨.intro distinct fits params, generic⟩).rebuild_eq.symm
    | true =>
      rw [Ty.unify_generic generics context b generic] at same ⊢
      have inside := Ty.anyMember_eq_false.mp proper
      have rebuilt : (Member.unifyList generics t.members context b).1 =
          t.members.map (Member.rebuild b.replacement) := by
        refine Member.unifyList_unchanged ?_ ?_ settled same
        · exact fun m _ b settled =>
            Member.unify_grows (fun t _ => Ty.unify_grows t) concrete settled
        · intro m member same
          exact Member.unify_unchanged (fits m member) (params m member) (inside m member).1
            (fun t param => ih m member t param ((inside m member).2 t param)) settled concrete same
      rw [Ty.rebuild_eq, ← rebuilt]

end Unchanged

/-! ### Substitution -/

theorem Ty.Normal.substitute_eq {t : Ty} (normal : t.Normal) (b : Bindings) :
    t.substitute b = t.rebuild b.replacement := by
  unfold Ty.substitute
  split
  · rfl
  · rename_i idle
    refine (Ty.Kept.rebuild_eq ?_).symm
    cases generic : t.isGeneric with
    | false => exact Ty.Concrete.kept ⟨normal, generic⟩
    | true =>
      have none : b.entries = [] := by
        simpa [generic, Bindings.isEmpty] using idle
      refine normal.kept fun m => ?_
      unfold Bindings.replacement Bindings.find?
      rw [none]
      cases m.placeholderName? <;> rfl

theorem Ty.Kept.substitute_eq {t : Ty} {b : Bindings} (kept : t.Kept b.replacement) :
    t.substitute b = t := by
  unfold Ty.substitute
  split
  · exact kept.rebuild_eq
  · rfl

/-- Nothing that is bound is left after a replacement. -/
theorem Ty.kept_rebuild {generics : List String} {b : Bindings} (settled : b.Settled generics)
    (t : Ty) : (t.rebuild b.replacement).Kept b.replacement := by
  refine Ty.rebuild_induction (fun _ => Ty.kept_unionAll) ?_ t
  intro m inside
  cases found : m.placeholderName?.bind b.find? with
  | some bound =>
    have replaced : b.replacement m = bound := by
      simp [Bindings.replacement, found]
    obtain ⟨name, -, found⟩ := Option.bind_eq_some_iff.mp found
    rw [replaced]
    exact (settled.concrete _ (Bindings.mem_of_find? found)).kept
  | none =>
    have stays : b.replacement m = .single m := by
      simp [Bindings.replacement, found]
    rw [stays]
    exact Ty.kept_single stays inside

end DuckInfer
