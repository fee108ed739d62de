import DuckInfer.Proofs.Ty.PlaceholderNames
import DuckInfer.Proofs.Ty.Unions

/-!
Matching a declared type against what a substitution makes of it. Main statement: the match gives
back the substituted type and binds the placeholders as the substitution does.
-/

namespace DuckInfer

open Bindings

/-! ### Patterns -/

/-- A declared type that is matched place by place: one member at every place, which is a
placeholder for one of the generics or no placeholder at all. -/
inductive Ty.Pattern (generics : List String) : Ty → Prop where
  | hole {m : Member} {name : String} :
      m.placeholderName? = some name → name ∈ generics → (Ty.single m).Pattern generics
  | node {m : Member} :
      m.isPlaceholder = false → m.Fits → (∀ u ∈ m.params, u.Pattern generics) →
        (Ty.single m).Pattern generics

/-- Sorted bindings of all the generics to known types in which nothing is open. -/
structure Bindings.Assigns (generics : List String) (s : Bindings) : Prop where
  sorted : s.Sorted
  total : ∀ name ∈ generics, ∃ t, s.find? name = some t
  concrete : ∀ entry ∈ s.entries, entry.2.Concrete
  known : ∀ entry ∈ s.entries, entry.2.isUndefined = false

variable {generics : List String} {s b b' b'' : Bindings}

theorem Ty.rebuild_single {f : Member → Ty} {m : Member} :
    (Ty.single m).rebuild f = Ty.unionAll [m.rebuild f] :=
  Ty.rebuild_eq f (Ty.single m)

/-- In the place of a member with parameters stands the member with its parameters rebuilt. -/
theorem Ty.rebuild_node {m : Member} (proper : m.isPlaceholder = false) (node : m.isLeaf = false) :
    (Ty.single m).rebuild b.replacement = Ty.single (m.replaceParams
      (m.keys.map (Ty.rebuild b.replacement)) (m.subs.map (Ty.rebuild b.replacement))) := by
  have kept : ∀ keys subs, b.replacement (m.replaceParams keys subs) =
      Ty.single (m.replaceParams keys subs) :=
    fun _ _ => replacement_of_not_isPlaceholder proper
  rw [Ty.rebuild_single, Member.rebuild_of_not_isLeaf node, kept]
  exact Ty.unionAll_alone (List.nodup_singleton _)

/-- What keeps the members that are no placeholders keeps a pattern, if it keeps the placeholders as
well or there are none. -/
theorem Ty.Pattern.kept {f : Member → Ty} {t : Ty} (pattern : t.Pattern generics)
    (nodes : ∀ m : Member, m.isPlaceholder = false → f m = Ty.single m)
    (holes : t.isGeneric = false ∨ ∀ m, f m = Ty.single m) : t.Kept f := by
  induction pattern with
  | @hole m name named _ =>
    have placeholder := Member.isPlaceholder_of_placeholderName? named
    rcases holes with ground | all
    · rw [Ty.isGeneric_single, placeholder] at ground
      exact absurd ground.1 (by simp)
    · exact Ty.kept_single (all m) (Or.inl (by simp [Member.isLeaf, placeholder]))
  | @node m proper fits _ ih =>
    refine Ty.kept_single (nodes m proper) (Or.inr ⟨fits, fun u param => ih u param ?_⟩)
    exact holes.imp_left fun ground => (Ty.isGeneric_single.mp ground).2 u param

theorem Ty.Pattern.substitute_eq {t : Ty} (pattern : t.Pattern generics) :
    t.substitute s = t.rebuild s.replacement := by
  unfold Ty.substitute
  split
  · rfl
  · rename_i idle
    refine (pattern.kept (fun _ => replacement_of_not_isPlaceholder) ?_).rebuild_eq.symm
    cases generic : t.isGeneric with
    | false => exact Or.inl rfl
    | true =>
      have none : s.entries = [] := by
        simpa [generic, Bindings.isEmpty] using idle
      refine Or.inr fun m => replacement_of_free ?_
      unfold find?
      rw [none]
      cases m.placeholderName? <;> rfl

/-! ### Bindings taken from a substitution -/

namespace Bindings

/-- `b'` is `b` with what `s` binds the names to. -/
structure Takes (s : Bindings) (names : List String) (b b' : Bindings) : Prop where
  sorted : b'.Sorted
  find? : ∀ name, b'.find? name = if name ∈ names then s.find? name else b.find? name

theorem Takes.refl (sorted : b.Sorted) : s.Takes [] b b where
  sorted := sorted
  find? _ := by rw [if_neg List.not_mem_nil]

theorem Takes.trans {names more : List String} (first : s.Takes names b b')
    (second : s.Takes more b' b'') : s.Takes (names ++ more) b b'' where
  sorted := second.sorted
  find? name := by
    rw [second.find?, first.find?]
    by_cases later : name ∈ more <;> simp [later]

theorem Takes.partOf {names : List String} (takes : s.Takes names b b') (part : b.PartOf s) :
    b'.PartOf s := by
  intro name t found
  rw [takes.find?] at found
  by_cases listed : name ∈ names
  · rwa [if_pos listed] at found
  · rw [if_neg listed] at found
    exact part name t found

theorem Takes.congr {names more : List String} (takes : s.Takes names b b')
    (same : ∀ name, name ∈ names ↔ name ∈ more) : s.Takes more b b' where
  sorted := takes.sorted
  find? name := by simp only [takes.find?, same]

/-- Bindings that are taken are the older ones plus a part of the substitution. -/
theorem Takes.eq_plus {names : List String} (takes : s.Takes names b b') (part : b.PartOf s)
    (sorted : s.Sorted) (before : b.Sorted) : b' = b.plus (s.restrict names) := by
  refine takes.sorted.ext (before.insertAll _) fun name => ?_
  rw [takes.find?, (sorted.restrict names).find?_plus, sorted.find?_restrict]
  by_cases listed : name ∈ names
  · rw [if_pos listed, if_pos listed]
    cases bound : s.find? name with
    | some t => rfl
    | none =>
      cases found : b.find? name with
      | none => rfl
      | some t => exact absurd (bound.symm.trans (part name t found)) (by simp)
  · rw [if_neg listed, if_neg listed, Option.none_or]

theorem PartOf.ground (assigns : s.Assigns generics) (sorted : b.Sorted) (part : b.PartOf s) :
    ∀ entry ∈ b.entries, entry.2.isGeneric = false := by
  rintro ⟨name, t⟩ member
  exact (assigns.concrete _ (mem_of_find? (part name t (sorted.find?_eq_some.mpr member)))).ground

/-- A generic is bound as the substitution binds it, also if it was bound before. -/
theorem takes_bind (assigns : s.Assigns generics) (sorted : b.Sorted) (part : b.PartOf s)
    {name : String} {t : Ty} (assigned : s.find? name = some t) :
    s.Takes [name] b (Unify.bind name (some t) b) := by
  have entry := mem_of_find? assigned
  have known : t.isUndefined = false := assigns.known _ entry
  unfold Unify.bind
  simp only [known, Bool.false_or]
  by_cases bound : b.contains name
  · obtain ⟨u, found⟩ := Option.isSome_iff_exists.mp bound
    rw [if_pos bound]
    refine ⟨sorted, fun other => ?_⟩
    by_cases same : other = name
    · subst same
      rw [if_pos List.mem_cons_self, found, part _ u found]
    · rw [if_neg (by simpa using same)]
  · have inserted : ∀ entry ∈ (b.insert name t).entries, entry.2.isGeneric = false := by
      intro entry member
      rcases mem_of_mem_insertSorted member with rfl | older
      · exact (assigns.concrete _ (mem_of_find? assigned)).ground
      · exact part.ground assigns sorted entry older
    rw [if_neg bound, refresh_of_ground inserted]
    refine ⟨sorted.insert name t, fun other => ?_⟩
    rw [find?_insert]
    by_cases same : other = name
    · subst same
      rw [if_pos rfl, if_pos List.mem_cons_self, assigned]
    · rw [if_neg same, if_neg (by simpa using same)]

end Bindings

/-! ### Matching with the substituted type -/

theorem Ty.unify_single {m : Member} (context : Option Ty) (b : Bindings)
    (generic : (Ty.single m).isGeneric = true) :
    (Ty.single m).unify generics context b =
      (Ty.unionAll [(m.unify generics context b).1], (m.unify generics context b).2) :=
  Ty.unify_generic generics context b generic

/-- Matched against what the substitution makes of it, a type becomes that and its placeholders are
bound as in the substitution. -/
def Ty.Recovers (generics : List String) (s : Bindings) (t : Ty) : Prop :=
  ∀ b : Bindings, b.Sorted → b.PartOf s →
    ∃ b', t.unify generics (some (t.rebuild s.replacement)) b = (t.rebuild s.replacement, b') ∧
      s.Takes t.placeholderNames b b'

theorem Ty.unifyList_recovers {ts : List Ty} (each : ∀ t ∈ ts, t.Recovers generics s)
    (sorted : b.Sorted) (part : b.PartOf s) :
    ∃ b', Ty.unifyList generics ts (ts.map (Ty.rebuild s.replacement)) b =
        (ts.map (Ty.rebuild s.replacement), b') ∧ s.Takes (Ty.placeholderNamesIn ts) b b' := by
  induction ts generalizing b with
  | nil => exact ⟨b, rfl, .refl sorted⟩
  | cons t ts ih =>
    obtain ⟨mid, head, first⟩ := each t List.mem_cons_self b sorted part
    obtain ⟨last, tail, second⟩ := ih (fun t listed => each t (List.mem_cons_of_mem _ listed))
      first.sorted (first.partOf part)
    refine ⟨last, ?_, first.trans second⟩
    rw [Ty.unifyList, List.map_cons, List.head?_cons, List.tail_cons, head]
    simp only [tail]

theorem Ty.recovers_hole (assigns : s.Assigns generics) {m : Member} {name : String}
    (named : m.placeholderName? = some name) (listed : name ∈ generics) :
    (Ty.single m).Recovers generics s := by
  intro b sorted part
  obtain ⟨t, assigned⟩ := assigns.total name listed
  have placeholder := Member.isPlaceholder_of_placeholderName? named
  have concrete : t.Concrete := assigns.concrete _ (mem_of_find? assigned)
  have alone : Ty.unionAll [t] = t := Ty.unionAll_alone concrete.normal.distinct
  have rebuilt : (Ty.single m).rebuild s.replacement = t := by
    rw [Ty.rebuild_single, Member.rebuild_of_isLeaf (by simp [Member.isLeaf, placeholder]),
      replacement_of_isSome named assigned, alone]
  have takes := takes_bind assigns sorted part assigned
  have bound : (Unify.bind name (some t) b).find? name = some t := by
    rw [takes.find?, if_pos List.mem_cons_self, assigned]
  have generic : (Ty.single m).isGeneric = true := by
    by_contra ground
    have proper := (Ty.isGeneric_single.mp (by simpa using ground)).1
    exact absurd (placeholder.symm.trans proper) (by simp)
  refine ⟨_, ?_, takes.congr fun other => ?_⟩
  · have matched : m.unify generics (some t) b = (t, Unify.bind name (some t) b) := by
      rw [Member.unify_placeholder generics _ b named, if_pos (List.contains_iff_mem.mpr listed),
        bound, Option.getD_some]
    rw [rebuilt, Ty.unify_single _ b generic, matched, alone]
  · rw [Ty.mem_placeholderNames_single, Member.mem_placeholderNames, named]
    simp [eq_comm]

theorem Unify.slotContexts_of_length {kind : BracketStyle} {declared context : List Ty}
    (same : context.length = declared.length) : slotContexts kind declared context = context := by
  unfold slotContexts
  rw [if_neg]
  simp only [same, Bool.and_eq_true, beq_iff_eq, decide_eq_true_eq]
  omega

/-- The counterpart of a node is the node with other parameters, and as many of them are matched
place by place. -/
theorem Unify.contexts_replaceParams {m : Member} {keys subs : List Ty}
    (sameKeys : keys.length = m.keys.length) (sameSubs : subs.length = m.subs.length) :
    Unify.contexts Member.keys m (some (Ty.single (m.replaceParams keys subs))) = keys ∧
      Unify.contexts Member.subs m (some (Ty.single (m.replaceParams keys subs))) = subs := by
  have other : Unify.counterpart m.name (Ty.single (m.replaceParams keys subs)) =
      m.replaceParams keys subs := by
    simp [Unify.counterpart, Ty.single, Ty.members, Member.replaceParams, Member.make]
  unfold Unify.contexts
  rw [Option.map_some, Option.map_some, Option.map_some, Option.getD_some, Option.getD_some, other]
  exact ⟨Unify.slotContexts_of_length sameKeys, Unify.slotContexts_of_length sameSubs⟩

theorem Ty.recovers_node {m : Member} (proper : m.isPlaceholder = false)
    (kept : (Ty.single m).isGeneric = false → (Ty.single m).rebuild s.replacement = Ty.single m)
    (each : ∀ u ∈ m.params, u.Recovers generics s) : (Ty.single m).Recovers generics s := by
  intro b sorted part
  cases generic : (Ty.single m).isGeneric with
  | false =>
    refine ⟨b, ?_, (Takes.refl sorted).congr fun name => ?_⟩
    · rw [Ty.unify_ground generics _ b generic, kept generic]
    · exact iff_of_false List.not_mem_nil (Ty.not_mem_placeholderNames_of_ground generic)
  | true =>
    have params : m.params.any Ty.isGeneric = true := by
      by_contra ground
      simp only [Bool.not_eq_true, List.any_eq_false] at ground
      exact absurd (generic.symm.trans (Ty.isGeneric_single.mpr ⟨proper, by simpa using ground⟩))
        (by simp)
    have node := Member.isLeaf_of_generic proper params
    obtain ⟨mid, keys, first⟩ := Ty.unifyList_recovers
      (fun u key => each u (List.mem_append_left m.subs key)) sorted part
    obtain ⟨last, subs, second⟩ := Ty.unifyList_recovers
      (fun u sub => each u (List.mem_append_right m.keys sub)) first.sorted (first.partOf part)
    have rebuilt := Ty.rebuild_node proper node (b := s)
    obtain ⟨keyContexts, subContexts⟩ := Unify.contexts_replaceParams (m := m)
      (List.length_map (Ty.rebuild s.replacement)) (List.length_map (Ty.rebuild s.replacement))
    have matched : m.unify generics (some ((Ty.single m).rebuild s.replacement)) b =
        ((Ty.single m).rebuild s.replacement, last) := by
      rw [rebuilt, Member.unify_params generics _ b
        (Member.placeholderName?_of_not_isPlaceholder proper) params, keyContexts, subContexts]
      simp only [keys, subs]
    refine ⟨last, ?_, (first.trans second).congr fun name => ?_⟩
    · rw [Ty.unify_single _ b generic, matched, rebuilt]
      exact congrArg (·, last) (Ty.unionAll_alone (List.nodup_singleton _))
    · rw [Ty.mem_placeholderNames_node proper, Member.params]
      simp [Ty.mem_placeholderNamesIn, or_and_right, exists_or]

/-- A pattern is matched with what a substitution makes of it: the match gives that back, whatever
was bound before as in the substitution. -/
theorem Ty.Pattern.recovers (assigns : s.Assigns generics) {t : Ty} (pattern : t.Pattern generics) :
    t.Recovers generics s := by
  induction pattern with
  | hole named listed => exact Ty.recovers_hole assigns named listed
  | @node m proper fits params ih =>
    refine Ty.recovers_node proper (fun ground => ?_) ih
    have whole : (Ty.single m).Pattern generics := .node proper fits params
    exact (whole.kept (fun _ => replacement_of_not_isPlaceholder) (Or.inl ground)).rebuild_eq

theorem Ty.mem_freeGenerics {t : Ty} {name : String} :
    name ∈ t.placeholderNames ↔ name ∈ t.freeGenerics := by
  refine ⟨fun listed => ?_, fun listed => (mem_of_mem_distinctFrom listed).1⟩
  have known : ∃ other ∈ t.freeGenerics, id other = id name :=
    exists_mem_distinctFrom listed List.not_mem_nil
  obtain ⟨_, kept, rfl⟩ := known
  exact kept

/-- Matching recovers a substitution: a pattern that is matched against what the substitution makes
of it becomes that, and the bindings gain what the substitution binds its generics to. -/
theorem Ty.unify_substitute (assigns : s.Assigns generics) {t : Ty} (pattern : t.Pattern generics)
    (sorted : b.Sorted) (part : b.PartOf s) :
    t.unify generics (some (t.substitute s)) b =
      (t.substitute s, b.plus (s.restrict t.freeGenerics)) := by
  obtain ⟨b', matched, takes⟩ := pattern.recovers assigns b sorted part
  have named := takes.congr fun _ => Ty.mem_freeGenerics
  rw [pattern.substitute_eq, matched, named.eq_plus part assigns.sorted sorted]

section Hashes

/-- `Hash{K => Array<V>}` -/
def hashOfArrays (key value : Ty) : Ty :=
  .single (.hash "Hash" key (.single (.list "Array" [value])))

/-- `Integer, nil` -/
def integerOrNil : Ty :=
  .union (.absolute "Integer") .nil

/-- `K` stands for `Symbol` and `V` for `Integer, nil`. -/
def symbolToInteger : Bindings :=
  ⟨[("K", .absolute "Symbol"), ("V", integerOrNil)]⟩

/-- `Hash{generic<K> => Array<generic<V>>}` is matched with `Hash{Symbol => Array<Integer, nil>}`
while `K` is bound already. -/
theorem unify_hashOfArrays :
    (hashOfArrays (.single (.generic "K")) (.single (.generic "V"))).unify ["K", "V"]
        (some (hashOfArrays (.absolute "Symbol") integerOrNil)) ⟨[("K", .absolute "Symbol")]⟩ =
      (hashOfArrays (.absolute "Symbol") integerOrNil, symbolToInteger) := by
  have hole : ∀ name ∈ ["K", "V"], (Ty.single (.generic name)).Pattern ["K", "V"] :=
    fun name listed => .hole rfl listed
  have pattern : (hashOfArrays (.single (.generic "K")) (.single (.generic "V"))).Pattern
      ["K", "V"] := by
    refine .node rfl (Member.fits_make _ _ _ _ _) fun u param => ?_
    rcases List.mem_pair.mp param with rfl | rfl
    · exact hole "K" (by simp)
    · refine .node rfl (Member.fits_make _ _ _ _ _) fun u param => ?_
      rw [List.mem_singleton.mp param]
      exact hole "V" (by simp)
  have symbol : (Ty.absolute "Symbol").Concrete := ⟨Ty.normal_absolute "Symbol", rfl⟩
  have union : integerOrNil.Concrete := by
    refine Ty.concrete_unionAll (List.cons_ne_nil _ _) fun t listed => ?_
    rcases List.mem_pair.mp listed with rfl | rfl
    · exact ⟨Ty.normal_absolute "Integer", rfl⟩
    · exact ⟨Ty.normal_named "nil", rfl⟩
  have assigns : symbolToInteger.Assigns ["K", "V"] := by
    refine ⟨List.pairwise_pair.mpr (by decide), ?_, ?_, by decide⟩
    · intro name listed
      rcases List.mem_pair.mp listed with rfl | rfl
      · exact ⟨.absolute "Symbol", rfl⟩
      · exact ⟨integerOrNil, rfl⟩
    · intro entry member
      rcases List.mem_pair.mp member with rfl | rfl
      · exact symbol
      · exact union
  have part : PartOf ⟨[("K", .absolute "Symbol")]⟩ symbolToInteger := by
    intro name t found
    obtain ⟨rfl, rfl⟩ := Prod.mk.inj (List.mem_singleton.mp (mem_of_find? found))
    rfl
  exact Ty.unify_substitute assigns pattern (List.pairwise_singleton _ _) part

end Hashes

end DuckInfer
