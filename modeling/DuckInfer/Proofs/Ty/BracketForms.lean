import DuckInfer.Proofs.Store.EdgeFrames
import DuckInfer.Proofs.Ty.Recovery

/-!
Two ways to bind the generics of a container: from the parameters of a receiver, and by matching the
receiver with its own bracket form over placeholders. Main statement: for lists and tuples both bind
the same, whatever stands in the brackets. A receiver with hash-style brackets gives the union of
its keys to the first generic and that of its values to the second one, and the form takes the first
key and the first value, so that both agree as long as there are no others.
-/

namespace DuckInfer

/-! ### Bracket forms -/

/-- A list of placeholders in the brackets of a receiver. -/
def Member.listOver (receiver : Member) (generics : List String) : Member :=
  .make receiver.name receiver.marked .list []
    (generics.map fun generic => .single (.generic generic))

/-- Hash-style brackets over two placeholders. -/
def Member.hashOver (receiver : Member) (key value : String) : Member :=
  .make receiver.name receiver.marked .hash [.single (.generic key)] [.single (.generic value)]

/-- The bracket form of a receiver over placeholders for some generics: hash-style brackets for the
two generics of a hash, else a list. -/
def Member.formOver (receiver : Member) (generics : List String) : Member :=
  match receiver.kind, generics with
  | .hash, [key, value] => receiver.hashOver key value
  | _, _ => receiver.listOver generics

/-- What matching a receiver with its form over the generics binds. -/
def Bindings.ofForm (generics : List String) (receiver : Member) : Bindings :=
  ((Ty.single (receiver.formOver generics)).unify generics (some (.single receiver)) .empty).2

/-! ### Matching placeholders place by place -/

section

variable {generics : List String} {b : Bindings}

theorem Ty.isGeneric_hole (name : String) : (Ty.single (.generic name)).isGeneric = true :=
  rfl

/-- A placeholder is bound to what it is matched with. -/
theorem Ty.snd_unify_hole {name : String} (listed : name ∈ generics) (context : Option Ty) :
    ((Ty.single (.generic name)).unify generics context b).2 = Unify.bind name context b := by
  have placeholder : (Member.generic name).placeholderName? = some name := rfl
  rw [Ty.unify_single context b (Ty.isGeneric_hole name),
    Member.unify_placeholder generics context b placeholder,
    if_pos (List.contains_iff_mem.mpr listed)]

/-- A free generic is bound to a known type that is complete. -/
theorem Unify.bind_of_free {name : String} {t : Ty} (free : b.contains name = false)
    (ground : ∀ entry ∈ b.entries, entry.2.isGeneric = false) (complete : t.isGeneric = false) :
    Unify.bind name (some t) b = if t.isUndefined then b else b.insert name t := by
  have inserted : ∀ entry ∈ (b.insert name t).entries, entry.2.isGeneric = false := by
    intro entry member
    rcases Bindings.mem_of_mem_insertSorted member with rfl | older
    · exact complete
    · exact ground entry older
  unfold Unify.bind
  simp only [free, Bool.or_false, Bindings.refresh_of_ground inserted]

/-- Placeholders for free generics that are matched place by place bind the known types. -/
theorem Ty.snd_unifyList_holes {names : List String} (listed : names ⊆ generics)
    (distinct : names.Nodup) : ∀ {contexts : List Ty} {b : Bindings},
    (∀ t ∈ contexts, t.isGeneric = false) → (∀ entry ∈ b.entries, entry.2.isGeneric = false) →
    (∀ name ∈ names, b.contains name = false) →
    (Ty.unifyList generics (names.map fun name => .single (.generic name)) contexts b).2 =
      b.insertAll ((names.zip contexts).filter fun (_, t) => !t.isUndefined) := by
  induction names with
  | nil => exact fun _ _ _ => rfl
  | cons name names ih =>
    intro contexts b complete ground free
    obtain ⟨inside, rest⟩ := List.cons_subset.mp listed
    obtain ⟨new, distinct⟩ := List.nodup_cons.mp distinct
    have later := fun other (member : other ∈ names) =>
      free other (List.mem_cons_of_mem name member)
    have step : (Ty.unifyList generics ((name :: names).map fun name => .single (.generic name))
        contexts b).2 = (Ty.unifyList generics (names.map fun name => .single (.generic name))
          contexts.tail (Unify.bind name contexts.head? b)).2 := by
      rw [List.map_cons, Ty.unifyList]
      dsimp only
      rw [Ty.snd_unify_hole inside]
    rw [step]
    cases contexts with
    | nil =>
      have unbound : Unify.bind name none b = b := rfl
      simpa [unbound] using ih rest distinct complete ground later
    | cons t contexts =>
      have tail : ∀ u ∈ contexts, u.isGeneric = false := fun u member =>
        complete u (List.mem_cons_of_mem t member)
      rw [List.head?_cons, List.tail_cons, Unify.bind_of_free (free name List.mem_cons_self) ground
        (complete t List.mem_cons_self), List.zip_cons_cons]
      cases known : t.isUndefined with
      | true =>
        rw [if_pos rfl, List.filter_cons_of_neg (by simp [known])]
        exact ih rest distinct tail ground later
      | false =>
        rw [if_neg (by simp), List.filter_cons_of_pos (by simp [known])]
        refine ih rest distinct tail (fun entry member => ?_) fun other member => ?_
        · rcases Bindings.mem_of_mem_insertSorted member with rfl | older
          · exact complete t List.mem_cons_self
          · exact ground entry older
        · have different : other ≠ name := fun same => new (same ▸ member)
          have untouched := later other member
          unfold Bindings.contains at untouched ⊢
          rwa [Bindings.find?_insert, if_neg different]

end

/-! ### Places of a form -/

section

variable {generics : List String} {receiver form : Member}

/-- The counterpart of a form is the receiver. -/
theorem Unify.contexts_form (part : Member → List Ty) (named : form.name = receiver.name) :
    Unify.contexts part form (some (.single receiver)) =
      Unify.slotContexts form.kind (part form) (part receiver) := by
  have other : Unify.counterpart form.name (Ty.single receiver) = receiver := by
    simp [Unify.counterpart, Ty.single, Ty.members, named]
  unfold Unify.contexts
  rw [Option.map_some, Option.map_some, Option.getD_some, other]

/-- A form is matched key by key, and then value by value. -/
theorem Ty.snd_unify_form (b : Bindings) (named : form.name = receiver.name)
    (proper : receiver.isPlaceholder = false) (holes : form.params.any Ty.isGeneric = true) :
    ((Ty.single form).unify generics (some (.single receiver)) b).2 =
      (Ty.unifyList generics form.subs (Unify.slotContexts form.kind form.subs receiver.subs)
        (Ty.unifyList generics form.keys (Unify.slotContexts form.kind form.keys receiver.keys)
          b).2).2 := by
  have placed : form.isPlaceholder = false := by
    rw [← proper, Member.isPlaceholder, Member.isPlaceholder, named]
  have generic : (Ty.single form).isGeneric = true := by
    by_contra ground
    obtain ⟨-, each⟩ := Ty.isGeneric_single.mp (by simpa using ground)
    obtain ⟨t, param, open'⟩ := List.any_eq_true.mp holes
    exact absurd (each t param) (by simp [open'])
  rw [Ty.unify_single _ _ generic, Member.unify_params generics _ _
    (Member.placeholderName?_of_not_isPlaceholder placed) holes, Unify.contexts_form _ named,
    Unify.contexts_form _ named]

theorem Unify.slotContexts_ground {kind : BracketStyle} {declared context : List Ty}
    (ground : ∀ t ∈ context, t.isGeneric = false) :
    ∀ t ∈ Unify.slotContexts kind declared context, t.isGeneric = false := by
  unfold Unify.slotContexts
  split
  · intro t member
    rw [List.mem_singleton.mp member]
    exact Ty.isGeneric_unionAll_params ground
  · exact ground

/-- Placeholders that are matched with nothing bound before bind place by place. -/
theorem Ty.snd_unifyList_holes_empty (distinct : generics.Nodup) {contexts : List Ty}
    (ground : ∀ t ∈ contexts, t.isGeneric = false) :
    (Ty.unifyList generics (generics.map fun name => .single (.generic name)) contexts .empty).2 =
      .ofPlaces generics contexts :=
  Ty.snd_unifyList_holes (List.Subset.refl _) distinct ground
    (fun _ member => absurd member List.not_mem_nil) fun _ _ => rfl

/-- The list over placeholders is matched with the values, or with their union if there is a single
placeholder for several ones. -/
theorem Ty.snd_unify_listOver (distinct : generics.Nodup) (proper : receiver.isPlaceholder = false)
    (ground : ∀ t ∈ receiver.params, t.isGeneric = false) :
    ((Ty.single (receiver.listOver generics)).unify generics (some (.single receiver)) .empty).2 =
      .ofPlaces generics (if generics.length = 1 ∧ receiver.subs.length > 1 then [receiver.valueTy]
        else receiver.subs) := by
  cases generics with
  | nil =>
    have closed : (Ty.single (receiver.listOver [])).isGeneric = false :=
      Ty.isGeneric_single.mpr ⟨proper, fun _ member => absurd member List.not_mem_nil⟩
    rw [Ty.unify_ground _ _ _ closed]
    rfl
  | cons name names =>
    have values : ∀ t ∈ receiver.subs, t.isGeneric = false := fun t sub =>
      ground t (List.mem_append_right _ sub)
    have named : (receiver.listOver (name :: names)).name = receiver.name := rfl
    have holes : (receiver.listOver (name :: names)).params.any Ty.isGeneric = true := rfl
    have contexts : Unify.slotContexts .list
        ((name :: names).map fun name => Ty.single (.generic name)) receiver.subs =
          if (name :: names).length = 1 ∧ receiver.subs.length > 1 then [receiver.valueTy]
          else receiver.subs := by
      simp [Unify.slotContexts, Member.valueTy]
    rw [Ty.snd_unify_form .empty named proper holes, ← contexts]
    exact Ty.snd_unifyList_holes_empty distinct (Unify.slotContexts_ground values)

/-- A placeholder takes the first of the types that it is matched with. -/
theorem Ty.snd_unifyList_hole {name : String} (listed : name ∈ generics) (contexts : List Ty)
    (b : Bindings) : (Ty.unifyList generics [.single (.generic name)] contexts b).2 =
      Unify.bind name (some (contexts.headD .undefined)) b := by
  have first : (Ty.unifyList generics [.single (.generic name)] contexts b).2 =
      ((Ty.single (.generic name)).unify generics contexts.head? b).2 := rfl
  rw [first, Ty.snd_unify_hole listed]
  cases contexts with
  | nil => rfl
  | cons t contexts => rfl

/-- Hash-style brackets over two placeholders are matched with the first key and the first value. -/
theorem Ty.snd_unify_hashOver {key value : String} (distinct : [key, value].Nodup)
    (proper : receiver.isPlaceholder = false)
    (ground : ∀ t ∈ receiver.params, t.isGeneric = false) :
    ((Ty.single (receiver.hashOver key value)).unify [key, value] (some (.single receiver))
        .empty).2 =
      .ofPlaces [key, value] [receiver.keys.headD .undefined, receiver.subs.headD .undefined] := by
  have named : (receiver.hashOver key value).name = receiver.name := rfl
  have holes : (receiver.hashOver key value).params.any Ty.isGeneric = true := rfl
  have slots : ∀ generic contexts,
      Unify.slotContexts .hash [Ty.single (.generic generic)] contexts = contexts := by
    intro generic contexts
    simp [Unify.slotContexts]
  have head : ∀ {ts : List Ty}, (∀ t ∈ ts, t.isGeneric = false) →
      (ts.headD .undefined).isGeneric = false := by
    intro ts each
    cases ts with
    | nil => rfl
    | cons t ts => exact each t List.mem_cons_self
  have heads : ∀ t ∈ [receiver.keys.headD .undefined, receiver.subs.headD .undefined],
      t.isGeneric = false := by
    intro t member
    rcases List.mem_pair.mp member with rfl | rfl
    · exact head fun u listed => ground u (List.mem_append_left _ listed)
    · exact head fun u listed => ground u (List.mem_append_right _ listed)
  have key' : key ∈ [key, value] := List.mem_cons_self
  have value' : value ∈ [key, value] := List.mem_cons_of_mem _ List.mem_cons_self
  rw [Ty.snd_unify_form .empty named proper holes, ← Ty.snd_unifyList_holes_empty distinct heads]
  calc
    _ = (Ty.unifyList [key, value] [.single (.generic value)] receiver.subs
          (Ty.unifyList [key, value] [.single (.generic key)] receiver.keys .empty).2).2 := by
      rw [← slots value receiver.subs, ← slots key receiver.keys]
      rfl
    _ = Unify.bind value (some (receiver.subs.headD .undefined))
          (Unify.bind key (some (receiver.keys.headD .undefined)) .empty) := by
      rw [Ty.snd_unifyList_hole value', Ty.snd_unifyList_hole key']
    _ = _ := by
      rw [← Ty.snd_unify_hole key', ← Ty.snd_unify_hole value']
      rfl

end

/-! ### Receivers and forms -/

/-- Of at most one type the union is that type. -/
theorem knownAt_unionAll {ts : List Ty} (few : ts.length ≤ 1) (normal : ∀ t ∈ ts, t.Normal) :
    knownAt [Ty.unionAll ts] 0 = knownAt ts 0 := by
  match ts, few with
  | [], _ => rfl
  | [t], _ => rw [Ty.unionAll_alone (normal t List.mem_cons_self).distinct]

theorem knownAt_headD (ts : List Ty) : knownAt [ts.headD .undefined] 0 = knownAt ts 0 := by
  cases ts <;> rfl

namespace Bindings

section

variable {generics : List String} {receiver : Member}

/-- What a form without keys binds to a single generic is the union of the values. -/
theorem knownAt_values (concrete : ∀ t ∈ receiver.params, t.Concrete) :
    knownAt (if receiver.subs.length > 1 then [receiver.valueTy] else receiver.subs) 0 =
      knownAt [receiver.valueTy] 0 := by
  split
  · rfl
  · rename_i few
    refine (knownAt_unionAll (Nat.le_of_not_lt few) fun t sub => ?_).symm
    exact (concrete t (List.mem_append_right _ sub)).normal

theorem ofForm_listOver (distinct : generics.Nodup) (proper : receiver.isPlaceholder = false)
    (concrete : ∀ t ∈ receiver.params, t.Concrete)
    (form : receiver.formOver generics = receiver.listOver generics) :
    ofForm generics receiver =
      .ofPlaces generics (if generics.length = 1 ∧ receiver.subs.length > 1 then [receiver.valueTy]
        else receiver.subs) := by
  unfold ofForm
  rw [form]
  exact Ty.snd_unify_listOver distinct proper fun t param => (concrete t param).ground

theorem ofReceiver_eq_ofForm_of_list (distinct : generics.Nodup)
    (proper : receiver.isPlaceholder = false) (concrete : ∀ t ∈ receiver.params, t.Concrete)
    (kind : receiver.kind = .list ∨ receiver.kind = .fixed) :
    .ofReceiver generics receiver = ofForm generics receiver := by
  have form : receiver.formOver generics = receiver.listOver generics := by
    unfold Member.formOver
    rcases kind with kind | kind <;> rw [kind]
  have values : receiver.valuesFor generics.length =
      if generics.length = 1 then [receiver.valueTy] else receiver.subs := by
    unfold Member.valuesFor
    rcases kind with kind | kind <;> rw [kind] <;> simp
  rw [ofReceiver_eq_ofPlaces, ofForm_listOver distinct proper concrete form,
    ofPlaces_eq_iff distinct, values]
  intro place inside
  by_cases single : generics.length = 1
  · obtain rfl : place = 0 := by omega
    simp only [single, true_and, if_true]
    exact (knownAt_values concrete).symm
  · simp only [single, false_and, if_false]

theorem ofReceiver_eq_ofForm_iff_of_hash_one (distinct : generics.Nodup)
    (proper : receiver.isPlaceholder = false) (concrete : ∀ t ∈ receiver.params, t.Concrete)
    (kind : receiver.kind = .hash) (single : generics.length = 1) :
    .ofReceiver generics receiver = ofForm generics receiver ↔
      knownAt [receiver.keyTy] 0 = knownAt [receiver.valueTy] 0 := by
  obtain ⟨name, rfl⟩ := List.length_eq_one_iff.mp single
  have form : receiver.formOver [name] = receiver.listOver [name] := by
    unfold Member.formOver
    rw [kind]
  have values : receiver.valuesFor [name].length = [receiver.keyTy, receiver.valueTy] := by
    unfold Member.valuesFor
    rw [kind]
  rw [ofReceiver_eq_ofPlaces, ofForm_listOver distinct proper concrete form,
    ofPlaces_eq_iff distinct, values, ← knownAt_values concrete]
  simp only [single, true_and, Nat.lt_one_iff, forall_eq]
  rfl

theorem ofReceiver_eq_ofForm_iff_of_hash_two (distinct : generics.Nodup)
    (proper : receiver.isPlaceholder = false) (concrete : ∀ t ∈ receiver.params, t.Concrete)
    (kind : receiver.kind = .hash) (two : generics.length = 2) :
    .ofReceiver generics receiver = ofForm generics receiver ↔
      knownAt [receiver.keyTy] 0 = knownAt receiver.keys 0 ∧
        knownAt [receiver.valueTy] 0 = knownAt receiver.subs 0 := by
  obtain ⟨key, value, rfl⟩ := List.length_eq_two.mp two
  have form : ofForm [key, value] receiver =
      .ofPlaces [key, value] [receiver.keys.headD .undefined, receiver.subs.headD .undefined] := by
    have hash : receiver.formOver [key, value] = receiver.hashOver key value := by
      unfold Member.formOver
      rw [kind]
    unfold ofForm
    rw [hash]
    exact Ty.snd_unify_hashOver distinct proper fun t param => (concrete t param).ground
  have values : receiver.valuesFor [key, value].length = [receiver.keyTy, receiver.valueTy] := by
    unfold Member.valuesFor
    rw [kind]
  rw [ofReceiver_eq_ofPlaces, form, ofPlaces_eq_iff distinct, values, ← knownAt_headD receiver.keys,
    ← knownAt_headD receiver.subs]
  constructor
  · exact fun same => ⟨same 0 Nat.zero_lt_two, same 1 Nat.one_lt_two⟩
  · rintro ⟨keys, subs⟩ place inside
    match place, inside with
    | 0, _ => exact keys
    | 1, _ => exact subs

/-- The generics of a receiver are bound to the same types by its parameters and by its form: always
for lists and tuples, for the two generics of a hash if the union of the keys is the first key and
that of the values the first value, for which it is enough that there are no others, and for a
single generic of a hash if keys and values have the same union. -/
theorem ofReceiver_eq_ofForm (distinct : generics.Nodup)
    (proper : receiver.isPlaceholder = false) (concrete : ∀ t ∈ receiver.params, t.Concrete) :
    (receiver.kind = .list ∨ receiver.kind = .fixed →
      .ofReceiver generics receiver = ofForm generics receiver) ∧
    (receiver.kind = .hash → generics.length = 2 →
      (.ofReceiver generics receiver = ofForm generics receiver ↔
        knownAt [receiver.keyTy] 0 = knownAt receiver.keys 0 ∧
          knownAt [receiver.valueTy] 0 = knownAt receiver.subs 0) ∧
      (receiver.keys.length ≤ 1 → receiver.subs.length ≤ 1 →
        .ofReceiver generics receiver = ofForm generics receiver)) ∧
    (receiver.kind = .hash → generics.length = 1 →
      (.ofReceiver generics receiver = ofForm generics receiver ↔
        knownAt [receiver.keyTy] 0 = knownAt [receiver.valueTy] 0)) := by
  refine ⟨ofReceiver_eq_ofForm_of_list distinct proper concrete, fun kind two => ?_,
    ofReceiver_eq_ofForm_iff_of_hash_one distinct proper concrete⟩
  have iff := ofReceiver_eq_ofForm_iff_of_hash_two distinct proper concrete kind two
  refine ⟨iff, fun fewKeys fewSubs => iff.mpr ⟨?_, ?_⟩⟩
  · exact knownAt_unionAll fewKeys fun t key => (concrete t (List.mem_append_left _ key)).normal
  · exact knownAt_unionAll fewSubs fun t sub => (concrete t (List.mem_append_right _ sub)).normal

end

end Bindings

/-! ### Some brackets -/

section

/-- Classes in brackets of some style. -/
def Member.bracketed (name : String) (kind : BracketStyle) (keys subs : List String) : Member :=
  .make name true kind (keys.map Ty.absolute) (subs.map Ty.absolute)

theorem Ty.concrete_absolute {name : String} (proper : name ≠ "generic") :
    (Ty.absolute name).Concrete where
  normal := Ty.normal_absolute name
  ground := Ty.isGeneric_single.mpr ⟨beq_false_of_ne proper,
    fun _ param => absurd param List.not_mem_nil⟩

theorem Member.concrete_bracketed (name : String) (kind : BracketStyle) {keys subs : List String}
    (proper : ∀ other ∈ keys ++ subs, other ≠ "generic") :
    ∀ t ∈ (Member.bracketed name kind keys subs).params, t.Concrete := by
  intro t param
  have listed : t ∈ (keys ++ subs).map Ty.absolute := by
    rw [List.map_append]
    exact param
  obtain ⟨other, member, rfl⟩ := List.mem_map.mp listed
  exact Ty.concrete_absolute (proper other member)

namespace Bindings

/-- Three generics over a tuple of two, and both generics over a hash. -/
theorem ofReceiver_eq_ofForm_pair_hash :
    .ofReceiver ["A", "B", "C"] (.bracketed "Array" .fixed [] ["Foo", "Bar"]) =
      ofForm ["A", "B", "C"] (.bracketed "Array" .fixed [] ["Foo", "Bar"]) ∧
    .ofReceiver ["K", "V"] (.bracketed "Hash" .hash ["Foo"] ["Bar"]) =
      ofForm ["K", "V"] (.bracketed "Hash" .hash ["Foo"] ["Bar"]) := by
  have pair := Member.concrete_bracketed "Array" .fixed (show ∀ other ∈ [] ++ ["Foo", "Bar"],
    other ≠ "generic" by decide)
  have hash := Member.concrete_bracketed "Hash" .hash (show ∀ other ∈ ["Foo"] ++ ["Bar"],
    other ≠ "generic" by decide)
  obtain ⟨lists, -⟩ := ofReceiver_eq_ofForm (show ["A", "B", "C"].Nodup by decide) rfl pair
  obtain ⟨-, hashes, -⟩ := ofReceiver_eq_ofForm (show ["K", "V"].Nodup by decide) rfl hash
  exact ⟨lists (.inr rfl), (hashes rfl rfl).2 (Nat.le_refl 1) (Nat.le_refl 1)⟩

/-- A hash with two keys binds the union of both, and its form the first one; a single generic is
bound to the keys of a hash, and by the list over it to the values; and the form of a placeholder is
a placeholder. -/
theorem ofReceiver_ne_ofForm :
    .ofReceiver ["K", "V"] (.bracketed "Hash" .hash ["Foo", "Bar"] ["Baz"]) ≠
      ofForm ["K", "V"] (.bracketed "Hash" .hash ["Foo", "Bar"] ["Baz"]) ∧
    .ofReceiver ["T"] (.bracketed "Hash" .hash ["Foo"] ["Bar"]) ≠
      ofForm ["T"] (.bracketed "Hash" .hash ["Foo"] ["Bar"]) ∧
    .ofReceiver ["T"] (.bracketed "generic" .list [] ["Foo"]) ≠
      ofForm ["T"] (.bracketed "generic" .list [] ["Foo"]) := by
  have differ : ∀ {b b' : Bindings} (name : String),
      (b.find? name).map Ty.tag ≠ (b'.find? name).map Ty.tag → b ≠ b' :=
    fun name differ same => differ (congrArg (fun b => (b.find? name).map Ty.tag) same)
  exact ⟨differ "K" (by decide +kernel), differ "T" (by decide +kernel),
    differ "T" (by decide +kernel)⟩

end Bindings

end

end DuckInfer
