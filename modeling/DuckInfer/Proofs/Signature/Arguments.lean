import DuckInfer.Proofs.Signature.Parameters

/-!
The parameters that arguments are matched with. A call is checked by the parameters that its
arguments land in, and its generics are bound place by place along all parameters. Main statement: a
call that fits in number binds its generics as it is checked, whatever types are declared, if and
only if all parameters at the places of its arguments are positional ones, with at most one rest
parameter among them.
-/

namespace DuckInfer

/-! ### Matching with nothing -/

section

variable {generics : List String}

theorem Ty.unifyList_nil {ts : List Ty}
    (each : ∀ t ∈ ts, ∀ b : Bindings, (t.unify generics none b).2 = b) (b : Bindings) :
    (Ty.unifyList generics ts [] b).2 = b := by
  induction ts with
  | nil => rfl
  | cons t ts ih =>
    rw [Ty.unifyList]
    have first : (t.unify generics ([] : List Ty).head? b).2 = b := each t List.mem_cons_self b
    simp only [first, List.tail_nil]
    exact ih fun t member => each t (List.mem_cons_of_mem _ member)

theorem Member.unify_none {m : Member}
    (each : ∀ t ∈ m.params, ∀ b : Bindings, (t.unify generics none b).2 = b) (b : Bindings) :
    (m.unify generics none b).2 = b := by
  cases named : m.placeholderName? with
  | some name =>
    rw [Member.unify_placeholder generics none b named]
    split <;> rfl
  | none =>
    cases generic : m.params.any Ty.isGeneric with
    | false => rw [Member.unify_ground generics none b named generic]
    | true =>
      rw [Member.unify_params generics none b named generic]
      have keys := Ty.unifyList_nil (fun t key => each t (List.mem_append_left _ key)) b
      have subs := Ty.unifyList_nil (fun t sub => each t (List.mem_append_right _ sub)) b
      simp only [Unify.contexts, Option.map_none, Option.getD_none, keys, subs]

theorem Member.unifyList_none {ms : List Member}
    (each : ∀ m ∈ ms, ∀ b : Bindings, (m.unify generics none b).2 = b) (b : Bindings) :
    (Member.unifyList generics ms none b).2 = b := by
  induction ms with
  | nil => rfl
  | cons m ms ih =>
    rw [Member.unifyList]
    simp only [each m List.mem_cons_self b]
    exact ih fun m member => each m (List.mem_cons_of_mem _ member)

/-- A declared type that is matched with nothing binds nothing. -/
theorem Ty.unify_none (t : Ty) : ∀ b : Bindings, (t.unify generics none b).2 = b := by
  induction t using Ty.induction with
  | step t ih =>
    intro b
    cases generic : t.isGeneric with
    | false => rw [Ty.unify_ground generics none b generic]
    | true =>
      rw [Ty.unify_generic generics none b generic]
      exact Member.unifyList_none (fun m member => Member.unify_none (ih m member)) b

end

/-! ### Names that are bound -/

/-- The names that are bound. -/
def Bindings.names (b : Bindings) : List String :=
  b.entries.map Prod.fst

theorem Unify.mem_names_bind {name other : String} {t : Ty} {b : Bindings} :
    other ∈ (Unify.bind name (some t) b).names ↔
      other ∈ b.names ∨ (other = name ∧ t.isUndefined = false) := by
  simp only [Unify.bind]
  cases unknown : t.isUndefined with
  | true => simp
  | false =>
    cases bound : b.contains name with
    | true =>
      obtain ⟨u, found⟩ := Option.isSome_iff_exists.mp bound
      have member : name ∈ b.names :=
        List.mem_map_of_mem (f := Prod.fst) (Bindings.mem_of_find? found)
      simp only [Bool.or_true, if_true, and_true]
      exact ⟨Or.inl, fun found => found.elim id fun same => same ▸ member⟩
    | false =>
      have perm := (Bindings.insertSorted_perm t (Bindings.not_mem_of_contains bound)).map Prod.fst
      have refreshed : (b.insert name t).refresh.names = (b.insert name t).names := by
        simp [Bindings.names, Bindings.refresh, Bindings.mapTys]
      simp only [Bool.or_false, Bool.false_eq_true, if_false, refreshed, and_true]
      exact perm.mem_iff.trans (List.mem_cons.trans or_comm)

namespace Signature

/-! ### Arguments and their parameters -/

/-- A call that passes arguments of these types and wants nothing particular. -/
def CallTypes.ofArgs (args : List Ty) : CallTypes :=
  ⟨some args, none, none, none⟩

/-- Matches declared types with the types of arguments, one pair after the other. -/
def bindAll (generics : List String) (pairs : List (Parameter × Ty)) (b : Bindings) : Bindings :=
  pairs.foldl (fun b (param, arg) => (param.ty.unify generics (some arg) b).2) b

/-- The arguments of a call, each with the parameter that it lands in. -/
def landings (s : Signature) (args : List Ty) : List (Parameter × Ty) :=
  args.zipIdx.filterMap fun (arg, index) => (s.paramFor? index).map (·, arg)

theorem snd_unifyParams (generics : List String) (params : List Parameter) :
    ∀ (args : List Ty) (b : Bindings),
      (unifyParams generics params args b).2 = bindAll generics (params.zip args) b := by
  induction params with
  | nil => exact fun _ _ => rfl
  | cons param params ih =>
    intro args b
    rw [unifyParams]
    cases args with
    | cons arg args => exact ih args _
    | nil =>
      have nothing : (param.ty.unify generics ([] : List Ty).head? b).2 = b :=
        Ty.unify_none param.ty b
      simp only [nothing, List.tail_nil, ih, List.zip_nil_right]

/-- A callable that is called with nothing binds nothing. -/
theorem snd_unifyWith_forBlock (generics : List String) (s : Signature) :
    ∀ (call : CallTypes) (b : Bindings), call.args = none → call.returns = none →
      call.blockArgs = none → call.blockReturns = none → (s.unifyWith generics call b).2 = b := by
  induction s using induction with
  | plain own params returns =>
    intro call b args returns' _ _
    simp [unifyWith, snd_unifyParams, args, returns', bindAll, Ty.unify_none]
  | withBlock own params returns block ih =>
    intro call b args returns' blockArgs blockReturns
    have inner : (block.unifyWith generics call.forBlock b).2 = b :=
      ih call.forBlock b blockArgs blockReturns rfl rfl
    simp [unifyWith, snd_unifyParams, args, returns', bindAll, Ty.unify_none, inner]

/-- Arguments are matched place by place with all parameters. -/
theorem snd_unify_ofArgs (s : Signature) (args : List Ty) (b : Bindings) :
    (s.unify (.ofArgs args) b).2 = bindAll s.generics (s.params.zip args) b := by
  obtain ⟨generics, params, returns, block⟩ := s
  cases block with
  | none => simp [unify, unifyWith, snd_unifyParams, CallTypes.ofArgs, Ty.unify_none]
  | some block =>
    have inner : ∀ b : Bindings,
        (block.unifyWith generics (CallTypes.ofArgs args).forBlock b).2 = b :=
      fun b => snd_unifyWith_forBlock generics block _ b rfl rfl rfl rfl
    simp only [unify, unifyWith, inner, snd_unifyParams]
    simp [CallTypes.ofArgs, Ty.unify_none]

/-! ### Arguments that land in parameters -/

theorem mem_landings {s : Signature} {args : List Ty} {pair : Parameter × Ty} :
    pair ∈ s.landings args ↔
      ∃ index, s.paramFor? index = some pair.1 ∧ args[index]? = some pair.2 := by
  simp only [landings, List.mem_filterMap, Prod.exists, List.mem_zipIdx_iff_getElem?,
    Option.map_eq_some_iff]
  constructor
  · rintro ⟨arg, index, passed, param, landed, rfl⟩
    exact ⟨index, landed, passed⟩
  · rintro ⟨index, landed, passed⟩
    exact ⟨pair.2, index, passed, pair.1, landed, rfl⟩

/-! ### Signatures that are matched as they are checked -/

/-- All parameters at the places of so many arguments are positional ones, with at most one rest
parameter among them. -/
structure Aligned (s : Signature) (argc : Nat) : Prop where
  enough : argc ≤ s.params.length
  positional : ∀ param ∈ s.params.take argc, param.isPositional = true
  single : (s.params.take argc).Pairwise fun p q => p.form = .rest → q.form ≠ .rest

/-- Arguments of an aligned call land in the parameters at their places. -/
theorem Aligned.paramFor?_eq {s : Signature} {argc index : Nat} (aligned : s.Aligned argc)
    (within : index < argc) : s.paramFor? index = s.params[index]? := by
  obtain ⟨enough, positional, single⟩ := aligned
  have split : s.positional =
      s.params.take argc ++ (s.params.drop argc).filter Parameter.isPositional := by
    have front := List.filter_eq_self.mpr positional
    rw [Signature.positional]
    conv_lhs => rw [← List.take_append_drop argc s.params, List.filter_append, front]
  obtain ⟨param, place⟩ : ∃ param, s.params[index]? = some param :=
    ⟨_, List.getElem?_eq_getElem (by omega)⟩
  have front : index < (s.params.take argc).length := by
    rw [List.length_take]
    omega
  have inFront : (s.params.take argc)[index]? = some param := by
    rw [List.getElem?_take_of_lt within, place]
  have there : s.positional[index]? = some param := by
    rw [split, List.getElem?_append_left front, inFront]
  rw [place]
  by_cases rest : param.form = .rest
  · have here : (s.params.take argc)[index] = param :=
      (List.getElem?_eq_some_iff.mp inFront).2
    have first : (s.params.take argc).find? (·.form == .rest) = some param := by
      refine List.find?_eq_some_iff_getElem.mpr
        ⟨by simp [rest], index, front, here, fun j before => ?_⟩
      have apart := List.pairwise_iff_getElem.mp single j index (by omega) front before
      rw [here] at apart
      simpa using fun earlier => apart earlier rest
    rw [paramFor?_of_rest there rest, split, List.find?_append, first, Option.some_or]
  · exact paramFor?_of_ne_rest there rest

theorem filterMap_zipIdx_eq_zip {landing : Nat → Option Parameter} (args : List Ty) :
    ∀ (params : List Parameter) (offset : Nat), args.length ≤ params.length →
      (∀ index < args.length, landing (offset + index) = params[index]?) →
      (args.zipIdx offset).filterMap (fun (arg, index) => (landing index).map (·, arg)) =
        params.zip args := by
  induction args with
  | nil => simp
  | cons arg args ih =>
    intro params offset enough each
    obtain _ | ⟨param, params⟩ := params
    · simp at enough
    have first : landing offset = some param := each 0 (by simp)
    have later := ih params (offset + 1) (by simpa using enough) fun index within => by
      have same := each (index + 1) (by simpa using within)
      rwa [← Nat.add_assoc, Nat.add_right_comm] at same
    rw [List.zipIdx_cons, List.filterMap_cons]
    simp only [first, Option.map_some, later, List.zip_cons_cons]

theorem Aligned.landings_eq {s : Signature} {args : List Ty} (aligned : s.Aligned args.length) :
    s.landings args = s.params.zip args := by
  refine filterMap_zipIdx_eq_zip args s.params 0 aligned.enough fun index within => ?_
  rw [Nat.zero_add]
  exact aligned.paramFor?_eq within

/-- Alignment is seen from the forms of the parameters. -/
theorem Aligned.congr {s s' : Signature} {argc : Nat} (aligned : s.Aligned argc)
    (forms : s'.params.map Parameter.form = s.params.map Parameter.form) : s'.Aligned argc := by
  obtain ⟨enough, positional, single⟩ := aligned
  have front : (s'.params.take argc).map Parameter.form =
      (s.params.take argc).map Parameter.form := by
    rw [List.map_take, List.map_take, forms]
  have size := congrArg List.length forms
  rw [List.length_map, List.length_map] at size
  refine ⟨by omega, fun param member => ?_, ?_⟩
  · have form := List.mem_map_of_mem (f := Parameter.form) member
    rw [front] at form
    obtain ⟨other, member, same⟩ := List.mem_map.mp form
    have known := positional other member
    rwa [Parameter.isPositional, same] at known
  · have alone : ((s.params.take argc).map Parameter.form).Pairwise
        (fun a b => a = .rest → b ≠ .rest) := List.pairwise_map.mpr single
    rw [← front] at alone
    exact List.pairwise_map.mp alone

/-! ### Finding out where arguments land

With a generic of its own for each parameter, and one known argument, the bindings show which
parameter the argument was matched with.
-/

/-- A name for each place. -/
def placeName (index : Nat) : String :=
  .ofList (List.replicate index 'T')

theorem placeName_inj {i j : Nat} (same : placeName i = placeName j) : i = j := by
  have lists := congrArg String.toList same
  simpa [placeName] using congrArg List.length lists

/-- A parameter of the type that is named for a place. -/
def placed (index : Nat) (param : Parameter) : Parameter :=
  { param with ty := .single (.generic (placeName index)) }

theorem placed_inj {i j : Nat} {param param' : Parameter}
    (same : placed i param = placed j param') : i = j := by
  have generics := congrArg (fun p : Parameter => p.ty.first.placeholderName?) same
  exact placeName_inj (Option.some.inj generics)

/-- The signature with a generic of its own for each parameter. -/
def probing (s : Signature) : Signature where
  generics := (List.range s.params.length).map placeName
  params := s.params.mapIdx placed
  returns := .undefined
  block := s.block

/-- So many arguments of which only the one at a place is known. -/
def knownAt (argc index : Nat) : List Ty :=
  (List.range argc).map fun i => if i = index then .single (.named "String") else .undefined

theorem forms_probing (s : Signature) :
    s.probing.params.map Parameter.form = s.params.map Parameter.form := by
  refine List.ext_getElem? fun index => ?_
  simp only [probing, List.getElem?_map, List.getElem?_mapIdx, Option.map_map]
  rfl

theorem getElem?_knownAt {argc index i : Nat} {arg : Ty}
    (there : (knownAt argc index)[i]? = some arg) (known : arg.isUndefined = false) :
    i = index := by
  by_contra other
  obtain ⟨within, rfl⟩ := List.getElem?_eq_some_iff.mp there
  simp [knownAt, other] at known
  exact absurd known (by decide)

/-- A parameter of a generic of its own binds it to an argument that is known. -/
theorem mem_names_unify {generics : List String} {name other : String} (listed : name ∈ generics)
    (arg : Ty) (b : Bindings) :
    other ∈ ((Ty.single (.generic name)).unify generics (some arg) b).2.names ↔
      other ∈ b.names ∨ (other = name ∧ arg.isUndefined = false) := by
  have contained : generics.contains name = true := List.contains_iff_mem.mpr listed
  have named : (Member.generic name).placeholderName? = some name := rfl
  have bound : ((Ty.single (.generic name)).unify generics (some arg) b).2 =
      Unify.bind name (some arg) b := by
    rw [Ty.unify_generic generics (some arg) b rfl]
    simp only [Ty.members, Ty.single, Member.unifyList,
      Member.unify_placeholder generics (some arg) b named, contained, if_true]
  rw [bound, Unify.mem_names_bind]

/-- Parameters of own generics bind those of the known arguments. -/
theorem mem_names_bindAll {generics : List String} {pairs : List (Parameter × Ty)} {name : String} :
    (∀ pair ∈ pairs, ∃ own ∈ generics, pair.1.ty = .single (.generic own)) →
    ∀ b : Bindings, (name ∈ (bindAll generics pairs b).names ↔ name ∈ b.names ∨
      ∃ pair ∈ pairs, pair.1.ty = .single (.generic name) ∧ pair.2.isUndefined = false) := by
  induction pairs with
  | nil => simp [bindAll]
  | cons pair pairs ih =>
    intro each b
    obtain ⟨own, listed, ty⟩ := each pair List.mem_cons_self
    have later := ih (fun pair member => each pair (List.mem_cons_of_mem _ member))
      (pair.1.ty.unify generics (some pair.2) b).2
    have same : Ty.single (.generic own) = .single (.generic name) ↔ name = own := by
      refine ⟨fun same => ?_, fun same => by rw [same]⟩
      exact Option.some.inj (congrArg (fun t : Ty => t.first.placeholderName?) same).symm
    refine later.trans ?_
    rw [ty, mem_names_unify listed, List.exists_mem_cons_iff, ty, same, or_assoc]

theorem exists_placed {s : Signature} {index : Nat} {param : Parameter}
    (there : s.probing.params[index]? = some param) :
    index < s.params.length ∧ ∃ declared, param = placed index declared := by
  obtain ⟨within, rfl⟩ := List.getElem?_eq_some_iff.mp there
  refine ⟨by simpa [probing] using within, ?_⟩
  simp only [probing, List.getElem_mapIdx]
  exact ⟨_, rfl⟩

theorem exists_own {s : Signature} {param : Parameter} (member : param ∈ s.probing.params) :
    ∃ own ∈ s.probing.generics, param.ty = .single (.generic own) := by
  obtain ⟨index, there⟩ := List.mem_iff_getElem?.mp member
  obtain ⟨within, declared, rfl⟩ := exists_placed there
  exact ⟨placeName index, List.mem_map_of_mem (List.mem_range.mpr within), rfl⟩

/-- Bindings that go by the parameters that arguments land in show that each argument lands in the
parameter at its place. -/
theorem paramFor?_probing {s : Signature} {argc index : Nat} {withBlock : Bool}
    (accepted : s.accepts argc withBlock = true)
    (agree : ∀ args : List Ty, args.length = argc → (s.probing.unify (.ofArgs args) ∅).2 =
      bindAll s.probing.generics (s.probing.landings args) ∅)
    (within : index < argc) :
    ∃ param, s.probing.paramFor? index = some param ∧ s.probing.params[index]? = some param := by
  have accepted' : s.probing.accepts argc withBlock = true :=
    (accepts_congr (forms_probing s) rfl argc withBlock).trans accepted
  obtain ⟨param, landed⟩ := exists_paramFor? accepted' within
  have member : param ∈ s.probing.params :=
    List.mem_of_mem_filter (mem_positional_of_paramFor? landed)
  obtain ⟨j, there⟩ := List.mem_iff_getElem?.mp member
  obtain ⟨-, declared, rfl⟩ := exists_placed there
  let args := knownAt argc index
  have size : args.length = argc := by simp [args, knownAt]
  have arg : args[index]? = some (.single (.named "String")) := by
    simp [args, knownAt, within]
  -- the known argument binds the name of the parameter that it lands in
  have landing : placeName j ∈
      (bindAll s.probing.generics (s.probing.landings args) ∅).names := by
    refine (mem_names_bindAll (fun pair listed => ?_) ∅).mpr
      (Or.inr ⟨(placed j declared, _), mem_landings.mpr ⟨index, landed, arg⟩, rfl, rfl⟩)
    obtain ⟨i, landed, -⟩ := mem_landings.mp listed
    exact exists_own (List.mem_of_mem_filter (mem_positional_of_paramFor? landed))
  -- and it binds the name of the parameter at its place
  rw [← agree args size, snd_unify_ofArgs] at landing
  have placewise := (mem_names_bindAll (fun pair listed =>
    exists_own (List.of_mem_zip listed).1) ∅).mp landing
  obtain none | ⟨⟨param, arg⟩, listed, ty, known⟩ := placewise
  · exact absurd none List.not_mem_nil
  · obtain ⟨i, paired⟩ := List.mem_iff_getElem?.mp listed
    obtain ⟨here, passed⟩ := List.getElem?_zip_eq_some.mp paired
    obtain rfl : i = index := getElem?_knownAt passed known
    obtain ⟨-, other, rfl⟩ := exists_placed here
    have same : i = j := placeName_inj
      (Option.some.inj (congrArg (fun t : Ty => t.first.placeholderName?) ty))
    subst same
    exact ⟨_, landed, there⟩

/-- A signature in which arguments land in the parameters at their places is aligned. -/
theorem aligned_of_paramFor? {s : Signature} {argc : Nat}
    (distinct : ∀ (i j : Nat) (param : Parameter), s.params[i]? = some param →
      s.params[j]? = some param → i = j)
    (lands : ∀ index < argc, ∃ param,
      s.paramFor? index = some param ∧ s.params[index]? = some param) : s.Aligned argc := by
  refine ⟨?_, fun param member => ?_, ?_⟩
  · by_contra short
    obtain ⟨param, -, there⟩ := lands s.params.length (by omega)
    simp at there
  · obtain ⟨index, there⟩ := List.mem_iff_getElem?.mp member
    rw [List.getElem?_take] at there
    obtain ⟨within, same⟩ := Option.ite_none_right_eq_some.mp there
    obtain ⟨param', landed, there'⟩ := lands index within
    obtain rfl : param = param' := Option.some.inj (same.symm.trans there')
    exact (List.mem_filter.mp (mem_positional_of_paramFor? landed)).2
  · refine List.pairwise_iff_getElem.mpr fun i j inside inside' before rest rest' => ?_
    rw [List.length_take] at inside inside'
    obtain ⟨param, landed, there⟩ := lands i (by omega)
    obtain ⟨param', landed', there'⟩ := lands j (by omega)
    have first : s.positional.find? (·.form == .rest) = some param := by
      refine find?_rest_of_paramFor? landed ?_
      simpa [List.getElem?_eq_some_iff.mp there |>.2] using rest
    have second : s.positional.find? (·.form == .rest) = some param' := by
      refine find?_rest_of_paramFor? landed' ?_
      simpa [List.getElem?_eq_some_iff.mp there' |>.2] using rest'
    obtain rfl : param = param' := Option.some.inj (first.symm.trans second)
    exact absurd (distinct i j param there there') (by omega)

/-- Arguments bind generics place by place along all parameters. For a call that fits in number this
is the same as matching each argument with the parameter that it lands in, whatever types the
parameters have, if and only if the signature is aligned. -/
theorem snd_unify_eq_landings_iff {s : Signature} {argc : Nat} {withBlock : Bool}
    (accepted : s.accepts argc withBlock = true) :
    (∀ (args : List Ty) (b : Bindings),
      (s.unify (.ofArgs args) b).2 = bindAll s.generics (s.params.zip args) b) ∧
    ((∀ s' : Signature, s'.params.map Parameter.form = s.params.map Parameter.form →
        ∀ args : List Ty, args.length = argc → ∀ b : Bindings,
          (s'.unify (.ofArgs args) b).2 = bindAll s'.generics (s'.landings args) b) ↔
      s.Aligned argc) := by
  refine ⟨snd_unify_ofArgs s, fun agree => ?_, fun aligned s' forms args size b => ?_⟩
  · have lands : ∀ index < argc, ∃ param, s.probing.paramFor? index = some param ∧
        s.probing.params[index]? = some param :=
      fun index within => paramFor?_probing accepted
        (fun args size => agree s.probing (forms_probing s) args size ∅) within
    have distinct : ∀ (i j : Nat) (param : Parameter), s.probing.params[i]? = some param →
        s.probing.params[j]? = some param → i = j := by
      intro i j param there there'
      obtain ⟨-, declared, rfl⟩ := exists_placed there
      obtain ⟨-, declared', same⟩ := exists_placed there'
      exact placed_inj same
    exact (aligned_of_paramFor? distinct lands).congr (forms_probing s).symm
  · subst size
    rw [snd_unify_ofArgs, (aligned.congr forms).landings_eq]

section Splats

/-- `[T, U] (generic<T> first, *generic<U> others) -> generic<U>` -/
def splat : Signature where
  generics := ["T", "U"]
  params := [⟨"first", .required, .single (.generic "T")⟩,
    ⟨"others", .rest, .single (.generic "U")⟩]
  returns := .single (.generic "U")
  block := none

/-- Two arguments are matched with the parameters that they land in. -/
theorem snd_unify_eq_landings_splat : splat.accepts 2 false = true ∧
    ∀ args : List Ty, args.length = 2 → ∀ b : Bindings,
      (splat.unify (.ofArgs args) b).2 = bindAll splat.generics (splat.landings args) b :=
  have accepted : splat.accepts 2 false = true := by decide
  have aligned : splat.Aligned 2 := ⟨by decide, by decide, by decide⟩
  ⟨accepted, (snd_unify_eq_landings_iff accepted).2.mpr aligned splat rfl⟩

/-- `[T, U] (*generic<T> items, ?key: generic<U>) -> generic<U>` -/
def splatWithKey : Signature where
  generics := ["T", "U"]
  params := [⟨"items", .rest, .single (.generic "T")⟩,
    ⟨"key", .keyOptional, .single (.generic "U")⟩]
  returns := .single (.generic "U")
  block := none

/-- A second argument lands in the rest parameter, and binds the generic of the keyword. -/
theorem snd_unify_ne_landings_splatWithKey : ¬ ∀ (s : Signature) (args : List Ty) (withBlock : Bool)
    (b : Bindings), s.accepts args.length withBlock = true →
      (s.unify (.ofArgs args) b).2 = bindAll s.generics (s.landings args) b := by
  intro claimed
  let args : List Ty := [.single (.named "String"), .single (.named "Integer")]
  have same := claimed splatWithKey args false ∅ (by decide)
  have bound : "U" ∈ (splatWithKey.unify (.ofArgs args) ∅).2.names := by decide +kernel
  have open' : "U" ∉ (bindAll splatWithKey.generics (splatWithKey.landings args) ∅).names := by
    decide +kernel
  exact open' (same ▸ bound)

end Splats

end Signature

end DuckInfer
