import DuckInfer.Proofs.Signature.Completion

/-!
The parameters of a signature as a call sees them. Main statements: every argument of a call that
fits in number lands in a positional parameter; and completing the generics of a signature changes
neither which calls fit in number nor the places where arguments land, and the types of parameters
only where they are generic.
-/

namespace DuckInfer

/-- The second parameter is the first with another type, and if nothing is generic in the first, it
is the first. -/
structure Parameter.Refines (param refined : Parameter) : Prop where
  form : refined.form = param.form
  ty : param.ty.isGeneric = false → refined.ty = param.ty

theorem Parameter.Refines.trans {first second third : Parameter} (front : first.Refines second)
    (back : second.Refines third) : first.Refines third where
  form := back.form.trans front.form
  ty ground := by
    have same := front.ty ground
    rw [back.ty (same ▸ ground), same]

namespace Signature

/-! ### Places and positional parameters -/

theorem paramFor?_of_ne_rest {s : Signature} {index : Nat} {param : Parameter}
    (there : s.positional[index]? = some param) (single : param.form ≠ .rest) :
    s.paramFor? index = some param := by
  have kept : (some param).filter (·.form != .rest) = some param :=
    Option.filter_some_pos (bne_iff_ne.mpr single)
  rw [paramFor?, there, kept]

theorem paramFor?_of_rest {s : Signature} {index : Nat} {param : Parameter}
    (there : s.positional[index]? = some param) (rest : param.form = .rest) :
    s.paramFor? index = s.positional.find? (·.form == .rest) := by
  rw [paramFor?, there, Option.filter_some_neg (by simp [rest])]

theorem find?_rest_of_paramFor? {s : Signature} {index : Nat} {param : Parameter}
    (landed : s.paramFor? index = some param) (rest : param.form = .rest) :
    s.positional.find? (·.form == .rest) = some param := by
  unfold paramFor? at landed
  split at landed
  · rename_i found
    obtain ⟨-, single⟩ := Option.filter_eq_some_iff.mp found
    cases landed
    simp [rest] at single
  · exact landed

/-- Arguments land in positional parameters. -/
theorem mem_positional_of_paramFor? {s : Signature} {index : Nat} {param : Parameter}
    (landed : s.paramFor? index = some param) : param ∈ s.positional := by
  unfold paramFor? at landed
  split at landed
  · rename_i found
    obtain ⟨there, -⟩ := Option.filter_eq_some_iff.mp found
    cases landed
    exact List.mem_of_getElem? there
  · exact List.mem_of_find?_eq_some landed

theorem countP_forms_le (params : List Parameter) :
    params.countP (·.form == .required) + params.countP (·.form == .optional) ≤
      (params.filter Parameter.isPositional).length := by
  induction params with
  | nil => exact Nat.le_refl _
  | cons param params ih =>
    obtain ⟨name, form, ty⟩ := param
    cases form <;>
      simp only [List.countP_cons, List.filter_cons, Parameter.isPositional, List.length_cons,
        if_true, beq_iff_eq, reduceCtorEq, if_false, Bool.false_eq_true] <;>
      omega

/-- Each argument of a call that fits in number lands in a parameter. -/
theorem exists_paramFor? {s : Signature} {argc index : Nat} {withBlock : Bool}
    (accepted : s.accepts argc withBlock = true) (within : index < argc) :
    ∃ param, s.paramFor? index = some param := by
  have room : s.isVariadic = true ∨ argc ≤ s.minArgs + s.extraArgs := by
    unfold accepts at accepted
    split at accepted
    · simp at accepted
    · split at accepted
      · simp at accepted
      · simpa using accepted
  cases variadic : s.isVariadic with
  | true =>
    obtain ⟨param, member, rest⟩ := List.any_eq_true.mp variadic
    have positional : param ∈ s.positional := by
      refine List.mem_filter.mpr ⟨member, ?_⟩
      simp [Parameter.isPositional, beq_iff_eq.mp rest]
    have found : (s.positional.find? (·.form == .rest)).isSome = true :=
      List.find?_isSome.mpr ⟨param, positional, rest⟩
    unfold paramFor?
    split
    · exact ⟨_, rfl⟩
    · exact Option.isSome_iff_exists.mp found
  | false =>
    have bounded : argc ≤ s.minArgs + s.extraArgs := by simpa [variadic] using room
    have places : s.minArgs + s.extraArgs ≤ s.positional.length := countP_forms_le s.params
    have there := List.getElem?_eq_getElem (l := s.positional) (i := index) (by omega)
    refine ⟨_, paramFor?_of_ne_rest there fun rest => ?_⟩
    have member := List.mem_of_mem_filter (List.mem_of_getElem? there)
    have none := List.any_eq_false.mp variadic _ member
    simp [rest] at none

/-- Whether a call fits in number is seen from the forms of the parameters and from the block. -/
theorem accepts_congr {s s' : Signature}
    (forms : s'.params.map Parameter.form = s.params.map Parameter.form)
    (block : s'.takesBlock = s.takesBlock) (argc : Nat) (withBlock : Bool) :
    s'.accepts argc withBlock = s.accepts argc withBlock := by
  have count : ∀ form, s'.params.countP (·.form == form) = s.params.countP (·.form == form) := by
    intro form
    have counted := congrArg (List.countP (· == form)) forms
    rwa [List.countP_map, List.countP_map] at counted
  have required : s'.minArgs = s.minArgs := count .required
  have optional : s'.extraArgs = s.extraArgs := count .optional
  have variadic : s'.isVariadic = s.isVariadic := by
    have any := congrArg (List.any · (· == .rest)) forms
    rwa [List.any_map, List.any_map] at any
  rw [accepts, accepts, block, required, optional, variadic]

/-! ### Parameters of completed signatures -/

/-- What is at a place in one list is refined by what is there in the other. -/
theorem exists_refined_at {params refined : List Parameter} {index : Nat} {param : Parameter}
    (inStep : List.Forall₂ Parameter.Refines params refined) (there : params[index]? = some param) :
    ∃ param', refined[index]? = some param' ∧ param.Refines param' := by
  obtain ⟨within, same⟩ := List.getElem?_eq_some_iff.mp there
  have within' : index < refined.length := inStep.length_eq ▸ within
  refine ⟨refined[index], List.getElem?_eq_getElem within', ?_⟩
  have refines := inStep.get within within'
  simpa [same] using refines

/-- Parameters that are chosen by their forms are refined one by one. -/
theorem forall₂_filter_refines {params refined : List Parameter} {p : Parameter → Bool}
    (inStep : List.Forall₂ Parameter.Refines params refined)
    (formal : ∀ param param' : Parameter, param'.form = param.form → p param' = p param) :
    List.Forall₂ Parameter.Refines (params.filter p) (refined.filter p) :=
  List.rel_filter (fun param param' refines => Bool.coe_iff_coe.mpr
    (formal param param' refines.form).symm) inStep

theorem exists_refined_find? {params refined : List Parameter} {form : ParamForm}
    {param : Parameter} (inStep : List.Forall₂ Parameter.Refines params refined)
    (found : params.find? (·.form == form) = some param) :
    ∃ param', refined.find? (·.form == form) = some param' ∧ param.Refines param' := by
  rw [← List.head?_filter, List.head?_eq_getElem?] at found
  have chosen := forall₂_filter_refines (p := (·.form == form)) inStep fun _ _ same => by rw [same]
  obtain ⟨param', found', refines⟩ := exists_refined_at chosen found
  rw [← List.head?_eq_getElem?, List.head?_filter] at found'
  exact ⟨param', found', refines⟩

/-- Arguments land in parameters at the same places. -/
theorem exists_refined_paramFor? {s s' : Signature} {index : Nat} {param : Parameter}
    (inStep : List.Forall₂ Parameter.Refines s.params s'.params)
    (landed : s.paramFor? index = some param) :
    ∃ param', s'.paramFor? index = some param' ∧ param.Refines param' := by
  have places : List.Forall₂ Parameter.Refines s.positional s'.positional :=
    forall₂_filter_refines inStep fun _ _ same => by rw [Parameter.isPositional, same]; rfl
  cases there : s.positional[index]? with
  | none =>
    have there' : s'.positional[index]? = none := by
      rw [List.getElem?_eq_none_iff] at there ⊢
      rwa [← places.length_eq]
    rw [paramFor?, there] at landed
    rw [paramFor?, there']
    exact exists_refined_find? places landed
  | some placed =>
    obtain ⟨placed', there', refines⟩ := exists_refined_at places there
    by_cases rest : placed.form = .rest
    · rw [paramFor?_of_rest there rest] at landed
      rw [paramFor?_of_rest there' (refines.form.trans rest)]
      exact exists_refined_find? places landed
    · rw [paramFor?_of_ne_rest there rest] at landed
      cases landed
      exact ⟨placed', paramFor?_of_ne_rest there' (refines.form ▸ rest), refines⟩

theorem forall₂_mapTys {f : Ty → Ty} (ground : ∀ t : Ty, t.isGeneric = false → f t = t)
    (s : Signature) : List.Forall₂ Parameter.Refines s.params (s.mapTys f).params := by
  have params : (s.mapTys f).params = s.params.map (Parameter.mapTy f) := by
    induction s using induction <;> rfl
  rw [params, List.forall₂_map_right_iff, List.forall₂_same]
  exact fun param _ => ⟨rfl, ground param.ty⟩

theorem forall₂_unifyParams (generics : List String) (params : List Parameter) :
    ∀ (args : List Ty) (b : Bindings),
      List.Forall₂ Parameter.Refines params (unifyParams generics params args b).1 := by
  induction params with
  | nil => exact fun _ _ => .nil
  | cons param params ih =>
    intro args b
    rw [unifyParams]
    refine .cons ⟨rfl, fun ground => ?_⟩ (ih args.tail _)
    simp only [Ty.unify_ground generics args.head? b ground]

theorem forall₂_unify (s : Signature) (call : CallTypes) (b : Bindings) :
    List.Forall₂ Parameter.Refines s.params (s.unify call b).1.params := by
  obtain ⟨generics, params, returns, block⟩ := s
  cases block <;> exact forall₂_unifyParams generics params _ b

theorem forall₂_unifyPasses (s : Signature) (call : CallTypes) :
    ∀ (passes : Nat) (last : Signature × Bindings),
      List.Forall₂ Parameter.Refines s.params last.1.params →
        List.Forall₂ Parameter.Refines s.params (s.unifyPasses call passes last).1.params := by
  intro passes
  induction passes with
  | zero => exact fun _ refined => refined
  | succ passes ih =>
    intro last _
    have next := forall₂_unify s call last.2
    rw [unifyPasses_succ]
    split
    · exact next
    · exact ih _ next

theorem forall₂_refines_trans {first second third : List Parameter}
    (front : List.Forall₂ Parameter.Refines first second)
    (back : List.Forall₂ Parameter.Refines second third) :
    List.Forall₂ Parameter.Refines first third := by
  induction front generalizing third with
  | nil =>
    cases back
    exact .nil
  | cons refines _ ih =>
    cases back with
    | cons refines' back => exact .cons (refines.trans refines') (ih back)

/-- Completing the generics changes the types of parameters that are generic, and nothing else of
the parameters but what their types are. -/
theorem forall₂_resolve (s : Signature) (call : CallTypes) (b : Bindings) :
    List.Forall₂ Parameter.Refines s.params (s.resolve call b).1.params := by
  have passed := forall₂_unifyPasses s call (s.generics.length + 1) (s, b)
    (List.forall₂_same.mpr fun param _ => ⟨rfl, fun _ => rfl⟩)
  refine forall₂_refines_trans passed (forall₂_refines_trans
    (forall₂_mapTys (fun t ground => ?_) _) (forall₂_mapTys (fun t ground => ?_) _))
  · simp [Ty.substitute, ground]
  · simp [Ty.erasePlaceholders, ground]

theorem takesBlock_outline (s : Signature) : s.outline.takesBlock = s.takesBlock := by
  induction s using induction <;> rfl

theorem forms_eq_of_refines {params refined : List Parameter}
    (inStep : List.Forall₂ Parameter.Refines params refined) :
    refined.map Parameter.form = params.map Parameter.form := by
  induction inStep with
  | nil => rfl
  | cons refines _ ih => rw [List.map_cons, List.map_cons, refines.form, ih]

/-- Completing the generics changes nothing about which calls fit in number. -/
theorem accepts_resolve (s : Signature) (call : CallTypes) (b : Bindings) (argc : Nat)
    (withBlock : Bool) :
    (s.resolve call b).1.accepts argc withBlock = s.accepts argc withBlock := by
  refine accepts_congr (forms_eq_of_refines (forall₂_resolve s call b)) ?_ argc withBlock
  have outline : (s.resolve call b).1.outline = s.outline := by
    have passed := outline_unifyPasses s call (s.generics.length + 1) (s, b) rfl
    simp only [resolve, eraseGenerics, substitute, outline_mapTys]
    exact passed
  rw [← takesBlock_outline, outline, takesBlock_outline]

end Signature

end DuckInfer
