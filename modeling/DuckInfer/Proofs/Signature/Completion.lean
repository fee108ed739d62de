import DuckInfer.Proofs.Ty.Matching
import DuckInfer.Signature

/-!
Completing the generics of a signature. Main statements: the passes of matching come to bindings
that one more pass keeps, and the result is the signature with those bindings put in; whatever is
known about a call, no placeholder is left and only types change.
-/

namespace DuckInfer.Signature

/-- Induction on a signature, through its block. -/
theorem induction {p : Signature → Prop}
    (plain : ∀ generics params returns, p ⟨generics, params, returns, none⟩)
    (withBlock : ∀ generics params returns block, p block →
      p ⟨generics, params, returns, some block⟩) : ∀ s, p s
  | ⟨generics, params, returns, none⟩ => plain generics params returns
  | ⟨generics, params, returns, some block⟩ =>
    withBlock generics params returns block (induction plain withBlock block)

/-- All types of the signature and of its block satisfy `p`. -/
def Every (p : Ty → Prop) : Signature → Prop
  | ⟨_, params, returns, block⟩ =>
    (∀ param ∈ params, p param.ty) ∧ p returns ∧
      match block with
      | none => True
      | some block => block.Every p
termination_by structural s => s

theorem Every.imp {p q : Ty → Prop} (weaker : ∀ t, p t → q t) {s : Signature} (every : s.Every p) :
    s.Every q := by
  induction s using induction with
  | plain generics params returns =>
    exact ⟨fun param member => weaker _ (every.1 param member), weaker _ every.2.1, trivial⟩
  | withBlock generics params returns block ih =>
    exact ⟨fun param member => weaker _ (every.1 param member), weaker _ every.2.1, ih every.2.2⟩

/-! ### Changing types -/

theorem mapTys_mapTys (f g : Ty → Ty) (s : Signature) :
    (s.mapTys f).mapTys g = s.mapTys fun t => g (f t) := by
  induction s using induction with
  | plain generics params returns => simp [mapTys, Parameter.mapTy]
  | withBlock generics params returns block ih => simp [mapTys, Parameter.mapTy, ih]

theorem mapTys_congr {f g : Ty → Ty} {s : Signature} (same : s.Every fun t => f t = g t) :
    s.mapTys f = s.mapTys g := by
  induction s using induction with
  | plain generics params returns =>
    have params : params.map (Parameter.mapTy f) = params.map (Parameter.mapTy g) :=
      List.map_congr_left fun param member => by simp [Parameter.mapTy, same.1 param member]
    simp only [mapTys, params, same.2.1]
  | withBlock generics params returns block ih =>
    have params : params.map (Parameter.mapTy f) = params.map (Parameter.mapTy g) :=
      List.map_congr_left fun param member => by simp [Parameter.mapTy, same.1 param member]
    simp only [mapTys, params, same.2.1, ih same.2.2]

@[simp] theorem returns_mapTys (f : Ty → Ty) (s : Signature) :
    (s.mapTys f).returns = f s.returns := by
  induction s using induction <;> simp only [mapTys]

/-- No placeholder is left if none is left in any type. -/
theorem isGeneric_mapTys {f : Ty → Ty} (ground : ∀ t, (f t).isGeneric = false) (s : Signature) :
    (s.mapTys f).isGeneric = false := by
  induction s using induction with
  | plain generics params returns => simp [mapTys, isGeneric, Parameter.mapTy, ground]
  | withBlock generics params returns block ih =>
    simp [mapTys, isGeneric, Parameter.mapTy, ground, ih]

/-- What a signature keeps when its types change: generics, names and forms of parameters. -/
def outline (s : Signature) : Signature :=
  s.mapTys fun _ => .undefined

theorem outline_mapTys (f : Ty → Ty) (s : Signature) : (s.mapTys f).outline = s.outline :=
  mapTys_mapTys f _ s

/-! ### One pass -/

/-- The types that are known about a call. -/
def CallTypes.tys (call : CallTypes) : List Ty :=
  call.args.getD [] ++ call.returns.toList ++ call.blockArgs.getD [] ++ call.blockReturns.toList

theorem CallTypes.tys_forBlock {call : CallTypes} {t : Ty} (known : t ∈ call.forBlock.tys) :
    t ∈ call.tys := by
  simp only [tys, forBlock, Option.getD_none, Option.toList_none, List.append_nil,
    List.mem_append] at known ⊢
  rcases known with arg | returns
  · exact Or.inl (Or.inr arg)
  · exact Or.inr returns

theorem CallTypes.concrete_parts (call : CallTypes) (concrete : ∀ t ∈ call.tys, t.Concrete) :
    (∀ t ∈ call.args.getD [], t.Concrete) ∧ (∀ t ∈ call.returns, t.Concrete) ∧
      ∀ t ∈ call.forBlock.tys, t.Concrete := by
  refine ⟨fun t arg => ?_, fun t wanted => ?_, fun t known => ?_⟩
  · exact concrete t (List.mem_append_left _ (List.mem_append_left _ (List.mem_append_left _ arg)))
  · refine concrete t (List.mem_append_left _ (List.mem_append_left _ (List.mem_append_right _ ?_)))
    exact Option.mem_toList.mpr wanted
  · exact concrete t (CallTypes.tys_forBlock known)

variable {generics : List String} {b : Bindings}

open Bindings

theorem outline_unifyParams (generics : List String) (params : List Parameter) :
    ∀ (args : List Ty) (b : Bindings),
      (unifyParams generics params args b).1.map (Parameter.mapTy fun _ => .undefined) =
        params.map (Parameter.mapTy fun _ => .undefined) := by
  induction params with
  | nil => exact fun _ _ => rfl
  | cons param params ih =>
    intro args b
    rw [unifyParams]
    simp only [List.map_cons, ih, Parameter.mapTy]

/-- Matching changes types only. -/
theorem outline_unifyWith (generics : List String) (s : Signature) :
    ∀ (call : CallTypes) (b : Bindings), (s.unifyWith generics call b).1.outline = s.outline := by
  induction s using induction with
  | plain own params returns =>
    intro call b
    simp only [unifyWith, outline, mapTys, outline_unifyParams]
  | withBlock own params returns block ih =>
    intro call b
    have inner := fun call b => ih call b
    simp only [outline] at inner
    simp only [unifyWith, outline, mapTys, outline_unifyParams, inner]

theorem unifyParams_grows (params : List Parameter) : ∀ args : List Ty,
    (∀ t ∈ args, t.Concrete) → ∀ b : Bindings, b.Settled generics →
      b.Grows generics (unifyParams generics params args b).2 := by
  induction params with
  | nil => exact fun _ _ b settled => .refl settled
  | cons param params ih =>
    intro args concrete b settled
    have first := Ty.unify_grows param.ty args.head?
      (fun t here => concrete t (List.mem_of_mem_head? here)) b settled
    have later := ih args.tail (fun t member => concrete t (List.mem_of_mem_tail member)) _
      first.settled
    rw [unifyParams]
    exact first.trans later

theorem unifyParams_unchanged {params : List Parameter}
    (normal : ∀ param ∈ params, param.ty.Normal)
    (proper : ∀ param ∈ params, param.ty.hasNamelessPlaceholder = false)
    (settled : b.Settled generics) : ∀ args : List Ty, (∀ t ∈ args, t.Concrete) →
      (unifyParams generics params args b).2 = b →
      (unifyParams generics params args b).1 =
        params.map (Parameter.mapTy (Ty.rebuild b.replacement)) := by
  induction params with
  | nil => exact fun _ _ _ => rfl
  | cons param params ih =>
    intro args concrete same
    have head : ∀ t ∈ args.head?, t.Concrete :=
      fun t here => concrete t (List.mem_of_mem_head? here)
    have tail : ∀ t ∈ args.tail, t.Concrete :=
      fun t member => concrete t (List.mem_of_mem_tail member)
    rw [unifyParams] at same ⊢
    have first := Ty.unify_grows param.ty args.head? head b settled
    have rest := unifyParams_grows params args.tail tail _ first.settled
    simp only at same ⊢
    rw [same] at rest
    have stays : (param.ty.unify generics args.head? b).2 = b := first.antisymm rest
    rw [stays] at same ⊢
    rw [Ty.unify_unchanged (normal param List.mem_cons_self) (proper param List.mem_cons_self)
        settled args.head? head stays,
      ih (fun param member => normal param (List.mem_cons_of_mem _ member))
        (fun param member => proper param (List.mem_cons_of_mem _ member)) args.tail tail same]
    rfl

theorem unifyWith_grows (s : Signature) : ∀ call : CallTypes, (∀ t ∈ call.tys, t.Concrete) →
    ∀ b : Bindings, b.Settled generics → b.Grows generics (s.unifyWith generics call b).2 := by
  induction s using induction with
  | plain own params returns =>
    intro call concrete b settled
    obtain ⟨args, wanted, -⟩ := call.concrete_parts concrete
    have first := unifyParams_grows params _ args b settled
    have second := Ty.unify_grows returns _ wanted _ first.settled
    simp only [unifyWith]
    exact first.trans second
  | withBlock own params returns block ih =>
    intro call concrete b settled
    obtain ⟨args, wanted, inner⟩ := call.concrete_parts concrete
    have first := unifyParams_grows params _ args b settled
    have second := Ty.unify_grows returns _ wanted _ first.settled
    have third := ih call.forBlock inner _ second.settled
    simp only [unifyWith]
    exact (first.trans second).trans third

/-- The signatures that constructors make, with every placeholder named. -/
structure WellFormed (s : Signature) : Prop where
  normal : s.Every Ty.Normal
  named : s.Every fun t => t.hasNamelessPlaceholder = false

/-- A pass that adds no binding puts the bindings in. -/
theorem unifyWith_unchanged {s : Signature} (wellFormed : s.WellFormed)
    (settled : b.Settled generics) : ∀ call : CallTypes, (∀ t ∈ call.tys, t.Concrete) →
      (s.unifyWith generics call b).2 = b →
      (s.unifyWith generics call b).1 = s.mapTys (Ty.rebuild b.replacement) := by
  obtain ⟨normal, named⟩ := wellFormed
  induction s using induction with
  | plain own params returns =>
    intro call concrete same
    obtain ⟨args, wanted, -⟩ := call.concrete_parts concrete
    have first := unifyParams_grows params _ args b settled
    have second := Ty.unify_grows returns _ wanted _ first.settled
    simp only [unifyWith] at same ⊢
    rw [same] at second
    have unchanged := first.antisymm second
    rw [unchanged] at same ⊢
    simp only [mapTys]
    rw [unifyParams_unchanged normal.1 named.1 settled _ args unchanged,
      Ty.unify_unchanged normal.2.1 named.2.1 settled _ wanted same]
  | withBlock own params returns block ih =>
    intro call concrete same
    obtain ⟨args, wanted, inner⟩ := call.concrete_parts concrete
    have first := unifyParams_grows params _ args b settled
    have second := Ty.unify_grows returns _ wanted _ first.settled
    have third := unifyWith_grows block call.forBlock inner _ second.settled
    simp only [unifyWith] at same ⊢
    rw [same] at third
    have unchanged := first.antisymm (second.trans third)
    rw [unchanged] at second third same ⊢
    have unchanged' := second.antisymm third
    rw [unchanged'] at same ⊢
    simp only [mapTys]
    rw [unifyParams_unchanged normal.1 named.1 settled _ args unchanged,
      Ty.unify_unchanged normal.2.1 named.2.1 settled _ wanted unchanged',
      ih normal.2.2 named.2.2 call.forBlock inner same]

/-! ### Passes -/

theorem beq_refl_of_bindings (b : Bindings) : (b == b) = true := by
  have same : ∀ entries : List (String × Ty), (entries == entries) = true := by
    intro entries
    induction entries with
    | nil => rfl
    | cons entry entries ih =>
      have first : (entry == entry) = true := by
        show (entry.1 == entry.1 && entry.2.tag == entry.2.tag) = true
        simp
      show (entry == entry && entries == entries) = true
      rw [first, ih]
      rfl
  exact same b.entries

theorem unifyPasses_succ (s : Signature) (call : CallTypes) (passes : Nat)
    (last : Signature × Bindings) :
    s.unifyPasses call (passes + 1) last =
      if (s.unify call last.2).2 == last.2 then s.unify call last.2
      else s.unifyPasses call passes (s.unify call last.2) :=
  rfl

/-- With room for every generic, passes end with one that adds no binding. -/
theorem unifyPasses_settles {s : Signature} {call : CallTypes}
    (concrete : ∀ t ∈ call.tys, t.Concrete) : ∀ (passes : Nat) (last : Signature) (b : Bindings),
      b.Settled s.generics → s.generics.length < passes + b.entries.length →
      ∃ final : Bindings, final.Settled s.generics ∧
        s.unifyPasses call passes (last, b) = s.unify call final ∧
        (s.unify call final).2 = final := by
  intro passes
  induction passes with
  | zero =>
    intro last b settled room
    have bounded := settled.length_le
    omega
  | succ passes ih =>
    intro last b settled room
    have grows : b.Grows s.generics (s.unify call b).2 := unifyWith_grows s call concrete b settled
    rw [unifyPasses_succ]
    -- a pass that is not the last one binds a generic, and no generic is bound twice
    by_cases same : ((s.unify call b).2 == b) = true
    · have length : (s.unify call b).2.entries.length = b.entries.length :=
        List.length_eq_of_beq same
      have fixed : (s.unify call b).2 = b := grows.eq_of_length (Nat.le_of_eq length)
      exact ⟨b, settled, if_pos same, fixed⟩
    · have longer : b.entries.length < (s.unify call b).2.entries.length := by
        by_contra short
        have fixed := grows.eq_of_length (Nat.le_of_not_lt short)
        rw [fixed] at same
        exact same (beq_refl_of_bindings b)
      obtain ⟨final, settled, result, fixed⟩ := ih (s.unify call b).1 (s.unify call b).2
        grows.settled (by omega)
      exact ⟨final, settled, (if_neg same).trans result, fixed⟩

theorem outline_unifyPasses (s : Signature) (call : CallTypes) :
    ∀ (passes : Nat) (last : Signature × Bindings), last.1.outline = s.outline →
      (s.unifyPasses call passes last).1.outline = s.outline := by
  intro passes
  induction passes with
  | zero => exact fun _ known => known
  | succ passes ih =>
    intro last _
    have next : (s.unify call last.2).1.outline = s.outline := outline_unifyWith _ s call last.2
    rw [unifyPasses_succ]
    split
    · exact next
    · exact ih _ next

theorem WellFormed.substitute_eq {s : Signature} (wellFormed : s.WellFormed) (b : Bindings) :
    s.substitute b = s.mapTys (Ty.rebuild b.replacement) :=
  mapTys_congr (wellFormed.normal.imp fun _ normal => normal.substitute_eq b)

/-- Bindings are put in at once: putting them in again changes nothing. -/
theorem WellFormed.substitute_substitute {s : Signature} (wellFormed : s.WellFormed)
    (settled : b.Settled generics) : (s.substitute b).substitute b = s.substitute b := by
  rw [wellFormed.substitute_eq b, substitute, mapTys_mapTys]
  have same : ∀ t : Ty, (t.rebuild b.replacement).substitute b = t.rebuild b.replacement :=
    fun t => (Ty.kept_rebuild settled t).substitute_eq
  simp only [same]

/-- Without placeholders in what is known, the final bindings stay the same in one more pass, and
the result is what they make of the signature. Whatever is known, no placeholder is left in the
result, and it differs from the signature in its types only. -/
theorem resolve_complete (s : Signature) (call : CallTypes) :
    (s.WellFormed → (∀ t ∈ call.tys, t.Concrete) →
      (s.unify call (s.resolve call ∅).2).2 = (s.resolve call ∅).2 ∧
        (s.resolve call ∅).1 = (s.substitute (s.resolve call ∅).2).eraseGenerics) ∧
      ∀ b, (s.resolve call b).1.isGeneric = false ∧ (s.resolve call b).1.outline = s.outline := by
  refine ⟨fun wellFormed concrete => ?_, fun b => ⟨?_, ?_⟩⟩
  · obtain ⟨final, settled, passes, fixed⟩ := unifyPasses_settles concrete
      (s.generics.length + 1) s ∅ (settled_empty s.generics) (by omega)
    have result : s.resolve call ∅ =
        (((s.unify call final).1.substitute final).eraseGenerics, final) := by
      simp only [resolve, passes]
      rw [fixed]
    have unified : (s.unify call final).1 = s.substitute final :=
      (unifyWith_unchanged wellFormed settled call concrete fixed).trans
        (wellFormed.substitute_eq final).symm
    rw [result]
    refine ⟨fixed, ?_⟩
    rw [unified, wellFormed.substitute_substitute settled]
  · exact isGeneric_mapTys Ty.isGeneric_erasePlaceholders _
  · have passes := outline_unifyPasses s call (s.generics.length + 1) (s, b) rfl
    simp only [resolve, eraseGenerics, substitute, outline_mapTys]
    exact passes

/-- `[U] () { (Integer) -> U } -> Array<U>` -/
def mapping : Signature where
  generics := ["U"]
  params := []
  returns := .single (.make "Array" false .list [] [.single (.generic "U")])
  block := some ⟨[], [⟨"item", .required, .single (.named "Integer")⟩],
    .single (.generic "U"), none⟩

/-- A call whose block returns a string. -/
def mappingCall : CallTypes where
  args := none
  returns := none
  blockArgs := none
  blockReturns := some (.single (.named "String"))

theorem mapping_wellFormed : mapping.WellFormed := by
  refine ⟨⟨by simp, ?_, ?_, Ty.normal_generic "U", trivial⟩, ?_⟩
  · refine Ty.normal_single (Member.fits_make _ _ _ _ _) fun t param => ?_
    rw [List.mem_singleton.mp param]
    exact Ty.normal_generic "U"
  · intro param member
    rw [List.mem_singleton.mp member]
    exact Ty.normal_named "Integer"
  · refine ⟨by simp, by decide, ?_, by decide, trivial⟩
    intro param member
    rw [List.mem_singleton.mp member]
    decide

theorem mappingCall_concrete : ∀ t ∈ mappingCall.tys, t.Concrete := by
  intro t known
  rw [List.mem_singleton.mp known]
  exact ⟨Ty.normal_named "String", by decide⟩

/-- A block that returns strings makes an array of strings. -/
theorem resolve_complete_mapping : mapping.WellFormed ∧ (∀ t ∈ mappingCall.tys, t.Concrete) ∧
    (mapping.unify mappingCall (mapping.resolve mappingCall ∅).2).2 =
      (mapping.resolve mappingCall ∅).2 ∧
    (mapping.resolve mappingCall ∅).1 =
      (mapping.substitute (mapping.resolve mappingCall ∅).2).eraseGenerics :=
  ⟨mapping_wellFormed, mappingCall_concrete,
    (resolve_complete mapping mappingCall).1 mapping_wellFormed mappingCall_concrete⟩

example : (mapping.resolve mappingCall ∅).1.returns.tag = "Array<String>" := by rfl

/-- A placeholder without a name beside a member that is written like what it becomes. -/
def ambiguous : Signature where
  generics := ["T"]
  params := [⟨"x", .required, .single (.generic "T")⟩]
  returns := ⟨.named "generic\x7bString => \x7d",
    [.make "generic" false .hash [.single (.generic "T")] []]⟩
  block := none

def ambiguousCall : CallTypes where
  args := some [.single (.named "String")]
  returns := none
  blockArgs := none
  blockReturns := none

theorem ambiguous_normal : ambiguous.Every Ty.Normal := by
  refine ⟨?_, .intro (by decide +kernel) ?_ ?_, trivial⟩
  · intro param member
    rw [List.mem_singleton.mp member]
    exact Ty.normal_generic "T"
  · intro m member
    simp only [Ty.members, List.mem_cons, List.not_mem_nil, or_false] at member
    rcases member with rfl | rfl
    · exact Member.fits_named _
    · exact Member.fits_make _ _ _ _ _
  · intro m member t param
    simp only [Ty.members, List.mem_cons, List.not_mem_nil, or_false] at member
    rcases member with rfl | rfl
    · exact absurd param List.not_mem_nil
    · rw [List.mem_singleton.mp param]
      exact Ty.normal_generic "T"

theorem ambiguousCall_concrete : ∀ t ∈ ambiguousCall.tys, t.Concrete := by
  intro t known
  rw [List.mem_singleton.mp known]
  exact ⟨Ty.normal_named "String", by decide⟩

/-- Matching goes into a placeholder without a name, and substitution does not. -/
theorem resolve_ne_substitute : ¬ ∀ (s : Signature) (call : CallTypes),
    s.Every Ty.Normal → (∀ t ∈ call.tys, t.Concrete) →
      ((s.resolve call ∅).1 == (s.substitute (s.resolve call ∅).2).eraseGenerics) = true := by
  intro claimed
  have same := claimed ambiguous ambiguousCall ambiguous_normal ambiguousCall_concrete
  have differ : ((ambiguous.resolve ambiguousCall ∅).1 ==
      (ambiguous.substitute (ambiguous.resolve ambiguousCall ∅).2).eraseGenerics) = false := by
    decide +kernel
  rw [differ] at same
  exact Bool.false_ne_true same

end DuckInfer.Signature
