import DuckInfer.Proofs.Infer.Calls
import DuckInfer.Proofs.Signature.Parameters

/-!
Choosing among overloads a second time. A method that answers a call keeps one overload, with its
generics resolved, and what is chosen for the same call from the answer may differ from what was
chosen from the method. Main statements: what was found by choosing says of all overloads whether
they fit; and where an answer does not fit its own call, an argument lands in a generic parameter.
-/

namespace DuckInfer

open Overload

section

variable {m : Type → Type} [Monad m] [ConstantLookup m] {σ : Type} (r : SteadyRunner m σ) (s : σ)
  (site : CallSite m) (store : Store) (args : List Ty)

/-- The overload takes another number of arguments or no such block, or an argument was found to be
wrong. -/
def CallSite.Misfits (pin : Pin) (signature : Signature) : Prop :=
  signature.accepts args.length site.withBlock = true →
    ∃ wrong, r.Found s (mismatch? store pin signature args) (some wrong)

/-- The outcome after a wrong argument: the first one counts. -/
def OverloadOutcome.orWrong (wrong : WrongArgument) : OverloadOutcome → OverloadOutcome
  | .arity => .argument wrong
  | outcome => outcome

/-- What the outcome says of the overloads of a method. -/
inductive OverloadOutcome.Tells (pin : Pin) (signatures : List Signature) : OverloadOutcome → Prop
    where
  | matched {signature : Signature} : signature ∈ signatures →
      site.Fits r s store args pin signature → Tells pin signatures (.matched signature)
  | arity : (∀ signature ∈ signatures, signature.accepts args.length site.withBlock = false) →
      Tells pin signatures .arity
  | argument {signature : Signature} {wrong : WrongArgument} : signature ∈ signatures →
      signature.accepts args.length site.withBlock = true →
      r.Found s (mismatch? store pin signature args) (some wrong) →
      (∀ other ∈ signatures, site.Misfits r s store args pin other) →
      Tells pin signatures (.argument wrong)

/-- The answer of a method has the overloads of the method, or one of them that fits, with its
generics resolved. -/
structure CallSite.Reduces (declared answered : Pin) : Prop where
  gates : answered.gates = declared.gates
  signatures : answered.signatures = declared.signatures ∨
    ∃ signature ∈ declared.signatures, site.Fits r s store args declared signature ∧
      ∃ blockTy, answered.signatures =
        [(signature.resolve ⟨some args, none, none, blockTy⟩ .empty).1]

/-- A method refuses a call to which it has given this answer: none of its overloads fits, or the
one that answers has a generic parameter, which is resolved to a type that an argument there is not
of. -/
inductive CallSite.Refuses (declared answered : Pin) : Prop where
  | unfit : (∀ signature ∈ declared.signatures, site.Misfits r s store args declared signature) →
      Refuses declared answered
  | narrowed {signature resolved : Signature} {blockTy : Option Ty} {wrong : WrongArgument}
      {param : Parameter} : signature ∈ declared.signatures →
      site.Fits r s store args declared signature →
      resolved = (signature.resolve ⟨some args, none, none, blockTy⟩ .empty).1 →
      answered.signatures = [resolved] →
      r.Found s (mismatch? store declared resolved args) (some wrong) →
      signature.paramFor? wrong.index = some param → param.ty.isGeneric = true →
      Refuses declared answered

/-- The outcome of choosing from an answer is no match just if the method refuses the call, and is a
wrong number of arguments only if all overloads of the method take another number. -/
structure OverloadOutcome.Settles (declared answered : Pin) (outcome : OverloadOutcome) : Prop where
  refuses : Problem.isMatch outcome = false ↔ site.Refuses r s store args declared answered
  rejects : outcome = .arity → ∀ signature ∈ declared.signatures,
    signature.accepts args.length site.withBlock = false

end

namespace SteadyRunner

variable {m : Type → Type} [Monad m] [ConstantLookup m] {σ : Type} {r : SteadyRunner m σ} {s : σ}
  {store : Store} {gates : List String} {signature resolved : Signature} {index : Nat}

/-! ### Wrong arguments -/

theorem index_of_found_wrongArgument? [LawfulMonad m] {actual : Ty} {wrong : WrongArgument}
    (found : r.Found s (wrongArgument? store gates signature index actual) (some wrong)) :
    wrong.index = index := by
  unfold wrongArgument? at found
  split at found
  · cases found.of_pure
    rfl
  · split at found
    · exact absurd found.of_pure (by simp)
    · obtain ⟨expected, -, found⟩ := found.of_bind fun expected =>
        .bind (r.steady_accepts store expected actual) fun _ => .ite (.pure none) (.pure _)
      obtain ⟨accepted, -, found⟩ := found.of_bind fun _ => .ite (.pure none) (.pure _)
      split at found
      · exact absurd found.of_pure (by simp)
      · cases found.of_pure
        rfl

/-- What is wrong with an argument depends on the type of its parameter only. -/
theorem wrongArgument?_congr {param param' : Parameter} {actual : Ty}
    (landed : signature.paramFor? index = some param)
    (landed' : resolved.paramFor? index = some param') (same : param'.ty = param.ty) :
    (wrongArgument? store gates resolved index actual : m (Option WrongArgument)) =
      wrongArgument? store gates signature index actual := by
  simp only [wrongArgument?, landed, landed', same]

variable [LawfulMonad m]

/-- The first wrong argument of several is what is wrong with the first of them, or else the first
wrong one of the others. -/
theorem found_firstWrong?_cons {actual : Ty} {args : List Ty} {out : Option WrongArgument}
    (found : r.Found s (firstWrong? store gates signature index (actual :: args)) out) :
    (∃ wrong, out = some wrong ∧
        r.Found s (wrongArgument? store gates signature index actual) (some wrong)) ∨
      r.Found s (wrongArgument? store gates signature index actual) none ∧
        r.Found s (firstWrong? store gates signature (index + 1) args) out := by
  rw [firstWrong?] at found
  obtain ⟨here, first, found⟩ := found.of_bind fun here => by
    cases here with
    | some wrong => exact .pure _
    | none => exact r.steady_firstWrong? store gates signature _ args
  cases here with
  | some wrong => exact Or.inl ⟨wrong, found.of_pure.symm, first⟩
  | none => exact Or.inr ⟨first, found⟩

theorem found_wrongArgument?_of_none {args : List Ty}
    (found : r.Found s (firstWrong? store gates signature index args) none) {i : Nat} {actual : Ty}
    (passed : args[i]? = some actual) :
    r.Found s (wrongArgument? store gates signature (index + i) actual) none := by
  induction args generalizing index i with
  | nil => simp at passed
  | cons first args ih =>
    rcases found_firstWrong?_cons found with ⟨wrong, impossible, -⟩ | ⟨here, found⟩
    · exact absurd impossible (by simp)
    · cases i with
      | zero =>
        cases passed
        exact here
      | succ i =>
        rw [← Nat.succ_add_eq_add_succ]
        exact ih found passed

theorem found_wrongArgument?_of_some {args : List Ty} {wrong : WrongArgument}
    (found : r.Found s (firstWrong? store gates signature index args) (some wrong)) :
    ∃ i actual, args[i]? = some actual ∧
      r.Found s (wrongArgument? store gates signature (index + i) actual) (some wrong) := by
  induction args generalizing index with
  | nil => exact absurd found.of_pure (by simp)
  | cons first args ih =>
    rcases found_firstWrong?_cons found with ⟨_, same, here⟩ | ⟨-, found⟩
    · cases same
      exact ⟨0, first, rfl, here⟩
    · obtain ⟨i, actual, passed, there⟩ := ih found
      exact ⟨i + 1, actual, passed, by rwa [← Nat.succ_add_eq_add_succ]⟩

/-- An argument that is wrong only after the generics are resolved lands in a generic parameter. -/
theorem exists_generic_of_mismatch? {pin : Pin} {args : List Ty} {withBlock : Bool}
    {call : Signature.CallTypes} {b : Bindings} {wrong : WrongArgument}
    (accepted : signature.accepts args.length withBlock = true)
    (fitting : r.Found s (mismatch? store pin signature args) none)
    (found : r.Found s (mismatch? store pin (signature.resolve call b).1 args) (some wrong)) :
    ∃ param, signature.paramFor? wrong.index = some param ∧ param.ty.isGeneric = true := by
  obtain ⟨i, actual, passed, there⟩ := found_wrongArgument?_of_some found
  have fine := found_wrongArgument?_of_none fitting passed
  rw [Nat.zero_add] at there fine
  obtain ⟨param, landed⟩ :=
    Signature.exists_paramFor? accepted (List.getElem?_eq_some_iff.mp passed).1
  refine ⟨param, index_of_found_wrongArgument? there ▸ landed, ?_⟩
  -- if nothing is generic there, both signatures check the argument against the same type
  by_contra ground
  obtain ⟨param', landed', refines⟩ :=
    Signature.exists_refined_paramFor? (signature.forall₂_resolve call b) landed
  rw [wrongArgument?_congr landed landed' (refines.ty (by simpa using ground))] at there
  exact absurd ((r.steady_wrongArgument? store pin.gates signature i actual).unique fine there)
    (by simp)

/-! ### Outcomes -/

variable {site : CallSite m} {args : List Ty} {pin : Pin}

theorem not_fits_of_misfits (misfits : site.Misfits r s store args pin signature) :
    ¬ site.Fits r s store args pin signature := by
  intro fits
  obtain ⟨wrong, found⟩ := misfits fits.arity
  exact absurd ((r.steady_mismatch? store pin signature args).unique fits.arguments found) (by simp)

/-- The first of several overloads is passed over, or it fits, or it is the first with a wrong
argument if there was none before. -/
theorem found_selectFrom_cons {signatures : List Signature} {outcome out : OverloadOutcome}
    (found : r.Found s
      (selectFrom store pin site.withBlock args outcome (signature :: signatures)) out) :
    (signature.accepts args.length site.withBlock = false ∧
        r.Found s (selectFrom store pin site.withBlock args outcome signatures) out) ∨
      signature.accepts args.length site.withBlock = true ∧
        (r.Found s (mismatch? store pin signature args) none ∧ out = .matched signature ∨
          ∃ wrong, r.Found s (mismatch? store pin signature args) (some wrong) ∧
            r.Found s (selectFrom store pin site.withBlock args (outcome.orWrong wrong) signatures)
              out) := by
  rw [selectFrom] at found
  by_cases accepted : signature.accepts args.length site.withBlock = true
  · rw [if_pos accepted] at found
    refine Or.inr ⟨accepted, ?_⟩
    obtain ⟨mismatch, checked, found⟩ := found.of_bind fun mismatch => by
      cases mismatch with
      | none => exact .pure _
      | some wrong => exact r.steady_selectFrom store pin site.withBlock args _ signatures
    cases mismatch with
    | none => exact Or.inl ⟨checked, found.of_pure.symm⟩
    | some wrong =>
      refine Or.inr ⟨wrong, checked, ?_⟩
      cases outcome <;> exact found
  · rw [if_neg accepted] at found
    exact Or.inl ⟨by simpa using accepted, found⟩

/-- After a wrong argument only an overload that fits changes the outcome. -/
theorem found_selectFrom_argument {signatures : List Signature} {wrong : WrongArgument}
    {out : OverloadOutcome}
    (found : r.Found s
      (selectFrom store pin site.withBlock args (.argument wrong) signatures) out) :
    (∃ signature ∈ signatures, site.Fits r s store args pin signature ∧
        out = .matched signature) ∨
      out = .argument wrong ∧
        ∀ signature ∈ signatures, site.Misfits r s store args pin signature := by
  induction signatures with
  | nil => exact Or.inr ⟨found.of_pure.symm, fun _ listed => absurd listed List.not_mem_nil⟩
  | cons signature signatures ih =>
    have others (found : r.Found s
          (selectFrom store pin site.withBlock args (.argument wrong) signatures) out)
        (misfits : site.Misfits r s store args pin signature) :
        (∃ other ∈ signature :: signatures, site.Fits r s store args pin other ∧
            out = .matched other) ∨
          out = .argument wrong ∧
            ∀ other ∈ signature :: signatures, site.Misfits r s store args pin other := by
      rcases ih found with ⟨other, listed, fits⟩ | ⟨same, all⟩
      · exact Or.inl ⟨other, List.mem_cons_of_mem _ listed, fits⟩
      · exact Or.inr ⟨same, List.forall_mem_cons.mpr ⟨misfits, all⟩⟩
    rcases found_selectFrom_cons found with
      ⟨rejected, found⟩ | ⟨accepted, ⟨fitting, same⟩ | ⟨other, checked, found⟩⟩
    · exact others found fun accepted => absurd (rejected.symm.trans accepted) (by simp)
    · exact Or.inl ⟨signature, List.mem_cons_self, ⟨accepted, fitting⟩, same⟩
    · exact others found fun _ => ⟨other, checked⟩

/-- What was found by trying overloads says of all of them whether they fit. -/
theorem tells_of_found_selectFrom {signatures : List Signature} {out : OverloadOutcome}
    (found : r.Found s (selectFrom store pin site.withBlock args .arity signatures) out) :
    out.Tells r s site store args pin signatures := by
  induction signatures with
  | nil =>
    cases found.of_pure
    exact .arity fun _ listed => absurd listed List.not_mem_nil
  | cons signature signatures ih =>
    rcases found_selectFrom_cons found with
      ⟨rejected, found⟩ | ⟨accepted, ⟨fitting, rfl⟩ | ⟨wrong, checked, found⟩⟩
    · have misfits : site.Misfits r s store args pin signature :=
        fun accepted => absurd (rejected.symm.trans accepted) (by simp)
      cases ih found with
      | matched listed fits => exact .matched (List.mem_cons_of_mem _ listed) fits
      | arity none => exact .arity (List.forall_mem_cons.mpr ⟨rejected, none⟩)
      | argument listed accepted checked others =>
        exact .argument (List.mem_cons_of_mem _ listed) accepted checked
          (List.forall_mem_cons.mpr ⟨misfits, others⟩)
    · exact .matched List.mem_cons_self ⟨accepted, fitting⟩
    · rcases found_selectFrom_argument found with ⟨other, listed, fits, rfl⟩ | ⟨rfl, others⟩
      · exact .matched (List.mem_cons_of_mem _ listed) fits
      · exact .argument List.mem_cons_self accepted checked
          (List.forall_mem_cons.mpr ⟨fun _ => ⟨wrong, checked⟩, others⟩)

/-- A method without overloads has no outcome; of any other method the outcome tells about all
overloads. -/
theorem tells_of_found_select? {out : Option OverloadOutcome}
    (found : r.Found s (select? store pin site.withBlock args) out) :
    (out = none ∧ pin.signatures = []) ∨ ∃ outcome, out = some outcome ∧ pin.signatures ≠ [] ∧
      outcome.Tells r s site store args pin pin.signatures := by
  unfold select? at found
  split at found
  · rename_i none
    exact Or.inl ⟨found.of_pure.symm, ordered_eq_nil_iff.mp none⟩
  · rename_i some
    obtain ⟨outcome, selected, rfl⟩ := found.of_map
    refine Or.inr ⟨outcome, rfl, mt ordered_eq_nil_iff.mpr some, ?_⟩
    cases tells_of_found_selectFrom selected with
    | matched listed fits => exact .matched (mem_ordered.mp listed) fits
    | arity none => exact .arity fun signature listed => none signature (mem_ordered.mpr listed)
    | argument listed accepted wrong others =>
      exact .argument (mem_ordered.mp listed) accepted wrong fun signature listed =>
        others signature (mem_ordered.mpr listed)

/-! ### Choosing from an answer -/

omit [LawfulMonad m] in
/-- Arguments are checked alike in the same gates. -/
theorem tells_of_gates {answered : Pin} {signatures : List Signature} {outcome : OverloadOutcome}
    (same : answered.gates = pin.gates)
    (tells : outcome.Tells r s site store args answered signatures) :
    outcome.Tells r s site store args pin signatures := by
  have alike : ∀ signature, (mismatch? store answered signature args : m (Option WrongArgument)) =
      mismatch? store pin signature args := fun signature => by rw [mismatch?, mismatch?, same]
  cases tells with
  | matched listed fits => exact .matched listed ⟨fits.arity, alike _ ▸ fits.arguments⟩
  | arity none => exact .arity none
  | argument listed accepted wrong others =>
    exact .argument listed accepted (alike _ ▸ wrong) fun other listed accepted =>
      alike other ▸ others other listed accepted

/-- A method answers with its overloads, or with one of them that fits, generics resolved. -/
theorem reduces_of_found_inferPin {cx : LinkSite} {context : Ty} {answered : Pin}
    (block : ∀ scope, r.Steady (site.blockTy scope))
    (found : r.Found s (site.inferPin store cx context args pin) answered) :
    answered.isMethod = pin.isMethod ∧ site.Reduces r s store args pin answered := by
  obtain ⟨reduced, t, returned, rfl⟩ := found_inferPin found
  rcases found_returnTy returned with
    ⟨-, rfl, -⟩ | ⟨out, answered, ⟨resolved, rfl, rfl⟩ | ⟨-, rfl, -⟩⟩
  · exact ⟨rfl, Pin.gates_proxied _ _, Or.inl rfl⟩
  · refine ⟨Pin.isMethod_withOverloads pin _, by simp, Or.inr ?_⟩
    rcases found_answerFrom_cases block answered with
      ⟨impossible, -⟩ | ⟨signature, listed, fits, _, _, same, answer⟩
    · exact absurd impossible (by simp)
    · cases same
      obtain ⟨blockTy, rfl, -⟩ := found_answer answer
      have listed := mem_ordered.mp listed
      exact ⟨signature, listed, fits, blockTy,
        Pin.signatures_withOverloads (List.ne_nil_of_mem listed) _⟩
  · exact ⟨rfl, Pin.gates_proxied _ _, Or.inl rfl⟩

/-- A method whose answer fits its own call does not refuse the call. -/
theorem not_refuses {declared answered : Pin}
    (fitting : ∃ signature ∈ declared.signatures, site.Fits r s store args declared signature)
    (kept : resolved ∈ answered.signatures) (fits : site.Fits r s store args declared resolved) :
    ¬ site.Refuses r s store args declared answered := by
  intro refuses
  cases refuses with
  | unfit misfits =>
    obtain ⟨signature, listed, fits⟩ := fitting
    exact not_fits_of_misfits (misfits signature listed) fits
  | narrowed _ _ _ only wrong _ _ =>
    rw [only, List.mem_singleton] at kept
    subst kept
    exact not_fits_of_misfits (fun _ => ⟨_, wrong⟩) fits

theorem settles_of_tells {declared answered : Pin} {outcome : OverloadOutcome}
    (reduces : site.Reduces r s store args declared answered)
    (tells : outcome.Tells r s site store args declared answered.signatures) :
    outcome.Settles r s site store args declared answered := by
  cases tells with
  | matched kept fits =>
    have fitting :
        ∃ signature ∈ declared.signatures, site.Fits r s store args declared signature := by
      rcases reduces.signatures with same | ⟨signature, listed, fitting, -⟩
      · exact ⟨_, same ▸ kept, fits⟩
      · exact ⟨signature, listed, fitting⟩
    exact ⟨iff_of_false (by simp [Problem.isMatch]) (not_refuses fitting kept fits), nofun⟩
  | arity none =>
    rcases reduces.signatures with same | ⟨signature, _, fits, blockTy, only⟩
    · rw [same] at none
      have misfits : ∀ signature ∈ declared.signatures,
          site.Misfits r s store args declared signature := fun signature listed accepted =>
        absurd ((none signature listed).symm.trans accepted) (by simp)
      exact ⟨iff_of_true rfl (.unfit misfits), fun _ => none⟩
    · -- resolving generics leaves the number of arguments as it is
      have rejected := none _ (only ▸ List.mem_singleton_self _)
      rw [Signature.accepts_resolve] at rejected
      exact absurd (rejected.symm.trans fits.arity) (by simp)
  | argument kept _ wrong misfits =>
    rcases reduces.signatures with same | ⟨signature, listed, fits, blockTy, only⟩
    · exact ⟨iff_of_true rfl (.unfit (same ▸ misfits)), nofun⟩
    · rw [only, List.mem_singleton] at kept
      subst kept
      obtain ⟨param, landed, generic⟩ := exists_generic_of_mismatch? fits.arity fits.arguments wrong
      exact ⟨iff_of_true rfl (.narrowed listed fits rfl only wrong landed generic), nofun⟩

/-- Choosing from an answer has an outcome just if the method has overloads, and it settles whether
the method refuses the call. -/
theorem settles_of_found_select? {declared answered : Pin} {out : Option OverloadOutcome}
    (reduces : site.Reduces r s store args declared answered)
    (found : r.Found s (select? store answered site.withBlock args) out) :
    (declared.signatures = [] ∧ out = none) ∨ ∃ outcome, out = some outcome ∧
      declared.signatures ≠ [] ∧ outcome.Settles r s site store args declared answered := by
  rcases tells_of_found_select? found with ⟨rfl, none⟩ | ⟨outcome, rfl, some, tells⟩
  · rcases reduces.signatures with same | ⟨_, _, _, _, only⟩
    · exact Or.inl ⟨same ▸ none, rfl⟩
    · exact absurd (only.symm.trans none) (by simp)
  · refine Or.inr ⟨outcome, rfl, ?_, settles_of_tells reduces (tells_of_gates reduces.gates tells)⟩
    rcases reduces.signatures with same | ⟨_, listed, _⟩
    · exact same ▸ some
    · exact List.ne_nil_of_mem listed

end SteadyRunner

end DuckInfer
