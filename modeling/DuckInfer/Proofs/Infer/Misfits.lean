import DuckInfer.Proofs.Infer.Overloads

/-!
Calls whose arguments are reported. A call is checked against what it may refer to, which is what
its methods have answered and not the methods themselves. Main statement: arguments of a chain are
reported just if some call that is reached is refused by all its methods with overloads. A call that
fits some overload may be refused, but not if nothing is generic in the overloads that it fits.
-/

namespace DuckInfer

/-- The arguments of a call are wrong in number or type. -/
def ProblemKind.IsMisfit : ProblemKind → Prop
  | .arityMismatch _ _ _ | .argumentType _ _ => True
  | .unresolvedConstant _ _ | .unresolvedMethod _ _ _ => False

section

variable {m : Type → Type} [Monad m] [ConstantLookup m] {σ : Type} (r : SteadyRunner m σ) (s : σ)

/-- A method that a call may refer to with what it has answered: a local that is visible stands for
itself, and without one the methods of the receiver answer. -/
inductive CallSite.Answered (site : CallSite m) (store : Store) (cx : LinkSite) (args : List Ty) :
    Pin → Pin → Prop where
  | visible {pin : Pin} : pin ∈ site.visibleLocals cx → pin.isMethod = true →
      Answered site store cx args pin pin
  | method {receiver : Ty} {stack : List Pin} {declared answered : Pin} :
      site.visibleLocals cx = [] → site.Receives r s store cx receiver stack → declared ∈ stack →
      r.Found s (site.inferPin store cx receiver args declared) answered →
      Answered site store cx args declared answered

namespace Analyzer

variable (an : Analyzer) (c : Call) (cx : LinkSite)

/-- The call may refer to methods with overloads, and all of them refuse it. -/
structure RefusesCall (args : List Ty) : Prop where
  named : c.word ≠ "super" ∧ c.word ≠ "yield"
  arguments : r.Found s (siteOf an.infer c cx).argTys args
  overloaded : ∃ declared answered,
    (siteOf an.infer c cx).Answered r s an.store cx args declared answered ∧
      declared.signatures ≠ []
  refused : ∀ declared answered,
    (siteOf an.infer c cx).Answered r s an.store cx args declared answered →
      declared.signatures ≠ [] → (siteOf an.infer c cx).Refuses r s an.store args declared answered

/-- A method that the call may refer to has overloads that fit, and nothing is generic in the
parameters of any of them. -/
def FitsGround (args : List Ty) : Prop :=
  ∃ declared answered,
    (siteOf an.infer c cx).Answered r s an.store cx args declared answered ∧
      (∃ signature ∈ declared.signatures,
        (siteOf an.infer c cx).Fits r s an.store args declared signature) ∧
      ∀ signature ∈ declared.signatures,
        (siteOf an.infer c cx).Fits r s an.store args declared signature →
          ∀ param ∈ signature.positional, param.ty.isGeneric = false

/-- So many arguments are given, and no overload of the methods takes as many, with or without the
block. -/
def RejectsNumber (given : Nat) : Prop :=
  ∃ args, r.Found s (siteOf an.infer c cx).argTys args ∧ args.length = given ∧
    ∀ declared answered, (siteOf an.infer c cx).Answered r s an.store cx args declared answered →
      ∀ signature ∈ declared.signatures, signature.accepts given c.passesBlock = false

end Analyzer

end

namespace SteadyRunner

variable {m : Type → Type} [Monad m] [LawfulMonad m] [ConstantLookup m] {σ : Type}
  {r : SteadyRunner m σ} {s : σ}

/-! ### Methods and their answers -/

section

variable {site : CallSite m} {store : Store} {cx : LinkSite} {args : List Ty}
  (block : ∀ scope, r.Steady (site.blockTy scope))
include block

theorem reduces_of_answered {declared answered : Pin}
    (answers : site.Answered r s store cx args declared answered) :
    answered.isMethod = true ∧ site.Reduces r s store args declared answered := by
  cases answers with
  | visible _ method => exact ⟨method, rfl, Or.inl rfl⟩
  | method _ receives stacked evaluates =>
    obtain ⟨same, reduces⟩ := reduces_of_found_inferPin block evaluates
    exact ⟨same.trans (isMethod_of_receives receives stacked), reduces⟩

variable (arguments : r.Steady site.argTys) (named : site.word ≠ "super" ∧ site.word ≠ "yield")
  (inferred : r.Found s site.argTys args)
include arguments named inferred

theorem exists_answered_of_found_resolve {pins : List Pin} {answered : Pin}
    (found : r.Found s (site.resolve store cx) pins) (listed : answered ∈ pins)
    (method : answered.isMethod = true) :
    ∃ declared, site.Answered r s store cx args declared answered := by
  cases visible : site.visibleLocals cx with
  | cons pin others =>
    have local' : pins = pin :: others := by
      unfold CallSite.resolve at found
      rw [if_neg (by simpa using named.1), if_neg (by simpa using named.2), visible] at found
      exact found.of_pure.symm
    exact ⟨answered, .visible (visible ▸ local' ▸ listed) method⟩
  | nil =>
    obtain ⟨answers, inStep, rfl⟩ := found_resolve_members block arguments visible named found
    split at listed
    · obtain rfl := List.mem_singleton.mp listed
      exact absurd method (by simp [Pin.valueIn, Pin.make, Pin.isMethod])
    · obtain ⟨answer, part, listed⟩ := List.mem_flatten.mp listed
      obtain ⟨member, inside, stack, methods, evaluated⟩ := exists_left_of_forall₂ inStep part
      obtain ⟨declared, stacked, args', inferred', evaluates⟩ :=
        mem_of_found_inferPins block listed evaluated
      obtain rfl := arguments.unique inferred inferred'
      exact ⟨declared, .method visible (.member named.1 inside methods) stacked evaluates⟩

theorem mem_of_answered {pins : List Pin} {declared answered : Pin}
    (found : r.Found s (site.resolve store cx) pins)
    (answers : site.Answered r s store cx args declared answered) : answered ∈ pins := by
  cases answers with
  | visible listed _ =>
    unfold CallSite.resolve at found
    rw [if_neg (by simpa using named.1), if_neg (by simpa using named.2)] at found
    cases visible : site.visibleLocals cx with
    | nil => exact absurd (visible ▸ listed) List.not_mem_nil
    | cons pin others =>
      rw [visible] at found
      exact found.of_pure ▸ visible ▸ listed
  | method visible receives stacked evaluates =>
    obtain ⟨answers, inStep, rfl⟩ := found_resolve_members block arguments visible named found
    cases receives with
    | superclass upward _ _ => exact absurd upward named.1
    | member _ inside methods =>
      obtain ⟨part, answering, stack', methods', evaluated⟩ := exists_right_of_forall₂ inStep inside
      obtain rfl := (r.steady_methodsNamed store _ _).unique methods methods'
      rcases found_inferPins block evaluated with ⟨rfl, -⟩ | ⟨args', inferred', each⟩
      · exact absurd stacked List.not_mem_nil
      obtain rfl := arguments.unique inferred inferred'
      obtain ⟨other, inPart, evaluates'⟩ := exists_right_of_forall₂ each stacked
      obtain rfl := (r.steady_inferPin store cx _ block args _).unique evaluates evaluates'
      have some := List.mem_flatten.mpr ⟨part, answering, inPart⟩
      rw [if_neg fun none => List.ne_nil_of_mem some none.1]
      exact some

end

/-! ### Problems with arguments -/

theorem isMisfit_ofOutcomes_iff {word : String} {given : Nat} {pins : List Pin}
    {outcomes : List OverloadOutcome} :
    (∃ kind, Problem.ofOutcomes word given pins outcomes = some kind ∧ kind.IsMisfit) ↔
      outcomes ≠ [] ∧ ∀ outcome ∈ outcomes, Problem.isMatch outcome = false := by
  unfold Problem.ofOutcomes
  split
  · rename_i silent
    refine iff_of_false (by simp) ?_
    rintro ⟨nonempty, misses⟩
    rcases Bool.or_eq_true_iff.mp silent with none | found
    · exact nonempty (List.isEmpty_iff.mp none)
    · obtain ⟨outcome, listed, hit⟩ := List.any_eq_true.mp found
      exact absurd ((misses outcome listed).symm.trans hit) (by simp)
  · rename_i loud
    obtain ⟨nonempty, misses⟩ := Bool.or_eq_false_iff.mp (Bool.not_eq_true _ ▸ loud)
    refine iff_of_true ?_ ⟨by simpa using nonempty, by simpa using misses⟩
    split
    · exact ⟨_, rfl, trivial⟩
    · exact ⟨_, rfl, trivial⟩

/-- A wrong number of arguments is reported only if no outcome is another one. -/
theorem arity_of_ofOutcomes {word word' : String} {given given' : Nat} {expected : String}
    {pins : List Pin} {outcomes : List OverloadOutcome}
    (reported : Problem.ofOutcomes word given pins outcomes =
      some (.arityMismatch word' given' expected)) :
    word' = word ∧ given' = given ∧ ∀ outcome ∈ outcomes, outcome = .arity := by
  have misses := (isMisfit_ofOutcomes_iff.mp ⟨_, reported, trivial⟩).2
  unfold Problem.ofOutcomes at reported
  split at reported
  · exact absurd reported (by simp)
  · split at reported
    · exact absurd reported (by simp)
    · rename_i none
      cases reported
      refine ⟨rfl, rfl, fun outcome listed => ?_⟩
      have unexplained := List.findSome?_eq_none_iff.mp none outcome listed
      cases outcome with
      | arity => rfl
      | matched _ => exact absurd (misses _ listed) (by simp [Problem.isMatch])
      | argument _ => exact absurd unexplained (by simp [Problem.mismatchOf?])

section

variable {an : Analyzer} {c : Call} {cx : LinkSite} {pins : List Pin} {out : Option ProblemKind}

/-- The arguments are checked with one outcome for each method that has overloads. -/
theorem found_argumentProblem? (named : c.word ≠ "super" ∧ c.word ≠ "yield")
    (resolved : r.Found s ((siteOf an.infer c cx).resolve an.store cx) pins)
    (found : r.Found s (an.argumentProblem? c cx pins) out) :
    ∃ args outcomes, r.Found s (siteOf an.infer c cx).argTys args ∧
      out = Problem.ofOutcomes c.word args.length pins outcomes ∧
      (∀ outcome ∈ outcomes, ∃ declared answered,
        (siteOf an.infer c cx).Answered r s an.store cx args declared answered ∧
          declared.signatures ≠ [] ∧
          outcome.Settles r s (siteOf an.infer c cx) an.store args declared answered) ∧
      ∀ declared answered,
        (siteOf an.infer c cx).Answered r s an.store cx args declared answered →
          declared.signatures ≠ [] → ∃ outcome ∈ outcomes,
            outcome.Settles r s (siteOf an.infer c cx) an.store args declared answered := by
  obtain ⟨block, arguments⟩ := r.steady_siteOf an c cx
  unfold Analyzer.argumentProblem? at found
  rw [inferAll_eq] at found
  obtain ⟨args, inferred, found⟩ := found.of_bind fun args =>
    .bind (.mapM fun pin _ => r.steady_select? an.store pin _ args) fun _ => .pure _
  obtain ⟨outs, selected, found⟩ := found.of_bind fun _ => .pure _
  have inStep := selected.of_mapM fun pin => r.steady_select? an.store pin _ args
  refine ⟨args, outs.filterMap id, inferred, found.of_pure.symm, fun outcome chosen => ?_,
    fun declared answered answers overloaded => ?_⟩
  · obtain ⟨_, listed, rfl⟩ := List.mem_filterMap.mp chosen
    obtain ⟨answered, kept, select⟩ := exists_left_of_forall₂ inStep listed
    obtain ⟨inPins, method⟩ := List.mem_filter.mp kept
    obtain ⟨declared, answers⟩ :=
      exists_answered_of_found_resolve block arguments named inferred resolved inPins method
    rcases settles_of_found_select? (reduces_of_answered block answers).2 select with
      ⟨-, none⟩ | ⟨_, same, overloaded, settles⟩
    · exact absurd none (by simp)
    · cases same
      exact ⟨declared, answered, answers, overloaded, settles⟩
  · obtain ⟨method, reduces⟩ := reduces_of_answered block answers
    have inPins := mem_of_answered block arguments named inferred resolved answers
    obtain ⟨_, listed, select⟩ :=
      exists_right_of_forall₂ inStep (List.mem_filter.mpr ⟨inPins, method⟩)
    rcases settles_of_found_select? reduces select with ⟨none, -⟩ | ⟨outcome, rfl, -, settles⟩
    · exact absurd none overloaded
    · exact ⟨outcome, List.mem_filterMap.mpr ⟨_, listed, rfl⟩, settles⟩

/-- Wrong arguments of a call are reported just if all its methods with overloads refuse it, and a
wrong number only if all overloads take another one. -/
theorem isMisfit_iff_refusesCall (named : c.word ≠ "super" ∧ c.word ≠ "yield")
    (resolved : r.Found s ((siteOf an.infer c cx).resolve an.store cx) pins)
    (found : r.Found s (an.argumentProblem? c cx pins) out) :
    ((∃ kind, out = some kind ∧ kind.IsMisfit) ↔ ∃ args, an.RefusesCall r s c cx args) ∧
      ∀ word given expected, out = some (.arityMismatch word given expected) →
        word = c.word ∧ an.RejectsNumber r s c cx given := by
  obtain ⟨args, outcomes, inferred, rfl, answered, settled⟩ :=
    found_argumentProblem? named resolved found
  have arguments := (r.steady_siteOf an c cx).2
  refine ⟨isMisfit_ofOutcomes_iff.trans ⟨fun ⟨nonempty, misses⟩ => ?_, fun ⟨args', refuses⟩ => ?_⟩,
    fun word given expected reported => ?_⟩
  · obtain ⟨outcome, listed⟩ := List.exists_mem_of_ne_nil outcomes nonempty
    obtain ⟨declared, other, answers, overloaded, -⟩ := answered outcome listed
    refine ⟨args, named, inferred, ⟨declared, other, answers, overloaded⟩, ?_⟩
    intro declared other answers overloaded
    obtain ⟨outcome, listed, settles⟩ := settled declared other answers overloaded
    exact settles.refuses.mp (misses outcome listed)
  · obtain rfl := arguments.unique inferred refuses.arguments
    constructor
    · obtain ⟨declared, other, answers, overloaded⟩ := refuses.overloaded
      obtain ⟨outcome, listed, -⟩ := settled declared other answers overloaded
      exact List.ne_nil_of_mem listed
    · intro outcome listed
      obtain ⟨declared, other, answers, overloaded, settles⟩ := answered outcome listed
      exact settles.refuses.mpr (refuses.refused declared other answers overloaded)
  · obtain ⟨rfl, rfl, arity⟩ := arity_of_ofOutcomes reported
    refine ⟨rfl, args, inferred, rfl, fun declared other answers signature stated => ?_⟩
    obtain ⟨outcome, listed, settles⟩ :=
      settled declared other answers (List.ne_nil_of_mem stated)
    exact settles.rejects (arity outcome listed) signature stated

/-! ### Along a chain -/

omit [LawfulMonad m] in
/-- A method that is not found has no wrong arguments. -/
theorem not_isMisfit_of_found_unresolvedMethod {word : String} {kind : ProblemKind}
    (found : r.Found s (an.unresolvedMethod word cx) kind) : ¬ kind.IsMisfit := by
  obtain ⟨known, -, found⟩ := found.of_bind fun _ => .pure _
  obtain rfl := found.of_pure
  exact id

/-- Only calls are reported for their arguments. -/
theorem refusesCall_of_isMisfit {link : Link} {kind : ProblemKind}
    (candidates : r.Found s (linkCandidates an.store an.typeOf link cx) pins)
    (reported : r.Found s (an.problemWith? link cx pins) (some kind)) (misfit : kind.IsMisfit) :
    ∃ c, link = .call c ∧ (∃ args, an.RefusesCall r s c cx args) ∧
      ∀ word given expected, kind = .arityMismatch word given expected →
        word = c.word ∧ an.RejectsNumber r s c cx given := by
  unfold Analyzer.problemWith? at reported
  split at reported
  · split at reported
    · cases reported.of_pure
      exact misfit.elim
    · exact absurd reported.of_pure (by simp)
  · rename_i c
    split at reported
    · exact absurd reported.of_pure (by simp)
    · rename_i plain
      have named : c.word ≠ "super" ∧ c.word ≠ "yield" := by simpa using plain
      split at reported
      · obtain ⟨_, unresolved, same⟩ := reported.of_map
        cases same
        exact absurd misfit (not_isMisfit_of_found_unresolvedMethod unresolved)
      · obtain ⟨refused, number⟩ :=
          isMisfit_iff_refusesCall named (found_callCandidates candidates) reported
        refine ⟨c, rfl, refused.mp ⟨kind, rfl, misfit⟩, fun word given expected same => ?_⟩
        exact number word given expected (congrArg some same)
  · exact absurd reported.of_pure (by simp)

/-- A call that all methods with overloads refuse is reported. -/
theorem isMisfit_of_refusesCall {args : List Ty} (refuses : an.RefusesCall r s c cx args)
    (candidates : r.Found s (linkCandidates an.store an.typeOf (.call c) cx) pins)
    (checked : r.Found s (an.problemWith? (.call c) cx pins) out) :
    ∃ kind, out = some kind ∧ kind.IsMisfit := by
  obtain ⟨block, arguments⟩ := r.steady_siteOf an c cx
  have resolved := found_callCandidates candidates
  obtain ⟨declared, answered, answers, -⟩ := refuses.overloaded
  have listed := mem_of_answered block arguments refuses.named refuses.arguments resolved answers
  have plain : ¬ (c.word == "super" || c.word == "yield") = true := by simpa using refuses.named
  have some : ¬ pins.isEmpty = true := by simpa using List.ne_nil_of_mem listed
  rw [Analyzer.problemWith?, if_neg plain, if_neg some] at checked
  exact (isMisfit_iff_refusesCall refuses.named resolved checked).1.mpr ⟨args, refuses⟩

variable {chain : Chain} {links : List Link}

/-- Arguments that are reported along some links are those of a call that is reached. -/
theorem reaches_of_isMisfit {problem : Problem}
    (checked : r.Found s (an.problemAlong? chain links cx) (some problem))
    (misfit : problem.kind.IsMisfit) :
    ∃ c rest site, an.Reaches r s chain.nullable (.call c :: rest) site links cx ∧
      (∃ args, an.RefusesCall r s c site args) ∧
      ∀ word given expected, problem.kind = .arityMismatch word given expected →
        word = c.word ∧ an.RejectsNumber r s c site given := by
  induction links generalizing cx with
  | nil => exact absurd checked.of_pure (by simp)
  | cons link links ih =>
    obtain ⟨pins, candidates, ⟨kind, reported, same⟩ | ⟨-, t, resolves, onward⟩⟩ :=
      Analyzer.found_problemAlong?_cons checked
    · cases same
      obtain ⟨c, rfl, refuses⟩ := refusesCall_of_isMisfit candidates reported misfit
      exact ⟨c, links, cx, .here, refuses⟩
    · rcases onward with ⟨-, none⟩ | ⟨known, checked⟩
      · exact absurd none (by simp)
      · obtain ⟨c, rest, site, reaches, refuses⟩ := ih checked
        exact ⟨c, rest, site, .step resolves known reaches, refuses⟩

/-- Where a call that is reached is refused, arguments are reported: its own, or those of a call
before it. -/
theorem exists_isMisfit_of_reaches {rest : List Link} {site : LinkSite} {args : List Ty}
    {problem : Option Problem}
    (reaches : an.Reaches r s chain.nullable (.call c :: rest) site links cx)
    (refuses : an.RefusesCall r s c site args)
    (checked : r.Found s (an.problemAlong? chain links cx) problem) :
    ∃ reported, problem = some reported ∧ reported.kind.IsMisfit := by
  induction reaches with
  | here =>
    obtain ⟨pins, candidates, ⟨kind, reported, rfl⟩ | ⟨unreported, -⟩⟩ :=
      Analyzer.found_problemAlong?_cons checked
    · obtain ⟨_, same, misfit⟩ := isMisfit_of_refusesCall refuses candidates reported
      cases same
      exact ⟨_, rfl, misfit⟩
    · obtain ⟨_, impossible, -⟩ := isMisfit_of_refusesCall refuses candidates unreported
      exact absurd impossible (by simp)
  | @step link links cx pins t resolves known onward ih =>
    obtain ⟨pins', candidates, ⟨kind, reported, rfl⟩ | ⟨-, u, resolves', after⟩⟩ :=
      Analyzer.found_problemAlong?_cons checked
    · obtain rfl := (r.steady_linkCandidates an link cx).unique candidates resolves.candidates
      cases kind with
      | arityMismatch _ _ _ | argumentType _ _ => exact ⟨_, rfl, trivial⟩
      | unresolvedConstant _ _ | unresolvedMethod _ _ _ =>
        -- a name that is not found has no known type, and nothing is reached behind it
        obtain rfl := Analyzer.eq_nil_of_isUnresolved reported trivial
        exact absurd (resolves.isUndefined_of_nil.symm.trans known) (by simp)
    · obtain ⟨rfl, rfl⟩ := resolves.unique resolves'
      rcases after with ⟨unknown, -⟩ | ⟨-, checked⟩
      · exact absurd (unknown.symm.trans known) (by simp)
      · exact ih checked

end

end SteadyRunner

namespace Analyzer

section

variable {m : Type → Type} [Monad m] [ConstantLookup m] {σ : Type} {r : SteadyRunner m σ} {s : σ}
  {an : Analyzer}

/-- The problem of a chain is the first along its links. -/
theorem found_check {chain : Chain} {lexical : Pin} {locals : List Pin} {problems : List Problem}
    (checked : r.Found s (an.check chain lexical locals) problems) :
    (chain.isUndefined = true ∧ problems = []) ∨ chain.isUndefined = false ∧ ∃ problem,
      r.Found s (an.problemAlong? chain chain.links (chain.firstSite lexical locals)) problem ∧
        problems = problem.toList := by
  unfold check at checked
  cases undefined : chain.isUndefined with
  | true =>
    rw [if_pos undefined] at checked
    exact Or.inl ⟨rfl, checked.of_pure.symm⟩
  | false =>
    rw [if_neg (by simp [undefined])] at checked
    obtain ⟨problem, along, listed⟩ := checked.of_bind fun _ => .pure _
    exact Or.inr ⟨rfl, problem, along, listed.of_pure.symm⟩

/-- Without a generic parameter, the overload that answers a call still fits it when it is resolved.
-/
theorem not_refusesCall_of_fitsGround [LawfulMonad m] {c : Call} {cx : LinkSite} {args : List Ty}
    (fits : an.FitsGround r s c cx args) : ¬ an.RefusesCall r s c cx args := by
  obtain ⟨declared, answered, answers, ⟨signature, listed, fits⟩, ground⟩ := fits
  intro refuses
  cases refuses.refused declared answered answers (List.ne_nil_of_mem listed) with
  | unfit misfits => exact SteadyRunner.not_fits_of_misfits (misfits signature listed) fits
  | narrowed listed fits _ _ _ landed generic =>
    have ground := ground _ listed fits _ (Signature.mem_positional_of_paramFor? landed)
    exact absurd (generic.symm.trans ground) (by simp)

end

/-- Wrong arguments are reported for a chain just if it reaches a call that all its methods with
overloads refuse. A method refuses a call if none of its overloads fits, or if the overload that has
answered does not fit once its generic parameters are resolved. A wrong number of arguments is
reported only for a call whose number no overload takes. A call is not refused if it fits overloads
of a method and none of these has generic parameters. It does not matter what was asked before. -/
theorem check_misfit_iff {m : Type → Type} [Monad m] [LawfulMonad m] [ConstantLookup m] {σ : Type}
    (r : SteadyRunner m σ) (s : σ) (an : Analyzer) (chain : Chain) (lexical : Pin)
    (locals : List Pin) {problems : List Problem}
    (checked : r.Found s (an.check chain lexical locals) problems) :
    ((∃ problem ∈ problems, problem.kind.IsMisfit) ↔
      chain.isUndefined = false ∧ ∃ c rest site args,
        an.Reaches r s chain.nullable (.call c :: rest) site chain.links
          (chain.firstSite lexical locals) ∧ an.RefusesCall r s c site args) ∧
    (∀ problem ∈ problems, ∀ word given expected,
      problem.kind = .arityMismatch word given expected → ∃ c rest site,
        an.Reaches r s chain.nullable (.call c :: rest) site chain.links
          (chain.firstSite lexical locals) ∧
        word = c.word ∧ an.RejectsNumber r s c site given) ∧
    ∀ c site args, an.FitsGround r s c site args → ¬ an.RefusesCall r s c site args := by
  rcases found_check checked with ⟨undefined, rfl⟩ | ⟨defined, problem, along, rfl⟩
  · exact ⟨by simp [undefined], by simp, fun _ _ _ => not_refusesCall_of_fitsGround⟩
  refine ⟨⟨?_, ?_⟩, ?_, fun _ _ _ => not_refusesCall_of_fitsGround⟩
  · rintro ⟨reported, listed, misfit⟩
    obtain rfl := Option.mem_toList.mp listed
    obtain ⟨c, rest, site, reaches, ⟨args, refuses⟩, -⟩ :=
      SteadyRunner.reaches_of_isMisfit along misfit
    exact ⟨defined, c, rest, site, args, reaches, refuses⟩
  · rintro ⟨-, c, rest, site, args, reaches, refuses⟩
    obtain ⟨reported, rfl, misfit⟩ :=
      SteadyRunner.exists_isMisfit_of_reaches reaches refuses along
    exact ⟨reported, Option.mem_toList.mpr rfl, misfit⟩
  · intro reported listed word given expected same
    obtain rfl := Option.mem_toList.mp listed
    obtain ⟨c, rest, site, reaches, -, number⟩ :=
      SteadyRunner.reaches_of_isMisfit along (same ▸ trivial)
    exact ⟨c, rest, site, reaches, number word given expected same⟩

section Pairing

/-- The overload `[T] (generic<T> x, generic<T> y) -> generic<T>`. -/
def pairOverload : Signature :=
  let generic : Ty := .single (.generic "T")
  ⟨["T"], [⟨"x", .required, generic⟩, ⟨"y", .required, generic⟩], generic, none⟩

def pairMethod : Pin :=
  .make "pair" (some (.make "Foo" (some .root) (.space false [])))
    (.method .instanceLevel .everyone [pairOverload])

/-- A store with the class `Foo` and its method `pair`. -/
def pairing : Analyzer :=
  ⟨.ofGroups [("a.rb", [.root, .make "Foo" (some .root) (.space false []), pairMethod])], 0⟩

/-- `pair` with a `String` and an `Integer` -/
def pairCall : Call :=
  ⟨"pair", none, [.ofLinks [.literal (.absolute "String")],
    .ofLinks [.literal (.absolute "Integer")]], none⟩

/-- The call on a `Foo`. -/
def pairChain : Chain :=
  .ofLinks [.literal (.absolute "Foo"), .call pairCall]

/-- Where the call is resolved. -/
def pairSite : LinkSite :=
  (pairChain.firstSite .root []).behind (.absolute "Foo")

def pairTys : List Ty :=
  [.absolute "String", .absolute "Integer"]

/-- What the method answers. -/
def pairAnswer : Pin :=
  Id.run ((siteOf pairing.infer pairCall pairSite).inferPin pairing.store pairSite (.absolute "Foo")
    pairTys pairMethod)

theorem run_methodsNamed_pairing :
    Id.run (pairing.store.methodsNamed (.absolute "Foo") "pair") = [pairMethod] := by
  have searched : pairing.store.framesWithin 9 (.absolute "Foo") =
      some [.make "Foo" .instanceLevel, .make "Object" .instanceLevel,
        .make "BasicObject" .instanceLevel] := rfl
  exact congrArg (List.flatMap _) (Store.receiverAncestors_of_within searched)

/-- The method answers the call with its overload, in which `T` is `String`. -/
theorem signatures_pairAnswer :
    pairAnswer.signatures = [(pairOverload.resolve ⟨some pairTys, none, none, none⟩ .empty).1] :=
  rfl

theorem fits_pairOverload : (siteOf pairing.infer pairCall pairSite).Fits .plain () pairing.store
    pairTys pairMethod pairOverload where
  arity := rfl
  arguments := ⟨(), rfl, trivial⟩

theorem not_isAncestorOrSelf_pairing :
    Id.run (pairing.store.isAncestorOrSelf "String" "Integer") = false :=
  Store.ancestors_of_within (f := (·.any (·.path == "String"))) 9 rfl

theorem found_mismatch?_pairing : SteadyRunner.plain.Found ()
    (Overload.mismatch? pairing.store pairMethod
      (pairOverload.resolve ⟨some pairTys, none, none, none⟩ .empty).1 pairTys)
    (some ⟨1, .absolute "String", .absolute "Integer"⟩) := by
  have member : Id.run (Overload.acceptsMember pairing.store (.absolute "String")
      (.absolute "Integer")) = false := not_isAncestorOrSelf_pairing
  have rejected : Id.run
      (Overload.accepts pairing.store (.absolute "String") (.absolute "Integer")) = false := by
    show Id.run (do
      match ← (do
        match ← Overload.acceptsMember pairing.store (.absolute "String") (.absolute "Integer") with
        | true => pure true
        | false => pure false : Id Bool) with
      | true => pure true
      | false => pure false : Id Bool) = false
    rw [Id.run_bind, Id.run_bind, member]
    rfl
  have second : Id.run (Overload.wrongArgument? pairing.store pairMethod.gates
      (pairOverload.resolve ⟨some pairTys, none, none, none⟩ .empty).1 1 (.absolute "Integer")) =
        some ⟨1, .absolute "String", .absolute "Integer"⟩ := by
    show Id.run (do
      let accepted ← Overload.accepts pairing.store (.absolute "String") (.absolute "Integer")
      if accepted then pure none
      else pure (some ⟨1, .absolute "String", .absolute "Integer"⟩) : Id (Option WrongArgument)) = _
    rw [Id.run_bind, rejected]
    rfl
  refine ⟨(), ?_, trivial⟩
  show Id.run (Overload.firstWrong? pairing.store pairMethod.gates _ 1 [.absolute "Integer"]) = _
  rw [Overload.firstWrong?, Id.run_bind, second]
  rfl

theorem reaches_pairing : pairing.Reaches .plain () false [.call pairCall] pairSite pairChain.links
    (pairChain.firstSite .root []) :=
  .step ⟨⟨(), rfl, trivial⟩, ⟨(), rfl, trivial⟩⟩ rfl .here

/-- The call is the only one that is reached. -/
theorem eq_of_reaches_pairing {c : Call} {rest : List Link} {site : LinkSite}
    (reaches : pairing.Reaches .plain () false (.call c :: rest) site pairChain.links
      (pairChain.firstSite .root [])) : c = pairCall ∧ site = pairSite := by
  generalize whole : pairChain.links = links at reaches
  cases reaches with
  | here => simp [pairChain, Chain.ofLinks] at whole
  | step resolves _ onward =>
    obtain ⟨rfl, rfl⟩ := List.cons.inj whole
    obtain rfl : [Pin.value (.absolute "Foo")] = _ :=
      SteadyRunner.eq_of_found_plain resolves.candidates
    obtain rfl : Ty.absolute "Foo" = _ := SteadyRunner.eq_of_found_plain resolves.receiver
    cases onward with
    | here => exact ⟨rfl, rfl⟩
    | step _ _ onward => cases onward

theorem eq_of_answered_pairing {declared answered : Pin}
    (answers : (siteOf pairing.infer pairCall pairSite).Answered .plain () pairing.store pairSite
      pairTys declared answered) : declared = pairMethod ∧ answered = pairAnswer := by
  cases answers with
  | visible listed _ => exact absurd listed List.not_mem_nil
  | method _ receives stacked evaluates =>
    cases receives with
    | superclass upward _ _ => exact absurd upward (by decide)
    | member _ inside methods =>
      obtain rfl := List.mem_singleton.mp inside
      obtain rfl := run_methodsNamed_pairing.symm.trans (SteadyRunner.eq_of_found_plain methods)
      obtain rfl := List.mem_singleton.mp stacked
      exact ⟨rfl, (SteadyRunner.eq_of_found_plain evaluates).symm⟩

theorem answered_pairing : (siteOf pairing.infer pairCall pairSite).Answered .plain () pairing.store
    pairSite pairTys pairMethod pairAnswer :=
  .method rfl
    (.member (by decide) (List.mem_singleton_self _) ⟨(), run_methodsNamed_pairing, trivial⟩)
    (List.mem_singleton_self _) ⟨(), rfl, trivial⟩

theorem refusesCall_pairing : pairing.RefusesCall .plain () pairCall pairSite pairTys where
  named := by decide
  arguments := ⟨(), rfl, trivial⟩
  overloaded := ⟨pairMethod, pairAnswer, answered_pairing, List.cons_ne_nil _ _⟩
  refused declared answered answers _ := by
    obtain ⟨rfl, rfl⟩ := eq_of_answered_pairing answers
    exact .narrowed (List.mem_singleton_self _) fits_pairOverload rfl signatures_pairAnswer
      found_mismatch?_pairing rfl rfl

/-- The call of `pair` is reported. -/
theorem check_misfit_iff_pairing :
    ∃ problem ∈ Id.run (pairing.check pairChain .root []), problem.kind.IsMisfit :=
  (check_misfit_iff .plain () pairing pairChain .root []
    (SteadyRunner.found_run (r := .plain) _ ())).1.mpr
      ⟨rfl, pairCall, [], pairSite, pairTys, reaches_pairing, refusesCall_pairing⟩

/-- The call of `pair` is the only one, it fits the overload of the method, and it is reported. -/
theorem not_unfit_of_isMisfit_pairing : ¬ ∀ (an : Analyzer) (chain : Chain) (lexical : Pin)
    (locals : List Pin),
    (∃ problem ∈ Id.run (an.check chain lexical locals), problem.kind.IsMisfit) →
      ∃ c rest site args, an.Reaches .plain () chain.nullable (.call c :: rest) site chain.links
          (chain.firstSite lexical locals) ∧
        SteadyRunner.plain.Found () (siteOf an.infer c site).argTys args ∧
        ∀ declared answered,
          (siteOf an.infer c site).Answered .plain () an.store site args declared answered →
          ∀ signature ∈ declared.signatures,
            ¬ (siteOf an.infer c site).Fits .plain () an.store args declared signature := by
  intro claimed
  rcases found_check (SteadyRunner.found_run (r := .plain) (pairing.check pairChain .root []) ())
    with ⟨undefined, -⟩ | ⟨-, problem, along, listed⟩
  · exact absurd undefined (by decide)
  obtain ⟨reported, rfl, misfit⟩ :=
    SteadyRunner.exists_isMisfit_of_reaches reaches_pairing refusesCall_pairing along
  have listed : Id.run (pairing.check pairChain .root []) = [reported] := listed
  obtain ⟨c, rest, site, args, reaches, inferred, unfit⟩ := claimed pairing pairChain .root []
    ⟨reported, listed ▸ List.mem_singleton_self _, misfit⟩
  obtain ⟨rfl, rfl⟩ := eq_of_reaches_pairing reaches
  obtain rfl : pairTys = args := SteadyRunner.eq_of_found_plain inferred
  exact unfit pairMethod pairAnswer answered_pairing pairOverload (List.mem_singleton_self _)
    fits_pairOverload

end Pairing

end Analyzer

end DuckInfer
