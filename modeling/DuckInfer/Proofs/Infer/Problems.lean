import DuckInfer.Proofs.Infer.Steady

/-!
Checking a chain against resolving it. Both follow the chain link by link, each in its own loop.
Main statement: where a name is reported as unresolved, the chain refers to nothing; and where a
chain refers to nothing, a problem is reported, or the way ends at a link about whose type nothing
is known, or at a variable, `super` or `yield` without candidates, which are never reported.
-/

namespace DuckInfer

/-- Nothing of that name was found. -/
def ProblemKind.IsUnresolved : ProblemKind → Prop
  | .unresolvedConstant _ _ | .unresolvedMethod _ _ _ => True
  | .arityMismatch _ _ _ | .argumentType _ _ => False

/-- A variable, `super` or `yield`. -/
inductive Link.IsSilent : Link → Prop where
  | variable (kind : VariableKind) (name : String) : IsSilent (.variable kind name)
  | call (c : Call) : c.word = "super" ∨ c.word = "yield" → IsSilent (.call c)

/-- Where the first link of a chain is resolved. -/
def Chain.firstSite (chain : Chain) (lexical : Pin) (locals : List Pin) : LinkSite :=
  ⟨lexical, lexical, locals, chain.location.map fun l => l.range.start, true⟩

/-- Where the next link is resolved, behind links with a known type. -/
def LinkSite.behind (cx : LinkSite) (t : Ty) : LinkSite :=
  { cx with receiver := .valueIn cx.lexical t, head := false }

namespace Analyzer

section

variable {m : Type → Type} [Monad m] [ConstantLookup m] {σ : Type} (r : SteadyRunner m σ) (s : σ)
  (an : Analyzer) (nullable : Bool)

/-- The pins are what the link may refer to, and `t` is their type as a receiver. -/
structure Resolves (link : Link) (cx : LinkSite) (pins : List Pin) (t : Ty) : Prop where
  candidates : r.Found s (linkCandidates an.store an.typeOf link cx) pins
  receiver : r.Found s (receiverTy an.typeOf nullable pins cx.locals) t

/-- From some links on, all links before the remaining ones have a known type, so that the first of
these is resolved in `site`. -/
inductive Reaches (rest : List Link) (site : LinkSite) : List Link → LinkSite → Prop where
  | here : Reaches rest site rest site
  | step {link : Link} {links : List Link} {cx : LinkSite} {pins : List Pin} {t : Ty} :
      an.Resolves r s nullable link cx pins t → t.isUndefined = false →
      Reaches rest site links (cx.behind t) → Reaches rest site (link :: links) cx

/-- A link before the last has candidates, about whose type nothing is known. -/
def EndsUntyped (links : List Link) (cx : LinkSite) : Prop :=
  ∃ link next rest site pins t, an.Reaches r s nullable (link :: next :: rest) site links cx ∧
    an.Resolves r s nullable link site pins t ∧ pins ≠ [] ∧ t.isUndefined = true

/-- The first link without candidates is a variable, `super` or `yield`. -/
def EndsSilent (links : List Link) (cx : LinkSite) : Prop :=
  ∃ link rest site, an.Reaches r s nullable (link :: rest) site links cx ∧
    r.Found s (linkCandidates an.store an.typeOf link site) [] ∧ link.IsSilent

end

end Analyzer

/-! ### Steadiness -/

namespace SteadyRunner

variable {m : Type → Type} [Monad m] [LawfulMonad m] [ConstantLookup m] {σ : Type}
  (r : SteadyRunner m σ) (an : Analyzer)

theorem steady_typeOf (pin : Pin) (locals : List Pin) : r.Steady (an.typeOf pin locals : m Ty) :=
  (r.lookups an.store).holds_typeOf pin locals

theorem steady_candidates (chain : Chain) (lexical : Pin) (locals : List Pin) :
    r.Steady (an.candidates chain lexical locals : m (List Pin)) :=
  (r.lookups an.store).holds_candidates chain lexical locals

theorem steady_infer (chain : Chain) (lexical : Pin) (locals : List Pin) :
    r.Steady (an.infer chain lexical locals : m Ty) :=
  (r.lookups an.store).holds_infer chain lexical locals

theorem steady_linkCandidates (link : Link) (cx : LinkSite) :
    r.Steady (linkCandidates (m := m) an.store an.typeOf link cx) :=
  (r.lookups an.store).holds_linkCandidates link cx

theorem steady_linksCandidates (nullable : Bool) (links : List Link) (cx : LinkSite) :
    r.Steady (linksCandidates (m := m) an.store an.typeOf nullable links cx) :=
  (r.lookups an.store).holds_linksCandidates nullable links cx

theorem steady_problemWith? (link : Link) (cx : LinkSite) (pins : List Pin) :
    r.Steady (an.problemWith? link cx pins : m (Option ProblemKind)) :=
  (r.lookups an.store).holds_problemWith? link cx pins

theorem steady_problemAlong? (chain : Chain) (links : List Link) (cx : LinkSite) :
    r.Steady (an.problemAlong? chain links cx : m (Option Problem)) :=
  (r.lookups an.store).holds_problemAlong? chain links cx

end SteadyRunner

namespace Analyzer

/-! ### Links without candidates -/

section

variable {m : Type → Type} [Monad m] [LawfulMonad m] [ConstantLookup m] {σ : Type}
  {r : SteadyRunner m σ} {s : σ} {an : Analyzer}

theorem Resolves.isUndefined_of_nil {nullable : Bool} {link : Link} {cx : LinkSite} {t : Ty}
    (resolves : an.Resolves r s nullable link cx [] t) : t.isUndefined = true := by
  have known := resolves.receiver
  simp only [receiverTy, unionOfPins, List.mapM_nil, pure_bind] at known
  rw [← known.of_pure]
  cases nullable <;> decide

omit [LawfulMonad m] in
/-- A link of a known form without candidates names something. -/
theorem named_of_found_nil {link : Link} {cx : LinkSite} (known : Chain.isUnknownLink link = false)
    (none : r.Found s (linkCandidates an.store an.typeOf link cx) []) :
    (∃ name, link = .constant name ∧ name.isEmpty = false) ∨ (∃ c, link = .call c) ∨
      ∃ kind name, link = .variable kind name := by
  have one : ∀ {pin : Pin}, r.Found s (pure [pin] : m (List Pin)) [] → False := by
    intro pin found
    exact absurd found.of_pure (List.cons_ne_nil pin [])
  cases link with
  | constant name =>
    refine Or.inl ⟨name, rfl, ?_⟩
    rw [← Bool.not_eq_true]
    intro root
    rw [linkCandidates, constantCandidates, if_pos root] at none
    split at none
    · exact one none
    · rename_i declared
      exact declared none.of_pure
  | call c => exact Or.inr (Or.inl ⟨c, rfl⟩)
  | «variable» kind name => exact Or.inr (Or.inr ⟨kind, name, rfl⟩)
  | array items =>
    rw [linkCandidates] at none
    obtain ⟨tys, -, last⟩ := none.of_bind fun _ => .pure _
    exact (one last).elim
  | hash entries =>
    rw [linkCandidates] at none
    obtain ⟨tys, -, last⟩ := none.of_bind fun _ => .pure _
    exact (one last).elim
  | literal t => exact (one none).elim
  | blockSymbol name => exact (one none).elim
  | receiver => exact (one none).elim
  | unknown => exact absurd known (by decide)

/-- A link without candidates that is not reported is silent. -/
theorem isSilent_of_not_reported {link : Link} {cx : LinkSite}
    (known : Chain.isUnknownLink link = false)
    (none : r.Found s (linkCandidates an.store an.typeOf link cx) [])
    (unreported : r.Found s (an.problemWith? link cx []) Option.none) : link.IsSilent := by
  rcases named_of_found_nil known none with ⟨name, rfl, named⟩ | ⟨c, rfl⟩ | ⟨kind, name, rfl⟩
  · simp only [problemWith?, named, Bool.not_false, List.isEmpty_nil, Bool.and_self, if_true]
      at unreported
    exact absurd unreported.of_pure (by simp)
  · by_cases word : c.word = "super" ∨ c.word = "yield"
    · exact .call c word
    · have plain : (c.word == "super" || c.word == "yield") = false := by
        simpa using word
      simp only [problemWith?, plain, List.isEmpty_nil, if_true, Bool.false_eq_true, if_false]
        at unreported
      obtain ⟨kind, -, reported⟩ := unreported.of_map
      exact absurd reported (by simp)
  · exact .variable kind name

/-- Wrong arguments do not count as unresolved. -/
theorem not_isUnresolved_of_ofOutcomes {word : String} {given : Nat} {pins : List Pin}
    {outcomes : List OverloadOutcome} {kind : ProblemKind}
    (reported : Problem.ofOutcomes word given pins outcomes = some kind) : ¬ kind.IsUnresolved := by
  unfold Problem.ofOutcomes at reported
  split at reported
  · exact absurd reported (by simp)
  · split at reported <;> cases reported <;> exact id

/-- Only a link without candidates is reported as unresolved. -/
theorem eq_nil_of_isUnresolved {link : Link} {cx : LinkSite} {pins : List Pin} {kind : ProblemKind}
    (reported : r.Found s (an.problemWith? link cx pins) (some kind))
    (unresolved : kind.IsUnresolved) : pins = [] := by
  unfold problemWith? at reported
  split at reported
  · split at reported
    · rename_i none
      exact List.isEmpty_iff.mp (Bool.and_eq_true_iff.mp none).2
    · exact absurd reported.of_pure (by simp)
  · split at reported
    · exact absurd reported.of_pure (by simp)
    · split at reported
      · rename_i none
        exact List.isEmpty_iff.mp none
      · obtain ⟨args, -, rest⟩ := reported.of_bind fun args =>
          .bind (.mapM fun pin _ => r.steady_select? an.store pin _ args) fun _ => .pure _
        obtain ⟨outcomes, -, last⟩ := rest.of_bind fun _ => .pure _
        exact absurd unresolved (not_isUnresolved_of_ofOutcomes last.of_pure)
  · exact absurd reported.of_pure (by simp)

end

/-! ### Two ways along the links -/

section

variable {m : Type → Type} [Monad m] [ConstantLookup m] {σ : Type} {r : SteadyRunner m σ} {s : σ}
  {an : Analyzer} {nullable : Bool} {link : Link} {links : List Link} {cx : LinkSite}
  {pins : List Pin} {t : Ty}

theorem EndsUntyped.step (resolves : an.Resolves r s nullable link cx pins t)
    (known : t.isUndefined = false) (ends : an.EndsUntyped r s nullable links (cx.behind t)) :
    an.EndsUntyped r s nullable (link :: links) cx := by
  obtain ⟨l, next, rest, site, found, u, reaches, more⟩ := ends
  exact ⟨l, next, rest, site, found, u, .step resolves known reaches, more⟩

theorem EndsSilent.step (resolves : an.Resolves r s nullable link cx pins t)
    (known : t.isUndefined = false) (ends : an.EndsSilent r s nullable links (cx.behind t)) :
    an.EndsSilent r s nullable (link :: links) cx := by
  obtain ⟨l, rest, site, reaches, more⟩ := ends
  exact ⟨l, rest, site, .step resolves known reaches, more⟩

variable [LawfulMonad m] {chain : Chain}

omit [LawfulMonad m] in
theorem problemAlong?_cons (an : Analyzer) (chain : Chain) (link : Link) (links : List Link)
    (cx : LinkSite) :
    (an.problemAlong? chain (link :: links) cx : m (Option Problem)) = (do
      let pins ← linkCandidates an.store an.typeOf link cx
      let kind ← an.problemWith? link cx pins
      kind.elim
        (do
          let t ← receiverTy an.typeOf chain.nullable pins cx.locals
          if t.isUndefined then pure none
          else an.problemAlong? chain links (cx.behind t))
        fun kind => pure (some ⟨Problem.locationOf link chain, kind⟩)) := by
  rw [problemAlong?]
  refine bind_congr fun pins => bind_congr fun kind => ?_
  cases kind <;> rfl

/-- What was found by checking some links: a problem with the first, or its type, and then what was
found by checking the others. -/
theorem found_problemAlong?_cons {problem : Option Problem}
    (checked : r.Found s (an.problemAlong? chain (link :: links) cx) problem) :
    ∃ pins, r.Found s (linkCandidates an.store an.typeOf link cx) pins ∧
      ((∃ kind, r.Found s (an.problemWith? link cx pins) (some kind) ∧
          problem = some ⟨Problem.locationOf link chain, kind⟩) ∨
        r.Found s (an.problemWith? link cx pins) none ∧
          ∃ t, an.Resolves r s chain.nullable link cx pins t ∧
            (t.isUndefined = true ∧ problem = none ∨ t.isUndefined = false ∧
              r.Found s (an.problemAlong? chain links (cx.behind t)) problem)) := by
  have onward : ∀ pins (kind : Option ProblemKind), r.Steady (kind.elim
      (do
        let t ← receiverTy an.typeOf chain.nullable pins cx.locals
        if t.isUndefined then pure none
        else an.problemAlong? chain links (cx.behind t) : m (Option Problem))
      fun kind => pure (some ⟨Problem.locationOf link chain, kind⟩)) := by
    intro pins kind
    cases kind with
    | some kind => exact .pure _
    | none =>
      exact .bind (r.steady_receiverTy (r.steady_typeOf an) chain.nullable pins cx.locals) fun t =>
        .ite (.pure none) (r.steady_problemAlong? an chain links _)
  rw [problemAlong?_cons] at checked
  obtain ⟨pins, candidates, checked⟩ := checked.of_bind fun pins =>
    .bind (r.steady_problemWith? an link cx pins) (onward pins)
  obtain ⟨kind, reported, checked⟩ := checked.of_bind (onward pins)
  refine ⟨pins, candidates, ?_⟩
  cases kind with
  | some kind => exact Or.inl ⟨kind, reported, checked.of_pure.symm⟩
  | none =>
    obtain ⟨t, receiver, checked⟩ := checked.of_bind fun t =>
      .ite (.pure none) (r.steady_problemAlong? an chain links _)
    refine Or.inr ⟨reported, t, ⟨candidates, receiver⟩, ?_⟩
    cases undefined : t.isUndefined with
    | true =>
      rw [if_pos undefined] at checked
      exact Or.inl ⟨rfl, checked.of_pure.symm⟩
    | false =>
      rw [if_neg (by simp [undefined])] at checked
      exact Or.inr ⟨rfl, checked⟩

/-- What was found by resolving several links: nothing if the first has no known type, else what was
found by resolving the others. -/
theorem found_linksCandidates_cons {next : Link}
    (resolved : r.Found s (linksCandidates an.store an.typeOf nullable (link :: next :: links) cx)
      pins) :
    ∃ first t, an.Resolves r s nullable link cx first t ∧
      (t.isUndefined = true ∧ pins = [] ∨ t.isUndefined = false ∧
        r.Found s (linksCandidates an.store an.typeOf nullable (next :: links) (cx.behind t))
          pins) := by
  have onward : ∀ t : Ty, r.Steady (if t.isUndefined then pure []
      else linksCandidates an.store an.typeOf nullable (next :: links) (cx.behind t) :
        m (List Pin)) :=
    fun t => .ite (.pure []) (r.steady_linksCandidates an nullable _ _)
  rw [linksCandidates] at resolved
  obtain ⟨first, candidates, resolved⟩ := resolved.of_bind fun first =>
    .bind (r.steady_receiverTy (r.steady_typeOf an) nullable first cx.locals) onward
  obtain ⟨t, receiver, resolved⟩ := resolved.of_bind onward
  refine ⟨first, t, ⟨candidates, receiver⟩, ?_⟩
  cases undefined : t.isUndefined with
  | true =>
    rw [if_pos undefined] at resolved
    exact Or.inl ⟨rfl, resolved.of_pure.symm⟩
  | false =>
    rw [if_neg (by simp [undefined])] at resolved
    exact Or.inr ⟨rfl, resolved⟩

/-- Both ways give a link the same candidates and the same type. -/
theorem Resolves.unique {first second : List Pin} {u : Ty}
    (resolves : an.Resolves r s nullable link cx first t)
    (resolves' : an.Resolves r s nullable link cx second u) : first = second ∧ t = u := by
  obtain rfl := (r.steady_linkCandidates an link cx).unique resolves.candidates
    resolves'.candidates
  exact ⟨rfl, (r.steady_receiverTy (r.steady_typeOf an) nullable first cx.locals).unique
    resolves.receiver resolves'.receiver⟩

/-- Links that are reported as unresolved refer to nothing. -/
theorem eq_nil_of_unresolved {problem : Problem}
    (checked : r.Found s (an.problemAlong? chain links cx) (some problem))
    (unresolved : problem.kind.IsUnresolved)
    (resolved : r.Found s (linksCandidates an.store an.typeOf chain.nullable links cx) pins) :
    pins = [] := by
  induction links generalizing cx with
  | nil => exact absurd checked.of_pure (by simp)
  | cons link rest ih =>
    obtain ⟨found, candidates, here | ⟨-, t, resolves, onward⟩⟩ := found_problemAlong?_cons checked
    · obtain ⟨kind, reported, same⟩ := here
      cases same
      obtain rfl := eq_nil_of_isUnresolved reported unresolved
      cases rest with
      | nil => exact (r.steady_linkCandidates an link cx).unique resolved candidates
      | cons next rest =>
        obtain ⟨first, t, resolves, ends⟩ := found_linksCandidates_cons resolved
        obtain rfl := (r.steady_linkCandidates an link cx).unique candidates resolves.candidates
        rcases ends with ⟨-, none⟩ | ⟨known, -⟩
        · exact none
        · exact absurd (resolves.isUndefined_of_nil.symm.trans known) (by simp)
    · rcases onward with ⟨-, none⟩ | ⟨known, checked⟩
      · exact absurd none (by simp)
      · cases rest with
        | nil => exact absurd checked.of_pure (by simp)
        | cons next rest =>
          obtain ⟨first, u, resolves', ends⟩ := found_linksCandidates_cons resolved
          obtain ⟨rfl, rfl⟩ := resolves.unique resolves'
          rcases ends with ⟨unknown, -⟩ | ⟨-, resolved⟩
          · exact absurd (unknown.symm.trans known) (by simp)
          · exact ih checked resolved

/-- Links that refer to nothing without a report end at a link without a known type, or at a silent
one. -/
theorem ends_of_unreported (nonempty : links ≠ [])
    (known : ∀ link ∈ links, Chain.isUnknownLink link = false)
    (checked : r.Found s (an.problemAlong? chain links cx) none)
    (resolved : r.Found s (linksCandidates an.store an.typeOf chain.nullable links cx) []) :
    an.EndsUntyped r s chain.nullable links cx ∨ an.EndsSilent r s chain.nullable links cx := by
  induction links generalizing cx with
  | nil => exact absurd rfl nonempty
  | cons link rest ih =>
    obtain ⟨found, candidates, ⟨kind, -, same⟩ | ⟨unreported, t, resolves, onward⟩⟩ :=
      found_problemAlong?_cons checked
    · exact absurd same (by simp)
    -- a link without candidates that is not reported is silent, wherever it stands
    · by_cases none : found = []
      · subst none
        exact Or.inr ⟨link, rest, cx, .here, candidates,
          isSilent_of_not_reported (known link List.mem_cons_self) candidates unreported⟩
      · cases rest with
        | nil =>
          exact absurd ((r.steady_linkCandidates an link cx).unique candidates resolved) none
        | cons next rest =>
          obtain ⟨first, u, resolves', ends⟩ := found_linksCandidates_cons resolved
          obtain ⟨rfl, rfl⟩ := resolves.unique resolves'
          rcases ends with ⟨unknown, -⟩ | ⟨typed, resolved⟩
          · exact Or.inl ⟨link, next, rest, cx, found, t, .here, resolves, none, unknown⟩
          · rcases onward with ⟨unknown, -⟩ | ⟨-, checked⟩
            · exact absurd (unknown.symm.trans typed) (by simp)
            · exact (ih (by simp) (fun l member => known l (List.mem_cons_of_mem _ member)) checked
                resolved).imp (.step resolves typed) (.step resolves typed)

/-- Checking reports one problem at most. Where it reports an unresolved name, the chain was found
to refer to nothing and to have no known type. Where a chain of known links was found to refer to
nothing, a problem is reported, or the chain ends at a link whose candidates have no known type, or
at a variable, `super` or `yield` without candidates. It does not matter in which order this was
asked, and what was asked besides. -/
theorem check_agrees_candidates (r : SteadyRunner m σ) (s : σ) (an : Analyzer) (chain : Chain)
    (lexical : Pin) (locals : List Pin) {problems : List Problem} {pins : List Pin} {t : Ty}
    (checked : r.Found s (an.check chain lexical locals) problems)
    (resolved : r.Found s (an.candidates chain lexical locals) pins)
    (inferred : r.Found s (an.infer chain lexical locals) t) :
    problems.length ≤ 1 ∧
      (∀ problem ∈ problems, problem.kind.IsUnresolved → pins = [] ∧ t = .undefined) ∧
      (chain.isUndefined = false → pins = [] →
        problems ≠ [] ∨
          an.EndsUntyped r s chain.nullable chain.links (chain.firstSite lexical locals) ∨
            an.EndsSilent r s chain.nullable chain.links (chain.firstSite lexical locals)) := by
  have untyped : pins = [] → t = .undefined := by
    rintro rfl
    obtain ⟨found, candidates, typed⟩ := inferred.of_bind fun found =>
      r.steady_chainTy (r.steady_typeOf an) chain.nullable found locals
    obtain rfl := (r.steady_candidates an chain lexical locals).unique resolved candidates
    rw [chainTy_undefined (by simp)] at typed
    exact typed.of_pure.symm
  unfold check at checked
  cases undefined : chain.isUndefined with
  | true =>
    rw [if_pos undefined] at checked
    obtain rfl := checked.of_pure
    exact ⟨Nat.zero_le 1, by simp, by simp⟩
  | false =>
    rw [if_neg (by simp [undefined])] at checked
    obtain ⟨nonempty, known⟩ : chain.links ≠ [] ∧ chain.links.any Chain.isUnknownLink = false := by
      simpa [Chain.isUndefined] using undefined
    obtain ⟨problem, along, listed⟩ := checked.of_bind fun _ => .pure _
    obtain rfl := listed.of_pure
    have followed : r.Found s (linksCandidates an.store an.typeOf chain.nullable chain.links
        (chain.firstSite lexical locals)) pins := by
      obtain ⟨links, location, nullable⟩ := chain
      rw [candidates, candidatesWith, if_neg (by simpa using known)] at resolved
      exact resolved
    refine ⟨?_, fun reported member unresolved => ?_, fun _ none => ?_⟩
    · cases problem <;> simp
    · obtain rfl : problem = some reported := by simpa using member
      have none := eq_nil_of_unresolved along unresolved followed
      exact ⟨none, untyped none⟩
    · subst none
      cases problem with
      | some problem => exact Or.inl (by simp)
      | none =>
        exact Or.inr (ends_of_unreported nonempty (by simpa using known) along followed)

end

section Misspelled

/-- A store with a class `Foo`. -/
def withFoo : Analyzer :=
  ⟨.ofGroups [("a.rb", [.root, .make "Foo" (some .root) (.space false [])])], defaultBudget⟩

/-- `Fooo.new` -/
def misspelled : Chain :=
  .ofLinks [.constant "Fooo", .call (.bare "new")]

/-- A misspelled constant is reported, and the call behind it refers to nothing. -/
theorem check_agrees_misspelled : ∃ s problems pins t,
    (SteadyRunner.remembering.Found s (withFoo.check misspelled .root []) problems ∧
      SteadyRunner.remembering.Found s (withFoo.candidates misspelled .root []) pins ∧
      SteadyRunner.remembering.Found s (withFoo.infer misspelled .root []) t) ∧
    problems.map Problem.message = ["unresolved constant `Fooo`, did you mean `Foo`?"] ∧
    problems.length ≤ 1 ∧
      (∀ problem ∈ problems, problem.kind.IsUnresolved → pins = [] ∧ t = .undefined) ∧
      (misspelled.isUndefined = false → pins = [] →
        problems ≠ [] ∨
          withFoo.EndsUntyped SteadyRunner.remembering s misspelled.nullable misspelled.links
              (misspelled.firstSite .root []) ∨
            withFoo.EndsSilent SteadyRunner.remembering s misspelled.nullable misspelled.links
              (misspelled.firstSite .root [])) := by
  let r := SteadyRunner.remembering
  let checked := r.run (withFoo.check misspelled .root []) .empty
  let resolved := r.run (withFoo.candidates misspelled .root []) checked.2
  let inferred := r.run (withFoo.infer misspelled .root []) resolved.2
  have behindResolved : r.Later resolved.2 inferred.2 :=
    (r.steady_infer withFoo misspelled .root []).later resolved.2
  have behindChecked : r.Later checked.2 inferred.2 :=
    r.later_trans ((r.steady_candidates withFoo misspelled .root []).later checked.2) behindResolved
  have check := (r.found_run (withFoo.check misspelled .root []) .empty).mono behindChecked
  have candidates :=
    (r.found_run (withFoo.candidates misspelled .root []) checked.2).mono behindResolved
  have infer := r.found_run (withFoo.infer misspelled .root []) resolved.2
  exact ⟨inferred.2, checked.1, resolved.1, inferred.1, ⟨check, candidates, infer⟩,
    by decide +kernel,
    check_agrees_candidates r _ withFoo misspelled .root [] check candidates infer⟩

end Misspelled

end Analyzer

end DuckInfer
