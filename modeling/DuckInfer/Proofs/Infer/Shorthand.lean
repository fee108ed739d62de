import DuckInfer.Proofs.Infer.EdgeValues
import DuckInfer.Proofs.Infer.Unions

/-!
The block `&:name` beside a call of the method on the value that the block gets. The shorthand takes
what the first method of the first member states for all its overloads. The call asks every method
of every member, selects an overload of each, and puts the receiver for `self`. Main statement: if
the overload that the call selects of the first method returns what the method states, without
mention of `self`, both give the same type exactly if all other methods add nothing to it; and for a
method that returns `self` they never do.
-/

namespace DuckInfer

/-! ### The shorthand -/

/-- A call on a value of some type. -/
def Chain.calling (receiver : Ty) (c : Call) (location : Option Location) : Chain :=
  ⟨[.literal receiver, .call c], location, false⟩

/-- A message without arguments to a value of some type. -/
def Chain.message (receiver : Ty) (word : String) : Chain :=
  .ofLinks [.literal receiver, .call (.bare word)]

/-- The first method of the first member of a receiver, beside others, answers a message by an
overload without open generics, to a known type. -/
structure Analyzer.Leads {m : Type → Type} [Monad m] [ConstantLookup m] {σ : Type}
    (r : SteadyRunner m σ) (s : σ) (an : Analyzer) (cx : LinkSite) (receiver : Ty) (word : String)
    (method : Pin) (others : List Pin) (overload : Signature) : Prop where
  methods : r.Found s (an.store.methodsNamed receiver.first word) (method :: others)
  selected : (siteOf an.infer (.bare word) cx).Selects r s an.store cx (.single receiver.first) []
    method overload
  ground : overload.returns.isGeneric = false
  silent : (Ty.single receiver.first).mentionsSelf = false
  unreserved : ∀ name, r.answers s an.store method.gates name ≠ some "self"
  known : (r.meaning s an.store (.single receiver.first) method.gates
    overload.returns).isUndefined = false
  ordinary : method.path ≠ "Class#new"

/-- The types that other methods of the first member of a receiver, and all methods of the other
members, evaluate to. -/
def Analyzer.Besides {m : Type → Type} [Monad m] [ConstantLookup m] {σ : Type}
    (r : SteadyRunner m σ) (s : σ) (an : Analyzer) (cx : LinkSite) (receiver : Ty) (word : String)
    (others : List Pin) (tys : List Ty) : Prop :=
  ∃ own answers,
    List.Forall₂ (fun other answered => r.Found s ((siteOf an.infer (.bare word) cx).inferPin
      an.store cx (.single receiver.first) [] other) answered) others own ∧
    List.Forall₂ ((siteOf an.infer (.bare word) cx).AnswersFor r s an.store cx) receiver.rest
      answers ∧
    r.Evaluate s an cx.locals (own ++ answers.flatten) tys

namespace SteadyRunner

variable {m : Type → Type} [Monad m] [ConstantLookup m] {σ : Type} {r : SteadyRunner m σ} {s : σ}

/-- The shorthand gives what the first method of the first member states, if there is one. -/
theorem found_symbolTy {store : Store} {signature : Signature} {name : String} {context t : Ty}
    (known : (signature.blockParamTy 0).isUndefined = false)
    (ground : (signature.blockParamTy 0).isGeneric = false)
    (found : r.Found s (CallSite.symbolTy store signature name context) t) :
    ∃ stack, r.Found s (store.methodsNamed (signature.blockParamTy 0).first name) stack ∧
      t = match stack with
        | [] => .undefined
        | method :: _ => method.returnTy.qualify (r.answers s store method.gates) := by
  have receiver : CallSite.symbolReceiver? signature context =
      some (signature.blockParamTy 0).first := by
    simp [CallSite.symbolReceiver?, known, ground]
  unfold CallSite.symbolTy at found
  rw [receiver] at found
  obtain ⟨stack, methods, stated⟩ := found.of_bind fun stack => by
    cases stack with
    | nil => exact .pure _
    | cons method stack => exact r.steady_qualify store _ _
  refine ⟨stack, methods, ?_⟩
  cases stack with
  | nil => exact stated.of_pure.symm
  | cons method stack => exact found_qualify stated

/-! ### The call -/

variable [LawfulMonad m] {an : Analyzer}

/-- A literal evaluates to its type, if that is written with absolute names. -/
theorem eq_of_resolves_literal {receiver t : Ty} {cx : LinkSite} {pins : List Pin}
    (normal : receiver.Normal) (rooted : receiver.isAbsolute = true)
    (known : receiver.isUndefined = false)
    (resolves : an.Resolves r s false (.literal receiver) cx pins t) : t = receiver := by
  have literal : r.Found s (pure [.value receiver] : m (List Pin)) pins := resolves.candidates
  obtain rfl := literal.of_pure
  obtain ⟨u, union, received⟩ := resolves.receiver.of_bind fun _ => .pure _
  obtain rfl : u = t := received.of_pure
  obtain ⟨tys, each, joined⟩ := union.of_bind fun _ => .pure _
  have inStep := each.of_mapM fun pin => r.steady_typeOf an pin cx.locals
  cases inStep with
  | @cons _ v _ _ evaluates rest =>
    cases rest
    rcases found_typeOf rfl rfl evaluates with ⟨unknown, -⟩ | ⟨-, rfl⟩
    · exact absurd (unknown.symm.trans known) (by simp)
    · have same : Ty.knownUnion [receiver.qualify
          (r.answers s an.store (Pin.value receiver).gates)] = u := joined.of_pure
      rw [← same, Ty.qualify_of_isAbsolute normal rooted]
      exact Ty.knownUnion_of_known normal.distinct known

/-- A chain that makes a call on a literal has the type of the call behind the type of the
literal. -/
theorem found_callTy_of_calling {receiver u : Ty} {c : Call} {location : Option Location}
    {lexical : Pin} {locals : List Pin} (normal : receiver.Normal)
    (rooted : receiver.isAbsolute = true) (known : receiver.isUndefined = false)
    (found : r.Found s (an.infer (.calling receiver c location) lexical locals) u) :
    r.Found s (an.callTy c ((Chain.calling receiver c location).firstSite lexical locals)
      receiver) u := by
  obtain ⟨pins, candidates, typed⟩ := found.of_bind fun pins =>
    r.steady_chainTy (r.steady_typeOf an) false pins locals
  have formed : ¬ [Link.literal receiver, .call c].any Chain.isUnknownLink = true := by
    simp [Chain.isUnknownLink]
  have resolved : r.Found s (linksCandidates an.store an.typeOf false
      [.literal receiver, .call c]
      ((Chain.calling receiver c location).firstSite lexical locals)) pins := by
    rw [Chain.calling, candidatesWith, if_neg formed] at candidates
    exact candidates
  obtain ⟨first, t, resolves, later⟩ := Analyzer.found_linksCandidates_cons resolved
  obtain rfl := eq_of_resolves_literal normal rooted known resolves
  obtain ⟨unknown, -⟩ | ⟨-, later⟩ := later
  · exact absurd (unknown.symm.trans known) (by simp)
  · obtain ⟨v, joined, whole⟩ := typed.of_bind fun _ => .pure _
    obtain rfl : v = u := whole.of_pure
    exact .bind (r.steady_linkCandidates an _ _)
      (fun pins => r.steady_unionOfPins (r.steady_typeOf an) pins _) later joined

/-- A chain that sends a message to a literal has the type of the call behind the type of the
literal. -/
theorem found_callTy_of_message {receiver u : Ty} {word : String} {lexical : Pin}
    {locals : List Pin} (normal : receiver.Normal) (rooted : receiver.isAbsolute = true)
    (known : receiver.isUndefined = false)
    (found : r.Found s (an.infer (.message receiver word) lexical locals) u) :
    r.Found s (an.callTy (.bare word) ((Chain.message receiver word).firstSite lexical locals)
      receiver) u :=
  found_callTy_of_calling normal rooted known found

omit [LawfulMonad m] in
theorem eq_nil_of_besides {cx : LinkSite} {receiver : Ty} {word : String} {tys : List Ty}
    (besides : an.Besides r s cx receiver word [] tys) (single : receiver.rest = []) :
    tys = [] := by
  obtain ⟨own, answers, each, answered, inStep⟩ := besides
  cases each
  rw [single] at answered
  cases answered
  cases inStep
  rfl

/-- The type of a message is the union of what the overload means that the first method of the first
member selects, and of what all other methods evaluate to. -/
theorem found_callTy_of_leads {cx : LinkSite} {receiver u : Ty} {word : String} {method : Pin}
    {others : List Pin} {overload : Signature} (named : word ≠ "super" ∧ word ≠ "yield")
    (normal : receiver.Normal) (rooted : receiver.isAbsolute = true)
    (leads : an.Leads r s cx receiver word method others overload)
    (found : r.Found s (an.callTy (.bare word) cx receiver) u) :
    ∃ tys, an.Besides r s cx receiver word others tys ∧
      u = Ty.knownUnion
        (r.meaning s an.store (.single receiver.first) method.gates overload.returns :: tys) := by
  obtain ⟨block, arguments⟩ := r.steady_siteOf an (.bare word) cx
  obtain ⟨answers, answered, made⟩ := found_callTy_named named normal rooted found
  have present : ¬ (Call.bare word).Instantiates r s an.store receiver := by
    intro instantiates
    have none := instantiates.missing receiver.first List.mem_cons_self
    have empty := (r.steady_methodsNamed an.store _ _).unique leads.methods none
    exact absurd empty (List.cons_ne_nil _ _)
  obtain ⟨-, all, inStep, -, rfl⟩ := made.resolve_left fun yes => present yes.1
  cases answered with
  | @cons _ pins _ answers first members =>
    obtain ⟨stack, listed, evaluated⟩ := first
    obtain rfl := (r.steady_methodsNamed an.store _ _).unique leads.methods listed
    rcases found_inferPins block evaluated with ⟨none, -⟩ | ⟨args, inferred, each⟩
    · exact absurd none (List.cons_ne_nil _ _)
    obtain rfl : [] = args := inferred.of_pure
    cases each with
    | @cons _ answer _ own evaluates each =>
      obtain ⟨reduced, rfl, gates, isMethod⟩ := found_inferPin_selected block leads.selected rfl
        leads.ground leads.silent leads.unreserved leads.known leads.ordinary evaluates
      have isMethod : reduced.isMethod = true :=
        isMethod.trans (isMethod_of_found_methodsNamed leads.methods List.mem_cons_self)
      cases inStep with
      | @cons _ v _ tys typed evaluate =>
        refine ⟨tys, ⟨own, answers, each, members, evaluate⟩, ?_⟩
        rcases found_typeOf_proxied isMethod typed with ⟨unknown, -⟩ | ⟨-, rfl⟩
        · exact absurd (unknown.symm.trans leads.known) (by simp)
        · -- the names are looked up twice in the same gates
          rw [gates]
          exact congrArg (fun v => Ty.knownUnion (v :: tys)) (Ty.qualify_qualify _ _)

omit [LawfulMonad m] in
theorem distinct_meaning (store : Store) (receiver : Ty) (gates : List String) (t : Ty) :
    (r.meaning s store receiver gates t).Distinct := by
  rw [meaning, Ty.qualify_eq, Ty.rebuild_eq]
  exact Ty.distinct_unionAll _

/-- The block `&:name`, for a block that gets a value of some type, beside the message `name` to
this value. The block has the type that the first method of the first member states. The message has
the union of what the overload means that it selects of this method, and of what all other methods
evaluate to. If the overload returns what the method states, without mention of `self`, both are the
same exactly if the other methods add no members of other tags, and so if there are none. If the
method states `self`, they differ. -/
theorem symbolTy_eq_infer_iff {signature overload : Signature} {receiver context t u : Ty}
    {name : String} {lexical method : Pin} {locals others : List Pin}
    (yielded : signature.blockParamTy 0 = receiver) (normal : receiver.Normal)
    (rooted : receiver.isAbsolute = true) (known : receiver.isUndefined = false)
    (ground : receiver.isGeneric = false) (named : name ≠ "super" ∧ name ≠ "yield")
    (leads : an.Leads r s ((Chain.message receiver name).firstSite lexical locals) receiver name
      method others overload)
    (short : r.Found s (CallSite.symbolTy an.store signature name context) t)
    (full : r.Found s (an.infer (.message receiver name) lexical locals) u) :
    t = method.returnTy.qualify (r.answers s an.store method.gates) ∧
      ∃ tys, an.Besides r s ((Chain.message receiver name).firstSite lexical locals) receiver name
          others tys ∧
        u = Ty.knownUnion
          (r.meaning s an.store (.single receiver.first) method.gates overload.returns :: tys) ∧
        (method.returnTy = overload.returns → overload.returns.mentionsSelf = false →
          (t = u ↔ ∀ v ∈ tys, v.isUndefined = false →
            ∀ member ∈ v.members, member.tag ∈ t.members.map Member.tag) ∧
          (others = [] → receiver.rest = [] → t = u)) ∧
        (method.returnTy = .self → t ≠ u) := by
  subst yielded
  obtain ⟨stack, methods, rfl⟩ := found_symbolTy known ground short
  obtain rfl := (r.steady_methodsNamed an.store _ _).unique leads.methods methods
  obtain ⟨tys, besides, rfl⟩ := found_callTy_of_leads named normal rooted leads
    (found_callTy_of_message normal rooted known full)
  refine ⟨rfl, tys, besides, rfl, fun stated silent => ?_, fun stated => ?_⟩
  · have answer : method.returnTy.qualify (r.answers s an.store method.gates) =
        r.meaning s an.store (.single (signature.blockParamTy 0).first) method.gates
          overload.returns := by
      rw [meaning, Ty.selfTo_of_not_mentionsSelf silent, stated]
    have iff := Ty.knownUnion_cons_eq_iff (distinct_meaning _ _ _ _) leads.known tys
    dsimp only
    rw [answer, eq_comm]
    refine ⟨iff, fun alone single => iff.mpr ?_⟩
    subst alone
    rw [eq_nil_of_besides besides single]
    exact fun _ listed => absurd listed List.not_mem_nil
  · intro same
    have front := Ty.members_prefix_unionAll (distinct_meaning (r := r) (s := s) an.store
      (.single (signature.blockParamTy 0).first) method.gates overload.returns)
      (tys.filter (!·.isUndefined))
    dsimp only at same
    rw [← Ty.knownUnion_cons_of_known leads.known, ← same, stated] at front
    have silent := mentionsSelf_meaning leads.unreserved leads.ground leads.silent
    obtain ⟨member, listed⟩ := List.exists_mem_of_ne_nil _ (Ty.members_ne_nil _)
    have alone : member ∈ [Member.named "self"] := front.subset listed
    have own : member.isSelf = true := List.mem_singleton.mp alone ▸ rfl
    exact absurd own (by simp [(Ty.anyMember_eq_false.mp silent member listed).1])

end SteadyRunner

section Messages

/-- A signature with a block that gets a `Foo`. -/
def yieldingFoo : Signature :=
  ⟨[], [], .undefined, some ⟨[], [⟨"x", .required, .absolute "Foo"⟩], .undefined, none⟩⟩

/-- The only method of a name that a `Foo` has. -/
theorem methodsNamed_foo {an : Analyzer} {word : String} {method : Pin} {frames : List Frame}
    (within : an.store.framesWithin 30 (.absolute "Foo") = some frames)
    (only : frames.flatMap (an.store.frameMethods word) = [method]) :
    SteadyRunner.plain.Found () (an.store.methodsNamed (.absolute "Foo") word) [method] := by
  have searched := Store.receiverAncestors_of_within within
  exact only ▸ SteadyRunner.found_methodsNamed_of_found ⟨(), searched, trivial⟩

/-- `Foo#size`, which returns a `String`. -/
def sizeOfFoo : Pin :=
  .make "size" (some (.make "Foo" (some .root) (.space false [])))
    (.method .instanceLevel .everyone [.returning (.absolute "String")])

/-- For a method with one overload, which returns a `String`, the block `&:size` has the type of the
message. -/
theorem symbolTy_eq_infer_sizedSpaces :
    Id.run (CallSite.symbolTy sizedSpaces.store yieldingFoo "size" .undefined) =
      Id.run (sizedSpaces.infer (.message (.absolute "Foo") "size") .root []) := by
  have within : ∃ frames, sizedSpaces.store.framesWithin 30 (.absolute "Foo") = some frames ∧
      frames.flatMap (sizedSpaces.store.frameMethods "size") = [sizeOfFoo] := ⟨_, rfl, rfl⟩
  obtain ⟨frames, within, only⟩ := within
  have leads : sizedSpaces.Leads .plain ()
      ((Chain.message (.absolute "Foo") "size").firstSite .root []) (.absolute "Foo") "size"
      sizeOfFoo [] (.returning (.absolute "String")) :=
    { methods := methodsNamed_foo within only
      selected := ⟨[], [], rfl, ⟨rfl, (), rfl, trivial⟩, by simp⟩
      ground := rfl
      silent := rfl
      unreserved := fun name found =>
        absurd (Store.hasConstant_of_resolve? found) (by decide +kernel)
      known := rfl
      ordinary := by decide +kernel }
  have yielded : yieldingFoo.blockParamTy 0 = .absolute "Foo" := rfl
  have short := SteadyRunner.found_run (r := .plain)
    (CallSite.symbolTy sizedSpaces.store yieldingFoo "size" .undefined) ()
  have full := SteadyRunner.found_run (r := .plain)
    (sizedSpaces.infer (.message (.absolute "Foo") "size") .root []) ()
  obtain ⟨-, tys, -, -, agree, -⟩ := SteadyRunner.symbolTy_eq_infer_iff yielded
    (Ty.normal_absolute "Foo") rfl rfl rfl (by decide) leads short full
  have stated : sizeOfFoo.returnTy = .absolute "String" := rfl
  exact (agree stated rfl).2 rfl rfl

/-- `Foo#me` returns `self`. -/
def selfReturningFoo : Analyzer :=
  fooAndBar fun foo _ =>
    [.make "me" (some foo) (.method .instanceLevel .everyone [.returning .self])]

/-- For a method that returns `self`, the block `&:me` has the type `self`, and the message has the
type of the receiver. -/
theorem symbolTy_ne_infer_selfReturningFoo : ¬ ∀ (an : Analyzer) (signature : Signature)
    (receiver context : Ty) (name : String) (lexical : Pin) (locals : List Pin),
    signature.blockParamTy 0 = receiver → receiver.Normal → receiver.isAbsolute = true →
    receiver.isUndefined = false → receiver.isGeneric = false →
      Id.run (CallSite.symbolTy an.store signature name context) =
        Id.run (an.infer (.message receiver name) lexical locals) := by
  intro claimed
  have same := claimed selfReturningFoo yieldingFoo (.absolute "Foo") .undefined "me" .root [] rfl
    (Ty.normal_absolute "Foo") rfl rfl rfl
  have message : Id.run (selfReturningFoo.infer (.message (.absolute "Foo") "me") .root []) =
      Id.run (selfReturningFoo.callTy (.bare "me") rootSite (.absolute "Foo")) :=
    (SteadyRunner.eq_of_found_plain (SteadyRunner.found_callTy_of_message (r := .plain)
      (Ty.normal_absolute "Foo") rfl rfl (SteadyRunner.found_run _ ()))).symm
  have tag : (selfReturningFoo.callTyWithin 30 (.bare "me") rootSite (.absolute "Foo")).tag =
      "Foo" := by
    decide +kernel
  have within : ∃ frames, selfReturningFoo.store.framesWithin 30 (.absolute "Foo") = some frames ∧
      (frames.flatMap (selfReturningFoo.store.frameMethods "me")).map Pin.returnTy = [.self] :=
    ⟨_, rfl, rfl⟩
  obtain ⟨frames, within, stated⟩ := within
  have yielded : yieldingFoo.blockParamTy 0 = .absolute "Foo" := rfl
  have short := SteadyRunner.found_run (r := .plain)
    (CallSite.symbolTy selfReturningFoo.store yieldingFoo "me" .undefined) ()
  obtain ⟨stack, methods, symbol⟩ := SteadyRunner.found_symbolTy rfl rfl short
  have stack' : stack = frames.flatMap (selfReturningFoo.store.frameMethods "me") := by
    have searched := Store.receiverAncestors_of_within within
    refine (SteadyRunner.plain.steady_methodsNamed selfReturningFoo.store (.absolute "Foo")
      "me").unique methods ?_
    exact SteadyRunner.found_methodsNamed_of_found ⟨(), searched, trivial⟩
  rw [← stack'] at stated
  have symbol : Id.run (CallSite.symbolTy selfReturningFoo.store yieldingFoo "me" .undefined) =
      .self := by
    cases stack with
    | nil => exact absurd stated (by simp)
    | cons method others =>
      obtain ⟨own, -⟩ := List.cons.inj stated
      dsimp only at symbol
      rw [own] at symbol
      exact symbol
  rw [symbol, message, run_callTy_message (by decide) _ (by decide +kernel)] at same
  exact absurd (congrArg Ty.tag same) (by simp [tag, show Ty.self.tag = "self" from rfl])

end Messages

end DuckInfer
