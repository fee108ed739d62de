import DuckInfer.Proofs.Infer.Calls

/-!
Placeholders and calls of methods. The overload that answers a call has all its generics resolved,
but what the documentation of a method or one of its templates states is taken as it is. Main
statement: the type of a call holds no placeholder, unless one of these states a placeholder.
-/

namespace DuckInfer

/-- A resolved overload returns no placeholder. -/
theorem Signature.isGeneric_returns_resolve (s : Signature) (call : CallTypes) (b : Bindings) :
    (s.resolve call b).1.returns.isGeneric = false := by
  unfold resolve eraseGenerics
  rw [returns_mapTys]
  exact Ty.isGeneric_erasePlaceholders _

theorem isGeneric_chainUnion {tys : List Ty} (ground : ∀ t ∈ tys, t.isGeneric = false)
    (nullable : Bool) : (chainUnion nullable tys).isGeneric = false := by
  have union : (Ty.unionAll (tys.filter (!·.isUndefined))).isGeneric = false :=
    Ty.anyMember_unionAll rfl fun t known => ground t (List.mem_of_mem_filter known)
  unfold chainUnion
  dsimp only
  split
  · refine Ty.anyMember_unionAll rfl fun t member => ?_
    rcases List.mem_cons.mp member with rfl | rest
    · exact union
    · rw [List.mem_singleton.mp rest]
      rfl
  · exact union

/-- The templates of a method do not depend on its overloads. -/
theorem Template.returnTy_withOverloads (store : Store) (pin : Pin) (signatures : List Signature)
    (args : List Ty) :
    Template.returnTy store (pin.withOverloads signatures) args =
      Template.returnTy store pin args := by
  obtain ⟨name, closure, location, comments, kind, proxyTy⟩ := pin
  cases kind <;> rfl

/-- What a method states apart from its overloads holds no placeholder: its documented type, which
counts if it has no overloads, and what its templates state for the arguments, which counts if
nothing else gives a known type. -/
structure CallSite.StatesGround {m : Type → Type} [Monad m] [ConstantLookup m] {σ : Type}
    (r : SteadyRunner m σ) (s : σ) (site : CallSite m) (store : Store) (cx : LinkSite)
    (receiver : Ty) (args : List Ty) (method : Pin) : Prop where
  documented : method.signatures = [] → method.returnTy.isGeneric = false
  templated : ∀ reduced t, r.Found s (site.returnTy store cx receiver args method) (reduced, t) →
    t.isUndefined = true → (Template.returnTy store method args).isGeneric = false

/-- No placeholder stands in the types that receive a call, nor in what the methods that may answer
it state apart from their overloads. -/
structure CallSite.Ground {m : Type → Type} [Monad m] [ConstantLookup m] {σ : Type}
    (r : SteadyRunner m σ) (s : σ) (site : CallSite m) (store : Store) (cx : LinkSite) : Prop where
  value : cx.receiver.context.isGeneric = false
  receivers : ∀ {receiver stack}, site.Receives r s store cx receiver stack →
    receiver.isGeneric = false
  methods : ∀ {receiver stack}, site.Receives r s store cx receiver stack → ∀ args,
    r.Found s site.argTys args → ∀ method ∈ stack,
      site.StatesGround r s store cx receiver args method

namespace SteadyRunner

variable {m : Type → Type} [Monad m] [ConstantLookup m] {σ : Type} {r : SteadyRunner m σ} {s : σ}

section

variable {site : CallSite m} {store : Store} {cx : LinkSite} {context : Ty} {args : List Ty}
  {pin : Pin}

theorem ground_of_found_returnTy [LawfulMonad m] (block : ∀ scope, r.Steady (site.blockTy scope))
    (unreserved : ∀ gates name, r.answers s store gates name ≠ some "generic")
    (receiver : context.isGeneric = false)
    (documented : pin.signatures = [] → pin.returnTy.isGeneric = false) {reduced : Pin} {t : Ty}
    (found : r.Found s (site.returnTy store cx context args pin) (reduced, t)) :
    t.isGeneric = false := by
  have qualified : ∀ {u : Ty}, u.isGeneric = false →
      r.Found s (store.qualify pin.gates (u.selfTo context)) t → t.isGeneric = false := by
    intro u ground found
    rw [found_qualify found]
    exact Ty.isGeneric_qualify (unreserved _) (Ty.isGeneric_selfTo ground receiver)
  rcases found_returnTy found with ⟨none, -, stated⟩ |
    ⟨out, answered, ⟨resolved, rfl, -⟩ | ⟨-, -, rfl⟩⟩
  · exact qualified (documented none) stated
  · rcases found_answerFrom_cases block answered with
      ⟨impossible, -⟩ | ⟨signature, -, -, answer, u, same, answered⟩
    · exact absurd impossible (by simp)
    · cases same
      obtain ⟨blockTy, rfl, stated⟩ := found_answer answered
      exact qualified (signature.isGeneric_returns_resolve _ _) stated
  · rfl

/-- A method evaluates to a type without placeholders, if neither the receiver nor what the method
states apart from its overloads has any. -/
theorem ground_of_found_inferPin [LawfulMonad m] (block : ∀ scope, r.Steady (site.blockTy scope))
    (unreserved : ∀ gates name, r.answers s store gates name ≠ some "generic")
    (receiver : context.isGeneric = false)
    (states : site.StatesGround r s store cx context args pin) {answered : Pin}
    (found : r.Found s (site.inferPin store cx context args pin) answered) :
    ∃ t, t.isGeneric = false ∧ ∃ reduced, answered = Pin.proxied reduced t ∧
      reduced.isMethod = pin.isMethod := by
  obtain ⟨reduced, t, returned, rfl⟩ := found_inferPin found
  have ground := ground_of_found_returnTy block unreserved receiver states.documented returned
  have same := reduced_of_found_returnTy returned
  have templated : t.isUndefined = true →
      (Template.returnTy store reduced args).isGeneric = false := by
    intro undefined
    have ground := states.templated reduced t returned undefined
    rcases same with rfl | ⟨resolved, rfl⟩
    · exact ground
    · rwa [Template.returnTy_withOverloads]
  refine ⟨_, ?_, reduced, rfl, ?_⟩
  · split
    · exact Ty.anyMember_instanceTy rfl receiver
    · refine Ty.isGeneric_selfTo ?_ receiver
      split
      · rename_i undefined
        exact templated undefined
      · exact ground
  · rcases same with rfl | ⟨resolved, rfl⟩
    · rfl
    · exact Pin.isMethod_withOverloads pin resolved

end

/-- The type of a chain that ends in a call of a method holds no placeholder, whatever overload
answers, if the receiver has none and none of the methods states one apart from its overloads. -/
theorem isGeneric_infer_call [LawfulMonad m] {an : Analyzer}
    {chain : Chain} {front : List Link} {c : Call} {lexical : Pin} {locals : List Pin} {t : Ty}
    (ends : chain.links = front ++ [.call c]) (behind : front ≠ []) (sent : c.word ≠ "yield")
    (unreserved : ∀ gates name, r.answers s an.store gates name ≠ some "generic")
    (ground : ∀ site, an.Reaches r s chain.nullable [.call c] site chain.links
        (chain.firstSite lexical locals) →
      (siteOf an.infer c site).Ground r s an.store site)
    (found : r.Found s (an.infer chain lexical locals) t) : t.isGeneric = false := by
  rcases found_infer_concat ends found with
    rfl | ⟨site, pins, tys, reaches, candidates, inStep, rfl⟩
  · rfl
  have ground := ground site reaches
  obtain ⟨block, arguments⟩ := r.steady_siteOf an c site
  rw [ends] at reaches
  refine isGeneric_chainUnion (fun u typed => ?_) _
  obtain ⟨answered, listed, typed⟩ := exists_left_of_forall₂ inStep typed
  -- a candidate is a method that evaluates to a closed type, or an instance of the receiver
  rcases received_of_found_resolve block arguments (head_of_reaches_concat behind reaches) sent
    listed (found_callCandidates candidates) with
    ⟨receiver, stack, receives, method, stacked, args, inferred, evaluates⟩ | rfl
  · obtain ⟨v, closed, reduced, rfl, same⟩ := ground_of_found_inferPin block unreserved
      (ground.receivers receives) (ground.methods receives args inferred method stacked) evaluates
    have isMethod := same.trans (isMethod_of_receives receives stacked)
    rcases found_typeOf_proxied isMethod typed with ⟨-, rfl⟩ | ⟨-, rfl⟩
    · rfl
    · exact Ty.isGeneric_qualify (unreserved _) closed
  · rcases found_typeOf rfl rfl typed with ⟨-, rfl⟩ | ⟨-, rfl⟩
    · rfl
    · exact Ty.isGeneric_qualify (unreserved _) (Ty.anyMember_instanceTy rfl ground.value)

end SteadyRunner

section Foos

/-- A class `Foo` with a method `bar`. -/
def foos (generics : List String) (signatures : List Signature) (comments : String) : Analyzer :=
  let foo : Pin := .make "Foo" (some .root) (.space false generics)
  let bar := Pin.make "bar" (some foo) (.method .instanceLevel .everyone signatures)
  ⟨.ofGroups [("foo.rb", [.root, foo, { bar with comments }])], 0⟩

/-- In a class of generic `T`, the method is `() -> Array<generic<T>>`. -/
def wrappingFoos : Analyzer :=
  foos ["T"] [.returning (.single (.list "Array" [.single (.generic "T")]))] ""

/-- The method has no overloads, and its documentation states a placeholder. -/
def documentedFoos : Analyzer :=
  foos [] [] "@return [generic<T>]"

/-- The type `Foo<String>`. -/
def fooOfString : Member :=
  .list "Foo" [.absolute "String"]

theorem isGeneric_infer_call_wrappingFoos :
    (Id.run (wrappingFoos.infer (.sending fooOfString "bar") .root [])).tag = "Array<String>" ∧
      (Id.run (wrappingFoos.infer (.sending fooOfString "bar") .root [])).isGeneric = false := by
  have shown : (wrappingFoos.store.framesWithin 9 fooOfString).any (fun frames =>
      (wrappingFoos.sentTy fooOfString "bar" .root [] frames).tag == "Array<String>" &&
        (frames.flatMap (wrappingFoos.store.frameMethods "bar")).all fun method =>
          !method.signatures.isEmpty &&
            (Template.bodies wrappingFoos.store method).isEmpty) = true := by
    decide +kernel
  obtain ⟨frames, done, shown⟩ := (Option.any_eq_true _ _).mp shown
  obtain ⟨tag, states⟩ := Bool.and_eq_true_iff.mp shown
  have searched := Store.receiverAncestors_of_within done
  have typed : Id.run (receiverTy wrappingFoos.typeOf false [.value (.single fooOfString)] []) =
      .single fooOfString := rfl
  refine ⟨?_, ?_⟩
  · rw [run_infer_sending (by simp) typed (by decide) searched]
    exact beq_iff_eq.mp tag
  have ends : (Chain.sending fooOfString "bar").links =
      [.literal (.single fooOfString)] ++ [.call (.bare "bar")] := rfl
  refine SteadyRunner.isGeneric_infer_call (r := .plain) (s := ()) ends (by simp) (by decide)
    (fun gates name found => ?_) (fun site reaches => ?_) (SteadyRunner.found_run _ ())
  · exact absurd (Store.hasConstant_of_resolve? found) (by decide +kernel)
  · obtain rfl := site_of_reaches_sending typed reaches
    refine ⟨?_, fun receives => ?_, fun receives args _ method stacked => ?_⟩
    · rw [Chain.context_sentSite]
      rfl
    · obtain ⟨rfl, -⟩ := receives_sending (by decide) searched receives
      rfl
    · obtain ⟨-, rfl⟩ := receives_sending (by decide) searched receives
      have plain := List.all_eq_true.mp states method stacked
      simp only [Bool.and_eq_true, Bool.not_eq_true', List.isEmpty_iff] at plain
      refine ⟨fun none => absurd plain.1 (by simp [none]), fun _ _ _ _ => ?_⟩
      rw [Template.returnTy, plain.2]
      rfl

/-- A placeholder in the documentation of a method without overloads becomes part of the type of the
call, although neither the receiver nor an argument has one. -/
theorem not_isGeneric_infer_documentedFoos :
    ¬ ∀ (an : Analyzer) (chain : Chain) (front : List Link) (c : Call) (lexical : Pin)
      (locals : List Pin), chain.links = front ++ [.call c] → front ≠ [] →
      (Id.run (an.infer { chain with links := front } lexical locals)).isGeneric = false →
      (∀ argument ∈ c.arguments, (Id.run (an.infer argument lexical locals)).isGeneric = false) →
      (∀ pin ∈ Id.run (an.candidates chain lexical locals), pin.isMethod = true) →
      (Id.run (an.infer chain lexical locals)).isGeneric = false := by
  intro claimed
  have shown : (documentedFoos.store.framesWithin 9 (.absolute "Foo")).any (fun frames =>
      (documentedFoos.sentPins (.absolute "Foo") "bar" .root [] frames).all Pin.isMethod &&
        (documentedFoos.sentTy (.absolute "Foo") "bar" .root [] frames).isGeneric) = true := by
    decide +kernel
  obtain ⟨frames, done, shown⟩ := (Option.any_eq_true _ _).mp shown
  obtain ⟨methods, generic⟩ := Bool.and_eq_true_iff.mp shown
  have searched := Store.receiverAncestors_of_within done
  have typed : Id.run (receiverTy documentedFoos.typeOf false [.value (Ty.absolute "Foo")] []) =
      Ty.absolute "Foo" := rfl
  have ground := claimed documentedFoos (.sending (.absolute "Foo") "bar")
    [.literal (Ty.absolute "Foo")] (.bare "bar") .root [] rfl (by simp) rfl
    (by simp [Call.bare]) (fun pin listed => ?_)
  · rw [run_infer_sending (by simp) typed (by decide) searched, generic] at ground
    exact absurd ground (by simp)
  · rw [run_candidates_sending (by simp) typed (by decide) searched] at listed
    exact List.all_eq_true.mp methods pin listed

end Foos

end DuckInfer
