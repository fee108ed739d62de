import DuckInfer.Proofs.Infer.Calls
import DuckInfer.Proofs.Ty.Unions

/-!
Calls on unions. Main statement: a call on the union of two types has the union of the types of the
calls on both, since each member of a receiver answers on its own. Only the instance that `new`
makes of classes without such a method is decided on the whole receiver: it is made of both types,
or of neither, or it is lost beside the methods of the other type.
-/

namespace DuckInfer

/-- The type of a call behind a receiver of some type. -/
def Analyzer.callTy {m : Type → Type} [Monad m] [ConstantLookup m] (an : Analyzer) (c : Call)
    (cx : LinkSite) (receiver : Ty) : m Ty := do
  let pins ← linkCandidates an.store an.typeOf (.call c) (cx.behind receiver)
  unionOfPins an.typeOf pins cx.locals

/-- The call is `new` on classes of which none has a method of that name, so that it makes an
instance. -/
structure Call.Instantiates {m : Type → Type} [Monad m] [ConstantLookup m] {σ : Type}
    (r : SteadyRunner m σ) (s : σ) (c : Call) (store : Store) (receiver : Ty) : Prop where
  word : c.word = "new"
  classes : ∀ member ∈ receiver.members, member.scope = .classLevel
  missing : ∀ member ∈ receiver.members, r.Found s (store.methodsNamed member c.word) []

/-! ### What does not depend on the receiver -/

section

variable {m : Type → Type} [Monad m] [ConstantLookup m] {site : CallSite m} {store : Store}
  {cx : LinkSite}

theorem LinkSite.context_behind (cx : LinkSite) (t : Ty) :
    (cx.behind t).receiver.context = t := by
  simp [behind, Pin.valueIn, Pin.make, Pin.context]

namespace CallSite

theorem answerFrom_behind (t context : Ty) (args : List Ty) (pin : Pin)
    (last : Option (Signature × Ty)) (signatures : List Signature) :
    site.answerFrom store (cx.behind t) context args pin last signatures =
      site.answerFrom store cx context args pin last signatures := by
  induction signatures generalizing last with
  | nil => rfl
  | cons signature signatures ih =>
    simp only [answerFrom, ih]
    rfl

theorem inferPins_behind (t context : Ty) (stack : List Pin) :
    site.inferPins store (cx.behind t) context stack = site.inferPins store cx context stack := by
  have each : ∀ args pin, site.inferPin store (cx.behind t) context args pin =
      site.inferPin store cx context args pin := by
    intro args pin
    simp only [inferPin, returnTy, answerFrom_behind]
  cases stack with
  | nil => rfl
  | cons pin stack => simp only [inferPins, funext (each _)]

theorem superCandidates_behind (t : Ty) :
    site.superCandidates store (cx.behind t) = site.superCandidates store cx := by
  simp only [superCandidates, inferPins_behind]
  rfl

theorem answersFor_behind {σ : Type} {r : SteadyRunner m σ} {s : σ} {t : Ty} {member : Member}
    {pins : List Pin} : site.AnswersFor r s store (cx.behind t) member pins ↔
      site.AnswersFor r s store cx member pins := by
  simp only [AnswersFor, inferPins_behind]

end CallSite

end

namespace SteadyRunner

variable {m : Type → Type} [Monad m] [LawfulMonad m] [ConstantLookup m] {σ : Type}
  {r : SteadyRunner m σ} {s : σ}

/-! ### What a call may refer to -/

section

variable {site : CallSite m} {store : Store} {cx : LinkSite}
  (block : ∀ scope, r.Steady (site.blockTy scope)) (arguments : r.Steady site.argTys)
include block arguments

theorem rightUnique_answersFor : Relator.RightUnique (site.AnswersFor r s store cx) := by
  rintro member pins others ⟨stack, listed, inferred⟩ ⟨stack', listed', inferred'⟩
  obtain rfl := (r.steady_methodsNamed store member _).unique listed listed'
  exact (r.steady_inferPins store cx _ block arguments stack).unique inferred inferred'

omit arguments in
theorem answersFor_nil_iff {member : Member} {pins : List Pin}
    (answers : site.AnswersFor r s store cx member pins) :
    pins = [] ↔ r.Found s (store.methodsNamed member site.word) [] := by
  obtain ⟨stack, listed, inferred⟩ := answers
  constructor
  · rintro rfl
    rcases found_inferPins block inferred with ⟨rfl, -⟩ | ⟨args, -, inStep⟩
    · exact listed
    · cases inStep
      exact listed
  · intro none
    obtain rfl := (r.steady_methodsNamed store member _).unique listed none
    exact (inferred.of_pure).symm

omit arguments in
/-- Nothing answers exactly if no member has a method of the name. -/
theorem flatten_eq_nil_iff {members : List Member} {answers : List (List Pin)}
    (inStep : List.Forall₂ (site.AnswersFor r s store cx) members answers) :
    answers.flatten = [] ↔
      ∀ member ∈ members, r.Found s (store.methodsNamed member site.word) [] := by
  induction inStep with
  | nil => simp
  | cons first _ ih =>
    rw [List.flatten_cons, List.append_eq_nil_iff, ih, answersFor_nil_iff block first,
      List.forall_mem_cons]

/-- What a call may refer to is a method or a value, and neither assigned nor local. -/
theorem unassigned_of_found_resolve {pins : List Pin} {answered : Pin} (behind : cx.head = false)
    (listed : answered ∈ pins) (found : r.Found s (site.resolve store cx) pins) :
    answered.assignment? = none ∧ answered.isLocal = false := by
  by_cases yields : site.word = "yield"
  · unfold CallSite.resolve at found
    rw [if_neg (by simp [yields]), if_pos (by simp [yields])] at found
    unfold CallSite.yieldCandidates at found
    cases around : cx.lexical.methodAround? with
    | none =>
      rw [around] at found
      obtain rfl := found.of_pure
      exact absurd listed List.not_mem_nil
    | some method =>
      rw [around] at found
      have inStep := found.of_mapM fun block =>
        .bind (r.steady_qualify store _ _) fun _ => .pure _
      obtain ⟨_, -, value⟩ := exists_left_of_forall₂ inStep listed
      obtain ⟨t, -, value⟩ := value.of_bind fun _ => .pure _
      obtain rfl := value.of_pure
      exact ⟨rfl, rfl⟩
  · rcases received_of_found_resolve block arguments behind yields listed found with
      ⟨receiver, stack, receives, method, stacked, args, -, evaluates⟩ | rfl
    · obtain ⟨reduced, t, returned, rfl⟩ := found_inferPin evaluates
      have isMethod : reduced.isMethod = true := by
        rcases reduced_of_found_returnTy returned with rfl | ⟨signatures, rfl⟩
        · exact isMethod_of_receives receives stacked
        · rw [Pin.isMethod_withOverloads]
          exact isMethod_of_receives receives stacked
      have proxied : ∀ u : Ty, (reduced.proxied u).isMethod = true := fun _ => isMethod
      exact ⟨Pin.assignment?_of_isMethod (proxied _), Pin.isLocal_of_isMethod (proxied _)⟩
    · exact ⟨rfl, rfl⟩

end

/-! ### The type of a call -/

variable {an : Analyzer} {c : Call} {cx : LinkSite}

/-- The types that some pins were found to evaluate to. -/
def Evaluate (r : SteadyRunner m σ) (s : σ) (an : Analyzer) (locals : List Pin) :
    List Pin → List Ty → Prop :=
  List.Forall₂ fun pin t => r.Found s (an.typeOf pin locals) t

theorem rightUnique_typeOf (locals : List Pin) :
    Relator.RightUnique fun pin t => r.Found s (an.typeOf pin locals) t :=
  fun pin _ _ => (r.steady_typeOf an pin locals).unique

omit [LawfulMonad m] in
theorem distinct_of_found_typeOf {pin : Pin} {locals : List Pin} {t : Ty}
    (unassigned : pin.assignment? = none) (ordinary : pin.isLocal = false)
    (found : r.Found s (an.typeOf pin locals) t) : t.Distinct := by
  rcases found_typeOf unassigned ordinary found with ⟨-, rfl⟩ | ⟨-, rfl⟩
  · exact List.nodup_singleton _
  · rw [Ty.qualify_eq, Ty.rebuild_eq]
    exact Ty.distinct_unionAll _

/-- The type of a call is the union of the known types of what it may refer to. -/
theorem found_callTy {t u : Ty} (found : r.Found s (an.callTy c cx t) u) :
    ∃ pins tys, r.Found s ((siteOf an.infer c cx).resolve an.store (cx.behind t)) pins ∧
      r.Evaluate s an cx.locals pins tys ∧ (∀ v ∈ tys, v.Distinct) ∧ u = Ty.knownUnion tys := by
  obtain ⟨pins, candidates, typed⟩ := found.of_bind fun pins =>
    r.steady_unionOfPins (r.steady_typeOf an) pins cx.locals
  obtain ⟨tys, each, joined⟩ := typed.of_bind fun _ => .pure _
  have candidates := found_callCandidates candidates
  have inStep := each.of_mapM fun pin => r.steady_typeOf an pin cx.locals
  obtain ⟨block, arguments⟩ := r.steady_siteOf an c cx
  refine ⟨pins, tys, candidates, inStep, fun v typed => ?_, joined.of_pure.symm⟩
  obtain ⟨pin, listed, evaluates⟩ := exists_left_of_forall₂ inStep typed
  obtain ⟨unassigned, ordinary⟩ := unassigned_of_found_resolve block arguments rfl listed candidates
  exact distinct_of_found_typeOf unassigned ordinary evaluates

/-- The type of a chain that ends in a call is the type of the call behind the links before, and a
nullable chain may also be `nil`. -/
theorem found_callTy_of_reaches {chain : Chain} {lexical : Pin} {locals : List Pin} {t u : Ty}
    (reaches : an.Reaches r s chain.nullable [.call c]
      ((chain.firstSite lexical locals).behind t) chain.links (chain.firstSite lexical locals))
    (found : r.Found s (an.infer chain lexical locals) u) :
    ∃ v, r.Found s (an.callTy c (chain.firstSite lexical locals) t) v ∧
      u = if chain.nullable && !v.isUndefined then v.union .nil else v := by
  obtain ⟨pins, candidates, typed⟩ := found.of_bind fun pins =>
    r.steady_chainTy (r.steady_typeOf an) chain.nullable pins locals
  obtain ⟨v, joined, typed⟩ := typed.of_bind fun _ => .pure _
  refine ⟨v, ?_, typed.of_pure.symm⟩
  have known := isUnknownLink_of_reaches reaches rfl
  have last : r.Found s (linkCandidates an.store an.typeOf (.call c)
      ((chain.firstSite lexical locals).behind t)) pins := by
    obtain ⟨links, location, nullable⟩ := chain
    rw [candidatesWith, if_neg (by simpa using known)] at candidates
    exact found_linksCandidates_of_reaches reaches candidates
  exact .bind (r.steady_linkCandidates an _ _)
    (fun pins => r.steady_unionOfPins (r.steady_typeOf an) pins _) last joined

/-- Behind a receiver, a call by the name of a method has the type of an instance, or the union of
what the members of the receiver answer. -/
theorem found_callTy_named {t u : Ty} (named : c.word ≠ "super" ∧ c.word ≠ "yield")
    (normal : t.Normal) (rooted : t.isAbsolute = true) (found : r.Found s (an.callTy c cx t) u) :
    ∃ answers, List.Forall₂ ((siteOf an.infer c cx).AnswersFor r s an.store cx) t.members answers ∧
      (c.Instantiates r s an.store t ∧ u = Ty.knownUnion [t.instanceTy] ∨
        ¬ c.Instantiates r s an.store t ∧ ∃ tys, r.Evaluate s an cx.locals answers.flatten tys ∧
          (∀ v ∈ tys, v.Distinct) ∧ u = Ty.knownUnion tys) := by
  obtain ⟨pins, tys, candidates, inStep, distinct, rfl⟩ := found_callTy found
  obtain ⟨block, arguments⟩ := r.steady_siteOf an c cx
  obtain ⟨answers, answered, rfl⟩ := found_resolve_members block arguments rfl named candidates
  rw [LinkSite.context_behind] at answered inStep
  have answered := answered.imp fun _ _ => CallSite.answersFor_behind.mp
  refine ⟨answers, answered, ?_⟩
  have condition : (answers.flatten = [] ∧ (siteOf an.infer c cx : CallSite m).word = "new" ∧
      ∀ member ∈ t.members, member.scope = .classLevel) ↔ c.Instantiates r s an.store t := by
    rw [flatten_eq_nil_iff block answered]
    exact ⟨fun ⟨missing, word, classes⟩ => ⟨word, classes, missing⟩,
      fun ⟨word, classes, missing⟩ => ⟨missing, word, classes⟩⟩
  by_cases instantiates : c.Instantiates r s an.store t
  · refine Or.inl ⟨instantiates, ?_⟩
    rw [if_pos (condition.mpr instantiates)] at inStep
    cases inStep with
    | @cons _ v _ _ evaluates rest =>
      cases rest
      rcases found_typeOf rfl rfl evaluates with ⟨unknown, rfl⟩ | ⟨-, rfl⟩
      · have unknown : t.instanceTy.isUndefined = true := unknown
        rw [Ty.knownUnion_cons_of_unknown unknown]
        rfl
      · exact congrArg (fun v => Ty.knownUnion [v]) (Ty.qualify_of_isAbsolute
          (Ty.normal_instanceTy normal) (Ty.isAbsolute_instanceTy rooted) _)
  · refine Or.inr ⟨instantiates, tys, ?_, distinct, rfl⟩
    rwa [if_neg (mt condition.mp instantiates)] at inStep

omit [LawfulMonad m] in
/-- A call of `super` or `yield` does not look at the receiver. -/
theorem resolve_behind_of_outward {site : CallSite m} {store : Store}
    (outward : site.word = "super" ∨ site.word = "yield") (t t' : Ty) :
    site.resolve store (cx.behind t) = site.resolve store (cx.behind t') := by
  rcases outward with word | word
  · simp only [CallSite.resolve, word, beq_self_eq_true, if_true, CallSite.superCandidates_behind]
  · have other : ("yield" == "super") = false := by decide
    simp only [CallSite.resolve, word, other, beq_self_eq_true, if_true]
    rfl

theorem found_callTy_of_outward {t t' u u' : Ty} (outward : c.word = "super" ∨ c.word = "yield")
    (found : r.Found s (an.callTy c cx t) u) (found' : r.Found s (an.callTy c cx t') u') :
    u = u' ∧ Ty.knownUnion [u, u] = u := by
  obtain ⟨block, arguments⟩ := r.steady_siteOf an c cx
  obtain ⟨pins, tys, candidates, inStep, distinct, rfl⟩ := found_callTy found
  obtain ⟨others, tys', candidates', inStep', -, rfl⟩ := found_callTy found'
  have word : (siteOf an.infer c cx : CallSite m).word = "super" ∨
      (siteOf an.infer c cx : CallSite m).word = "yield" := outward
  rw [resolve_behind_of_outward word t' t] at candidates'
  obtain rfl := (r.steady_resolve an.store (cx.behind t) block arguments).unique candidates
    candidates'
  obtain rfl := List.right_unique_forall₂' (rightUnique_typeOf cx.locals) inStep inStep'
  exact ⟨rfl, (Ty.knownUnion_self (Ty.distinct_knownUnion tys)).trans
    (Ty.knownUnion_knownUnion distinct)⟩

section

variable {t t' u u' v : Ty} (normal : t.Normal) (normal' : t'.Normal)
  (rooted : t.isAbsolute = true) (rooted' : t'.isAbsolute = true)
  (disjoint : ∀ x ∈ t.members, ∀ y ∈ t'.members, x.tag ≠ y.tag)
  (first : r.Found s (an.callTy c cx t) u) (second : r.Found s (an.callTy c cx t') u')
  (whole : r.Found s (an.callTy c cx (t.union t')) v)
include normal normal' disjoint

omit [LawfulMonad m] in
theorem instantiates_union :
    c.Instantiates r s an.store (t.union t') ↔
      c.Instantiates r s an.store t ∧ c.Instantiates r s an.store t' := by
  have members := Ty.members_union normal.distinct normal'.distinct disjoint
  constructor
  · rintro ⟨word, classes, missing⟩
    rw [members, List.forall_mem_append] at classes missing
    exact ⟨⟨word, classes.1, missing.1⟩, ⟨word, classes.2, missing.2⟩⟩
  · rintro ⟨⟨word, classes, missing⟩, ⟨-, classes', missing'⟩⟩
    refine ⟨word, ?_, ?_⟩
    · rw [members, List.forall_mem_append]
      exact ⟨classes, classes'⟩
    · rw [members, List.forall_mem_append]
      exact ⟨missing, missing'⟩

include rooted rooted' first second whole

/-- The type of a call by the name of a method on a union is the union of the types of the calls on
both parts, if an instance is made of both parts or of neither; and else the type of the part that
has a method. -/
theorem found_callTy_union_of_named (named : c.word ≠ "super" ∧ c.word ≠ "yield") :
    (¬ c.Instantiates r s an.store t → ¬ c.Instantiates r s an.store t' →
        v = Ty.knownUnion [u, u']) ∧
      (c.Instantiates r s an.store t → ¬ c.Instantiates r s an.store t' →
        u = Ty.knownUnion [t.instanceTy] ∧ v = u') ∧
      (¬ c.Instantiates r s an.store t → c.Instantiates r s an.store t' →
        u' = Ty.knownUnion [t'.instanceTy] ∧ v = u) ∧
      (c.Instantiates r s an.store t → c.Instantiates r s an.store t' →
        u = Ty.knownUnion [t.instanceTy] ∧ u' = Ty.knownUnion [t'.instanceTy] ∧
          v = Ty.knownUnion [t.instanceTy.union t'.instanceTy]) := by
  obtain ⟨block, arguments⟩ := r.steady_siteOf an c cx
  have members := Ty.members_union normal.distinct normal'.distinct disjoint
  have parts : c.Instantiates r s an.store (t.union t') ↔
      c.Instantiates r s an.store t ∧ c.Instantiates r s an.store t' :=
    instantiates_union normal normal' disjoint
  obtain ⟨answers, answered, front⟩ := found_callTy_named named normal rooted first
  obtain ⟨answers', answered', back⟩ := found_callTy_named named normal' rooted' second
  obtain ⟨all, answeredAll, both⟩ := found_callTy_named named (Ty.normal_union normal normal')
    (Ty.isAbsolute_union rooted rooted') whole
  rw [members] at answeredAll
  obtain rfl := List.right_unique_forall₂' (rightUnique_answersFor block arguments) answeredAll
    (List.rel_append answered answered')
  -- what a part answers is empty where an instance is made of it
  have nothing : c.Instantiates r s an.store t → answers.flatten = [] := fun instantiates =>
    (flatten_eq_nil_iff block answered).mpr instantiates.missing
  have nothing' : c.Instantiates r s an.store t' → answers'.flatten = [] := fun instantiates =>
    (flatten_eq_nil_iff block answered').mpr instantiates.missing
  rw [List.flatten_append] at both
  refine ⟨fun no no' => ?_, fun yes no' => ?_, fun no yes' => ?_, fun yes yes' => ?_⟩
  · obtain ⟨tys, inStep, distinct, rfl⟩ := (front.resolve_left fun yes => no yes.1).2
    obtain ⟨tys', inStep', distinct', rfl⟩ := (back.resolve_left fun yes => no' yes.1).2
    obtain ⟨all, inStepAll, -, rfl⟩ := (both.resolve_left fun yes => no (parts.mp yes.1).1).2
    obtain rfl := List.right_unique_forall₂' (rightUnique_typeOf cx.locals) inStepAll
      (List.rel_append inStep inStep')
    exact Ty.knownUnion_append distinct distinct'
  · obtain ⟨-, made⟩ := front.resolve_right fun no => no.1 yes
    obtain ⟨tys', inStep', -, rfl⟩ := (back.resolve_left fun yes => no' yes.1).2
    obtain ⟨all, inStepAll, -, rfl⟩ := (both.resolve_left fun yes => no' (parts.mp yes.1).2).2
    rw [nothing yes, List.nil_append] at inStepAll
    obtain rfl := List.right_unique_forall₂' (rightUnique_typeOf cx.locals) inStepAll inStep'
    exact ⟨made, rfl⟩
  · obtain ⟨tys, inStep, -, rfl⟩ := (front.resolve_left fun yes => no yes.1).2
    obtain ⟨-, made⟩ := back.resolve_right fun no => no.1 yes'
    obtain ⟨all, inStepAll, -, rfl⟩ := (both.resolve_left fun yes => no (parts.mp yes.1).1).2
    rw [nothing' yes', List.append_nil] at inStepAll
    obtain rfl := List.right_unique_forall₂' (rightUnique_typeOf cx.locals) inStepAll inStep
    exact ⟨made, rfl⟩
  · obtain ⟨-, made⟩ := front.resolve_right fun no => no.1 yes
    obtain ⟨-, made'⟩ := back.resolve_right fun no => no.1 yes'
    obtain ⟨-, madeOfBoth⟩ := both.resolve_right fun no => no.1 (parts.mpr ⟨yes, yes'⟩)
    rw [Ty.instanceTy_union normal.distinct normal'.distinct disjoint] at madeOfBoth
    exact ⟨made, made', madeOfBoth⟩

/-- The type of a call on a union of two types without a common tag is the union of what is known of
the types of the calls on both, if an instance is made of both or of neither. If an instance is made
of one of them only, the call on the union has the type of the call on the other one. -/
theorem found_callTy_union :
    ((c.Instantiates r s an.store t ↔ c.Instantiates r s an.store t') →
        (c.Instantiates r s an.store t → t.instanceTy.isUndefined = t'.instanceTy.isUndefined) →
        v = Ty.knownUnion [u, u']) ∧
      (c.Instantiates r s an.store t → ¬ c.Instantiates r s an.store t' →
        u = Ty.knownUnion [t.instanceTy] ∧ v = u') ∧
      (¬ c.Instantiates r s an.store t → c.Instantiates r s an.store t' →
        u' = Ty.knownUnion [t'.instanceTy] ∧ v = u) ∧
      (c.Instantiates r s an.store t → c.Instantiates r s an.store t' →
        v = Ty.knownUnion [t.instanceTy.union t'.instanceTy]) := by
  by_cases outward : c.word = "super" ∨ c.word = "yield"
  · have ordinary : ∀ receiver, ¬ c.Instantiates r s an.store receiver := by
      intro receiver instantiates
      rcases outward with word | word
      · exact absurd (word.symm.trans instantiates.word) (by decide)
      · exact absurd (word.symm.trans instantiates.word) (by decide)
    obtain ⟨rfl, once⟩ := found_callTy_of_outward outward whole first
    obtain ⟨rfl, -⟩ := found_callTy_of_outward outward whole second
    exact ⟨fun _ _ => once.symm, fun yes => absurd yes (ordinary t),
      fun _ yes => absurd yes (ordinary t'), fun yes => absurd yes (ordinary t)⟩
  · obtain ⟨neither, front, back, both⟩ := found_callTy_union_of_named normal normal' rooted rooted'
      disjoint first second whole (not_or.mp outward)
    refine ⟨fun alike known => ?_, front, back, fun yes yes' => (both yes yes').2.2⟩
    by_cases yes : c.Instantiates r s an.store t
    · obtain ⟨rfl, rfl, rfl⟩ := both yes (alike.mp yes)
      exact Ty.knownUnion_union (Ty.tags_ofMembers_nodup _) (Ty.tags_ofMembers_nodup _) (known yes)
    · exact neither yes (mt alike.mpr yes)

end

end SteadyRunner

/-! ### Without memory -/

section

variable {an : Analyzer} {c : Call} {cx : LinkSite} {receiver : Ty} {fuel : Nat}

/-- The type of a call behind a receiver, if the frames of all members are found in at most so many
steps. -/
def Analyzer.callTyWithin (an : Analyzer) (fuel : Nat) (c : Call) (cx : LinkSite) (receiver : Ty) :
    Ty :=
  let site : CallSite Id := siteOf an.infer c cx
  let found := receiver.members.flatMap fun member =>
    Id.run (site.inferPins an.store cx (.single member)
      (((an.store.framesWithin fuel member).getD []).flatMap (an.store.frameMethods c.word)))
  let pins :=
    if found.isEmpty && c.word == "new" && receiver.members.all (·.scope == .classLevel) then
      [.valueIn cx.lexical receiver.instanceTy]
    else found
  Id.run (unionOfPins an.typeOf pins cx.locals)

theorem Analyzer.run_callTy_of_within (named : c.word ≠ "super" ∧ c.word ≠ "yield")
    (within : receiver.members.all fun member => (an.store.framesWithin fuel member).isSome) :
    Id.run (an.callTy c cx receiver) = an.callTyWithin fuel c cx receiver := by
  let site : CallSite Id := siteOf an.infer c cx
  have each : ∀ member ∈ receiver.members, Id.run (do
        let stack ← an.store.methodsNamed member site.word
        site.inferPins an.store (cx.behind receiver) (.single member) stack) =
      Id.run (site.inferPins an.store cx (.single member)
        (((an.store.framesWithin fuel member).getD []).flatMap
          (an.store.frameMethods c.word))) := by
    intro member listed
    obtain ⟨frames, done⟩ := Option.isSome_iff_exists.mp (List.all_eq_true.mp within member listed)
    have stack : Id.run (an.store.methodsNamed member site.word) =
        frames.flatMap (an.store.frameMethods c.word) :=
      congrArg (List.flatMap _) (Store.receiverAncestors_of_within done)
    rw [Id.run_bind, stack, CallSite.inferPins_behind, done]
    rfl
  have found : Id.run (site.memberCandidates an.store (cx.behind receiver) receiver.members) =
      receiver.members.flatMap fun member => Id.run (site.inferPins an.store cx (.single member)
        (((an.store.framesWithin fuel member).getD []).flatMap
          (an.store.frameMethods c.word))) := by
    rw [CallSite.memberCandidates, Id.run_bind, List.idRun_mapM, List.map_congr_left each]
    rfl
  have bare : site.visibleLocals (cx.behind receiver) = [] := rfl
  have notSuper : ¬ (site.word == "super") = true := mt beq_iff_eq.mp named.1
  have notYield : ¬ (site.word == "yield") = true := mt beq_iff_eq.mp named.2
  rw [callTy, linkCandidates, callCandidates_eq, Id.run_bind]
  refine congrArg (fun pins => Id.run (unionOfPins an.typeOf pins cx.locals)) ?_
  show Id.run (site.resolve an.store (cx.behind receiver)) = _
  rw [CallSite.resolve, if_neg notSuper, if_neg notYield, bare]
  dsimp only
  rw [LinkSite.context_behind, Id.run_bind, found, apply_ite Id.run]
  rfl

end

section Spaces

/-- The classes `Foo` and `Bar` with some methods. -/
def fooAndBar (methods : Pin → Pin → List Pin) : Analyzer :=
  let foo : Pin := .make "Foo" (some .root) (.space false [])
  let bar : Pin := .make "Bar" (some .root) (.space false [])
  ⟨.ofGroups [("a.rb", [.root, foo, bar] ++ methods foo bar)], 0⟩

/-- `Foo#size` returns a `String` and `Bar#size` an `Integer`. -/
def sizedSpaces : Analyzer :=
  fooAndBar fun foo bar =>
    [.make "size" (some foo) (.method .instanceLevel .everyone [.returning (.absolute "String")]),
      .make "size" (some bar) (.method .instanceLevel .everyone [.returning (.absolute "Integer")])]

/-- `Bar.new` returns a `Bar`, and `Foo` has no method `new`. -/
def makingSpaces : Analyzer :=
  fooAndBar fun _ bar =>
    [.make "new" (some bar) (.method .classLevel .everyone [.returning (.absolute "Bar")])]

/-- Where a message behind some receiver is resolved at the root. -/
def rootSite : LinkSite :=
  ⟨.root, .root, [], none, true⟩

/-- The type of a message to some receiver at the root, if thirty steps reach all its ancestors. -/
theorem run_callTy_message {an : Analyzer} {word : String}
    (named : word ≠ "super" ∧ word ≠ "yield") (receiver : Ty)
    (within : receiver.members.all fun member => (an.store.framesWithin 30 member).isSome) :
    Id.run (an.callTy (.bare word) rootSite receiver) =
      an.callTyWithin 30 (.bare word) rootSite receiver :=
  Analyzer.run_callTy_of_within named within

theorem found_callTy_union_sizedSpaces :
    (Id.run (sizedSpaces.callTy (.bare "size") rootSite
      ((Ty.absolute "Foo").union (.absolute "Bar")))).tag = "String, Integer" := by
  have found : ∀ receiver : Ty, SteadyRunner.plain.Found ()
      (sizedSpaces.callTy (.bare "size") rootSite receiver)
      (Id.run (sizedSpaces.callTy (.bare "size") rootSite receiver)) :=
    fun _ => SteadyRunner.found_run (r := .plain) _ ()
  have other : ∀ receiver : Ty,
      ¬ (Call.bare "size").Instantiates SteadyRunner.plain () sizedSpaces.store receiver :=
    fun _ instantiates => absurd instantiates.word (by simp [Call.bare])
  have apart : ∀ x ∈ (Ty.absolute "Foo").members, ∀ y ∈ (Ty.absolute "Bar").members,
      x.tag ≠ y.tag := by
    decide
  have whole := (SteadyRunner.found_callTy_union (Ty.normal_absolute "Foo")
    (Ty.normal_absolute "Bar") rfl rfl apart (found _) (found _) (found _)).1 (by simp [other])
    (fun yes => absurd yes (other _))
  rw [whole, run_callTy_message (by simp) _ (by decide +kernel),
    run_callTy_message (by simp) _ (by decide +kernel)]
  decide +kernel

/-- The instance of a class without a method `new` is lost, if another class has one. -/
theorem callTy_union_ne_makingSpaces : ¬ ∀ (an : Analyzer) (c : Call) (cx : LinkSite) (t t' : Ty),
    t.isAbsolute = true → t'.isAbsolute = true → t.Normal → t'.Normal →
    (∀ x ∈ t.members, ∀ y ∈ t'.members, x.tag ≠ y.tag) →
    Id.run (an.callTy c cx (t.union t')) =
      Ty.knownUnion [Id.run (an.callTy c cx t), Id.run (an.callTy c cx t')] := by
  intro claimed
  have normal : ∀ name, (Ty.absolute name).toClassLevel.Normal := fun name =>
    Ty.normal_toClassLevel (Ty.normal_absolute name)
  have both := claimed makingSpaces (.bare "new") rootSite (Ty.absolute "Foo").toClassLevel
    (Ty.absolute "Bar").toClassLevel rfl rfl (normal "Foo") (normal "Bar") (by decide)
  rw [run_callTy_message (by simp) _ (by decide +kernel),
    run_callTy_message (by simp) _ (by decide +kernel),
    run_callTy_message (by simp) _ (by decide +kernel)] at both
  exact absurd (congrArg Ty.tag both) (by decide +kernel)

end Spaces

end DuckInfer
