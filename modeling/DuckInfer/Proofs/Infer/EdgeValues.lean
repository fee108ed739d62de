import DuckInfer.Proofs.Infer.Calls

/-!
Values that edges give to generics. An edge to a generic namespace binds the generics of that
namespace to types, and a method that returns one of the generics returns the type that the edge
gives to it. Main statement: relative names in such a type are looked up where the method is
declared and not where the edge is written, which makes no difference if they are found alike there.
-/

namespace DuckInfer

/-! ### Bindings of an edge -/

/-- The edge gives a type, in which nothing is open, to a generic of its target. -/
structure Store.EdgeGives (store : Store) (edge : Pin) (target generic : String) (value : Ty) :
    Prop where
  written : ∃ (kind : EdgeKind) (values : List Ty) (index : Nat),
    edge.kind = .reference kind values ∧
      (store.genericsOf target)[index]? = some generic ∧ values[index]? = some value
  distinct : (store.genericsOf target).Nodup
  concrete : value.Concrete
  known : value.isUndefined = false

theorem Store.EdgeGives.find? {store : Store} {edge : Pin} {target generic : String} {value : Ty}
    (gives : store.EdgeGives edge target generic value) (source : Frame) :
    (store.edgeBindings source edge target).find? generic = some value := by
  obtain ⟨kind, values, index, reference, declared, written⟩ := gives.written
  have same : value.substitute source.bindings = value := by
    simp [Ty.substitute, gives.concrete.ground]
  unfold edgeBindings
  rw [reference]
  refine Bindings.find?_insertAll ?_ ?_ .empty
  · exact gives.distinct.sublist ((List.filter_sublist.map _).trans (map_fst_zip_sublist _ _))
  · refine List.mem_filter.mpr ⟨List.mem_of_getElem? (i := index) ?_, ?_⟩
    · exact List.getElem?_zip_eq_some.mpr ⟨declared, by simp [written, same]⟩
    · simp [gives.known, gives.concrete.ground]

/-! ### Returned values -/

/-- A bound placeholder becomes what it is bound to. -/
theorem Ty.substitute_generic {b : Bindings} {generic : String} {value : Ty}
    (bound : b.find? generic = some value) (normal : value.Normal) :
    (Ty.single (.generic generic)).substitute b = value := by
  have named : (Member.generic generic).placeholderName? = some generic := rfl
  have replaced : (Member.generic generic).rebuild b.replacement = value := by
    rw [Member.rebuild_of_isLeaf rfl, Bindings.replacement, named]
    simp [bound]
  have alone : Ty.unionAll [value] = value := by
    cases normal with
    | intro distinct _ _ => simpa [Ty.unionAll] using Ty.ofMembers_members distinct
  rw [(Ty.normal_generic generic).substitute_eq, Ty.rebuild_eq]
  exact (congrArg (fun t => Ty.unionAll [t]) replaced).trans alone

namespace Signature

variable {s : Signature} {call : CallTypes}

theorem returns_unifyWith (generics : List String) (b : Bindings)
    (ground : s.returns.isGeneric = false) :
    (s.unifyWith generics call b).1.returns = s.returns := by
  obtain ⟨own, params, returns, block⟩ := s
  cases block <;> simp only [unifyWith] <;> rw [Ty.unify_ground _ _ _ ground]

theorem returns_unifyPasses (ground : s.returns.isGeneric = false) {last : Signature × Bindings}
    (before : last.1.returns = s.returns) (passes : Nat) :
    (s.unifyPasses call passes last).1.returns = s.returns := by
  induction passes generalizing last with
  | zero => exact before
  | succ passes ih =>
    have next : (s.unify call last.2).1.returns = s.returns := returns_unifyWith _ _ ground
    rw [unifyPasses_succ]
    split
    · exact next
    · exact ih next

/-- Resolving generics keeps a return type in which nothing is generic. -/
theorem returns_resolve (ground : s.returns.isGeneric = false) (b : Bindings) :
    (s.resolve call b).1.returns = s.returns := by
  have passed : (s.unifyPasses call (s.generics.length + 1) (s, b)).1.returns = s.returns :=
    returns_unifyPasses ground rfl _
  unfold resolve eraseGenerics substitute
  simp [Ty.substitute, Ty.erasePlaceholders, passed, ground]

end Signature

/-! ### Calls -/

/-- What a type means for a receiver, with its relative names looked up in some gates. -/
def SteadyRunner.meaning {m : Type → Type} [Monad m] [ConstantLookup m] {σ : Type}
    (r : SteadyRunner m σ) (s : σ) (store : Store) (receiver : Ty) (gates : List String) (t : Ty) :
    Ty :=
  (t.selfTo receiver).qualify (r.answers s store gates)

/-- The method is found in the frame that an edge leads to. -/
structure CallSite.FindsAlong {m : Type → Type} [Monad m] [ConstantLookup m] {σ : Type}
    (r : SteadyRunner m σ) (s : σ) (site : CallSite m) (store : Store) (receiver : Member)
    (edge : Pin) (frame : Frame) (method : Pin) : Prop where
  visited : ∃ frames, r.Found s (store.receiverAncestors receiver) frames ∧ frame ∈ frames
  followed : ∃ source, r.Found s (store.follow source edge frame.scope) (some frame)
  declared : method ∈ store.methodsOf frame.path frame.scope
  named : method.name = site.word

namespace SteadyRunner

variable {m : Type → Type} [Monad m] [ConstantLookup m] {σ : Type} {r : SteadyRunner m σ} {s : σ}

theorem bindings_of_found_follow {store : Store} {source frame : Frame} {edge : Pin} {scope : Scope}
    (found : r.Found s (store.follow source edge scope) (some frame)) :
    frame.bindings = store.edgeBindings source edge frame.path := by
  obtain ⟨target, -, found⟩ := found.of_bind fun target => by
    cases target <;> exact .pure _
  cases target with
  | none => exact absurd found.of_pure (by simp)
  | some target => rw [← Option.some.inj found.of_pure]

/-- What a type means for a receiver that does not mention `self`, does not mention it either. -/
theorem mentionsSelf_meaning {store : Store} {receiver t : Ty} {gates : List String}
    (unreserved : ∀ name, r.answers s store gates name ≠ some "self")
    (ground : t.isGeneric = false) (silent : receiver.mentionsSelf = false) :
    (r.meaning s store receiver gates t).mentionsSelf = false :=
  Ty.mentionsSelf_qualify unreserved (Ty.mentionsSelf_selfTo ground silent)

theorem eq_of_found_answer {site : CallSite m} {store : Store} {cx : LinkSite} {context t : Ty}
    {args : List Ty} {pin : Pin} {signature resolved : Signature}
    (ground : signature.returns.isGeneric = false)
    (found : r.Found s (site.answer store cx context args pin signature) (resolved, t)) :
    t = r.meaning s store context pin.gates signature.returns := by
  obtain ⟨blockTy, rfl, qualified⟩ := found_answer found
  rw [Signature.returns_resolve ground] at qualified
  exact found_qualify qualified

variable [LawfulMonad m]

/-- A method evaluates to what the selected overload returns, if nothing is generic there and the
type is known. -/
theorem found_inferPin_selected {site : CallSite m} {store : Store} {cx : LinkSite}
    {context value : Ty} {args : List Ty} {pin answered : Pin} {signature : Signature}
    (block : ∀ scope, r.Steady (site.blockTy scope))
    (selected : site.Selects r s store cx context args pin signature)
    (returns : signature.returns = value) (ground : value.isGeneric = false)
    (silent : context.mentionsSelf = false)
    (unreserved : ∀ name, r.answers s store pin.gates name ≠ some "self")
    (known : (r.meaning s store context pin.gates value).isUndefined = false)
    (ordinary : pin.path ≠ "Class#new")
    (found : r.Found s (site.inferPin store cx context args pin) answered) :
    ∃ reduced : Pin, answered = reduced.proxied (r.meaning s store context pin.gates value) ∧
      reduced.gates = pin.gates ∧ reduced.isMethod = pin.isMethod := by
  subst returns
  obtain ⟨before, after, ordered, fits, passed⟩ := selected
  obtain ⟨reduced, t, returned, rfl⟩ := found_inferPin found
  rcases found_returnTy returned with ⟨none, -, -⟩ | ⟨out, answered, outcome⟩
  · simp [Overload.ordered, none] at ordered
  rw [ordered] at answered
  -- the type is known, so no overload behind the selected one is asked
  obtain ⟨resolved, u, answers, rfl⟩ := found_answerFrom_selected block fits passed
    (fun _ _ answers => eq_of_found_answer ground answers ▸ known) answered
  rcases outcome with ⟨_, same, rfl⟩ | ⟨none, -, -⟩
  · obtain ⟨rfl, rfl⟩ := Prod.mk.inj (Option.some.inj same)
    obtain rfl := eq_of_found_answer ground answers
    have done := Ty.selfTo_of_not_mentionsSelf
      (mentionsSelf_meaning unreserved ground silent) context
    refine ⟨pin.withOverloads [resolved], ?_, Pin.gates_withOverloads pin _,
      Pin.isMethod_withOverloads pin _⟩
    rw [if_neg (by simp [ordinary]), if_neg (by simp [known]), done]
  · exact absurd none (by simp)

/-- A call behind a receiver of one type, where one method is found, refers to what that method
evaluates to; and with more of them, what each evaluates to is among what it refers to. -/
theorem evaluates_of_found_resolve {site : CallSite m} {store : Store} {cx : LinkSite}
    {member : Member} {method : Pin} {stack pins : List Pin} {args : List Ty}
    (block : ∀ scope, r.Steady (site.blockTy scope)) (arguments : r.Steady site.argTys)
    (behind : cx.head = false) (named : site.word ≠ "super" ∧ site.word ≠ "yield")
    (inside : member ∈ cx.receiver.context.members)
    (methods : r.Found s (store.methodsNamed member site.word) stack) (listed : method ∈ stack)
    (inferred : r.Found s site.argTys args) (found : r.Found s (site.resolve store cx) pins) :
    ∃ answered ∈ pins, r.Found s (site.inferPin store cx (.single member) args method) answered ∧
      (cx.receiver.context.members = [member] → stack = [method] → pins = [answered]) := by
  obtain ⟨answers, inStep, resolved⟩ := found_resolve block arguments behind named found
  obtain ⟨part, answering, stack', methods', evaluated⟩ := exists_right_of_forall₂ inStep inside
  obtain rfl := (r.steady_methodsNamed store member _).unique methods methods'
  rcases found_inferPins block evaluated with ⟨rfl, -⟩ | ⟨args', inferred', each⟩
  · exact absurd listed List.not_mem_nil
  obtain rfl := arguments.unique inferred inferred'
  obtain ⟨answered, inPart, evaluates⟩ := exists_right_of_forall₂ each listed
  have some := List.mem_flatten.mpr ⟨part, answering, inPart⟩
  rcases resolved with rfl | ⟨none, -⟩
  · refine ⟨answered, some, evaluates, fun alone single => ?_⟩
    subst single
    rw [alone] at inStep
    obtain ⟨only, rfl⟩ := List.length_eq_one_iff.mp inStep.length_eq.symm
    obtain rfl := List.mem_singleton.mp answering
    obtain ⟨one, rfl⟩ := List.length_eq_one_iff.mp each.length_eq.symm
    simp [List.mem_singleton.mp inPart]
  · exact absurd some (by simp [none])

/-- A method that returns a generic of its namespace evaluates to the type that an edge gives to the
generic, and if it is the only method that is found, so does the call. Relative names in the type
are looked up in the gates of the method. If they are found alike in the gates of the edge, the type
means what was written there. -/
theorem infer_edgeValue {an : Analyzer} {chain : Chain} {front : List Link} {c : Call}
    {lexical : Pin} {locals : List Pin} {site : LinkSite} {member : Member} {edge stored : Pin}
    {frame : Frame} {generic : String} {value t : Ty} {args : List Ty} {signature : Signature}
    (ends : chain.links = front ++ [.call c]) (behind : front ≠ [])
    (named : c.word ≠ "super" ∧ c.word ≠ "yield")
    (reaches : an.Reaches r s chain.nullable [.call c] site chain.links
      (chain.firstSite lexical locals))
    (inside : member ∈ site.receiver.context.members)
    (along : (siteOf an.infer c site).FindsAlong r s an.store member edge frame stored)
    (gives : an.store.EdgeGives edge frame.path generic value)
    (inferred : r.Found s (siteOf an.infer c site).argTys args)
    (selected : (siteOf an.infer c site).Selects r s an.store site (.single member) args
      (an.store.seenFrom frame.bindings stored) (signature.substitute frame.bindings))
    (returns : signature.returns = .single (.generic generic))
    (silent : (Ty.single member).mentionsSelf = false) (ordinary : stored.path ≠ "Class#new")
    (unreserved : ∀ name, r.answers s an.store stored.gates name ≠ some "self")
    (known : (r.meaning s an.store (.single member) stored.gates value).isUndefined = false)
    (found : r.Found s (an.infer chain lexical locals) t) :
    ∃ tys, r.meaning s an.store (.single member) stored.gates value ∈ tys ∧
      t = chainUnion chain.nullable tys ∧
      (site.receiver.context.members = [member] →
        r.Found s (an.store.methodsNamed member c.word)
          [an.store.seenFrom frame.bindings stored] →
        tys = [r.meaning s an.store (.single member) stored.gates value]) ∧
      ((∀ name, (value.selfTo (.single member)).anyMember (fun m => m.name == name) = true →
          r.answers s an.store stored.gates name = r.answers s an.store edge.gates name) →
        r.meaning s an.store (.single member) stored.gates value =
          r.meaning s an.store (.single member) edge.gates value) := by
  obtain ⟨pins, tys, resolved, inStep, rfl⟩ := found_infer_of_reaches reaches found
  obtain ⟨block, arguments⟩ := r.steady_siteOf an c site
  have head : site.head = false := head_of_reaches_concat behind (ends ▸ reaches)
  obtain ⟨frames, searched, visited⟩ := along.visited
  have listed : an.store.seenFrom frame.bindings stored ∈ an.store.frameMethods c.word frame :=
    Store.mem_frameMethods.mpr ⟨stored, along.declared, along.named, rfl⟩
  have seen := List.mem_flatMap.mpr ⟨frame, visited, listed⟩
  have methods : r.Found s (an.store.methodsNamed member c.word) _ :=
    found_methodsNamed_of_found searched
  obtain ⟨answered, candidate, evaluates, only⟩ := evaluates_of_found_resolve block arguments head
    named inside methods seen inferred resolved
  obtain ⟨source, followed⟩ := along.followed
  -- seen from the frame, the overload returns the type that the edge gives
  have bound : frame.bindings.find? generic = some value := by
    rw [bindings_of_found_follow followed]
    exact gives.find? source
  have whole : (signature.substitute frame.bindings).returns = value := by
    rw [Signature.substitute, Signature.returns_mapTys, returns]
    exact Ty.substitute_generic bound gives.concrete.normal
  have gates : (an.store.seenFrom frame.bindings stored).gates = stored.gates :=
    Store.seenFrom_eq Pin.gates_withOverloads Pin.gates_proxied _ _ _
  have path : (an.store.seenFrom frame.bindings stored).path = stored.path :=
    Store.seenFrom_eq Pin.path_withOverloads Pin.path_proxied _ _ _
  obtain ⟨reduced, rfl, sameGates, sameMethod⟩ := found_inferPin_selected block selected whole
    gives.concrete.ground silent (gates ▸ unreserved) (gates ▸ known) (path ▸ ordinary) evaluates
  rw [gates] at sameGates candidate only
  have isMethod : reduced.isMethod = true :=
    sameMethod.trans (Store.isMethod_of_mem_frameMethods listed)
  -- the names are looked up twice in the same gates, and the second time nothing is relative
  have typed : ∀ {u}, r.Found s (an.typeOf (reduced.proxied
      (r.meaning s an.store (.single member) stored.gates value)) locals) u →
      u = r.meaning s an.store (.single member) stored.gates value := by
    intro u found
    rcases found_typeOf_proxied isMethod found with ⟨undefined, -⟩ | ⟨-, rfl⟩
    · exact absurd (undefined.symm.trans known) (by simp)
    · rw [sameGates]
      exact Ty.qualify_qualify _ _
  refine ⟨tys, ?_, rfl, fun alone single => ?_, fun same => Ty.qualify_congr same⟩
  · obtain ⟨u, inside, found⟩ := exists_right_of_forall₂ inStep candidate
    exact typed found ▸ inside
  · obtain rfl := only alone ((r.steady_methodsNamed an.store member _).unique methods single)
    obtain ⟨u, rfl⟩ := List.length_eq_one_iff.mp inStep.length_eq.symm
    cases inStep with
    | cons found _ => rw [typed found]

end SteadyRunner

section Edged

/-- A class `P` of generic `T`. -/
def spaceP : Pin :=
  .make "P" (some .root) (.space false ["T"])

/-- The method `P#get`, `() -> generic<T>`. -/
def getT : Pin :=
  .make "get" (some spaceP) (.method .instanceLevel .everyone [.returning (.single (.generic "T"))])

def moduleA : Pin :=
  .make "A" (some .root) (.space true [])

def spaceN : Pin :=
  .make "N" (some moduleA) (.space false [])

/-- The class `A::N` has the superclass `P<Foo>`. -/
def superOfN : Pin :=
  .edge spaceN .superclass "P" [.single (.named "Foo")]

/-- The classes `P`, `A::N` and `A::Foo`. -/
def edgedSpaces : Analyzer :=
  ⟨.ofGroups [("n.rb",
    [.root, spaceP, getT, moduleA, .make "Foo" (some moduleA) (.space false []), spaceN,
      superOfN])], 0⟩

/-- The frame of `P` as it is reached from `A::N`. -/
def frameP : Frame :=
  ⟨"P", .instanceLevel, ⟨[("T", .single (.named "Foo"))]⟩⟩

theorem framesWithin_edgedSpaces : edgedSpaces.store.framesWithin 9 (.absolute "A::N") =
    some [.make "A::N" .instanceLevel, frameP, .make "Object" .instanceLevel,
      .make "BasicObject" .instanceLevel] :=
  rfl

theorem edgeGives_superOfN :
    edgedSpaces.store.EdgeGives superOfN "P" "T" (.single (.named "Foo")) where
  written := ⟨.superclass, [.single (.named "Foo")], 0, rfl, rfl, rfl⟩
  distinct := List.nodup_singleton "T"
  concrete := ⟨Ty.normal_named "Foo", rfl⟩
  known := rfl

theorem methodsOf_spaceP : edgedSpaces.store.methodsOf "P" .instanceLevel = [getT] :=
  rfl

theorem infer_edgeValue_edgedSpaces :
    Id.run (edgedSpaces.infer (.sending (.absolute "A::N") "get") .root []) =
      .single (.named "Foo") := by
  have typed : Id.run (receiverTy edgedSpaces.typeOf false [.value (.absolute "A::N")] []) =
      .absolute "A::N" := rfl
  have ends : (Chain.sending (.absolute "A::N") "get").links =
      [.literal (.absolute "A::N")] ++ [.call (.bare "get")] := rfl
  have searched := Store.receiverAncestors_of_within framesWithin_edgedSpaces
  have along : (siteOf edgedSpaces.infer (.bare "get")
      (Chain.sentSite (.absolute "A::N") "get" .root [])).FindsAlong .plain () edgedSpaces.store
        (.absolute "A::N") superOfN frameP getT :=
    { visited := ⟨_, ⟨(), searched, trivial⟩, by simp⟩
      followed := ⟨.make "A::N" .instanceLevel, (), rfl, trivial⟩
      declared := methodsOf_spaceP ▸ List.mem_singleton_self getT
      named := rfl }
  have selected : (siteOf edgedSpaces.infer (.bare "get")
      (Chain.sentSite (.absolute "A::N") "get" .root [])).Selects .plain () edgedSpaces.store
        (Chain.sentSite (.absolute "A::N") "get" .root []) (.absolute "A::N") []
        (edgedSpaces.store.seenFrom frameP.bindings getT)
        ((Signature.returning (.single (.generic "T"))).substitute frameP.bindings) :=
    ⟨[], [], rfl, ⟨rfl, (), rfl, trivial⟩, by simp⟩
  have only : Id.run (edgedSpaces.store.methodsNamed (.absolute "A::N") "get") =
      [edgedSpaces.store.seenFrom frameP.bindings getT] :=
    congrArg (List.flatMap (edgedSpaces.store.frameMethods "get")) searched
  obtain ⟨tys, -, same, alone, -⟩ := SteadyRunner.infer_edgeValue ends (by simp) (by decide)
    (reaches_sending typed rfl)
    (Chain.context_sentSite (.absolute "A::N") "get" .root [] ▸ List.mem_singleton_self _)
    along edgeGives_superOfN ⟨(), rfl, trivial⟩ selected rfl rfl (by decide +kernel)
    (fun name found => absurd (Store.hasConstant_of_resolve? found) (by decide +kernel)) rfl
    (SteadyRunner.found_run _ ())
  rw [alone (Chain.context_sentSite (.absolute "A::N") "get" .root [] ▸ rfl) ⟨(), only, trivial⟩]
    at same
  exact same

/-- In `A` the name `Foo` means `A::Foo`, but the call of `get` gives `Foo`. -/
theorem infer_ne_edgeValue_edgedSpaces :
    ¬ ∀ (an : Analyzer) (receiver : Member) (word : String) (source frame : Frame)
      (edge stored : Pin) (generic : String) (value : Ty),
      source ∈ Id.run (an.store.receiverAncestors receiver) →
      edge ∈ an.store.edgesFrom source.path [.superclass, .includes, .prepends, .extends] →
      Id.run (an.store.follow source edge frame.scope) = some frame →
      frame ∈ Id.run (an.store.receiverAncestors receiver) →
      an.store.EdgeGives edge frame.path generic value →
      stored ∈ an.store.methodsOf frame.path frame.scope →
      stored.signatures = [.returning (.single (.generic generic))] →
      Id.run (an.store.methodsNamed receiver word) = [an.store.seenFrom frame.bindings stored] →
      Id.run (an.infer (.sending receiver word) .root []) =
        value.qualify fun name => an.store.resolve? name edge.gates := by
  intro claimed
  have searched := Store.receiverAncestors_of_within framesWithin_edgedSpaces
  have typed : Id.run (receiverTy edgedSpaces.typeOf false [.value (.absolute "A::N")] []) =
      .absolute "A::N" := rfl
  have edges : edgedSpaces.store.edgesFrom "A::N" [.superclass, .includes, .prepends, .extends] =
      [superOfN] := rfl
  have same := claimed edgedSpaces (.absolute "A::N") "get" (.make "A::N" .instanceLevel) frameP
    superOfN getT "T" (.single (.named "Foo")) (by simp [searched])
    (edges ▸ List.mem_singleton_self superOfN) rfl (by simp [searched])
    edgeGives_superOfN (methodsOf_spaceP ▸ List.mem_singleton_self getT) rfl
    (congrArg (List.flatMap (edgedSpaces.store.frameMethods "get")) searched)
  rw [run_infer_sending (by decide) typed rfl searched] at same
  exact absurd (congrArg (Ty.text true) same) (by decide +kernel)

end Edged

end DuckInfer
