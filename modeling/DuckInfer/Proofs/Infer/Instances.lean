import DuckInfer.Proofs.Infer.Shorthand
import DuckInfer.Proofs.Store.Omission

/-!
The call of `new` on classes. If `Class#new` is declared, each class finds it among its ancestors,
and each method makes an instance of its own class; if no class has a method `new`, the call itself
makes an instance of the whole receiver. Main statement: whether `Class#new` is declared or not, the
call on classes without other methods of the name has the union of their instances as its type.
-/

namespace DuckInfer

/-! ### Methods by their paths -/

/-- What stands between a namespace and the name of a method in it. -/
def Scope.separator : Scope → String
  | .instanceLevel => "#"
  | .classLevel => "."

theorem Pin.path_of_methodLevel? {pin : Pin} {scope : Scope}
    (level : pin.methodLevel? = some scope) :
    pin.owner? = some pin.space ∧ pin.path = pin.space ++ scope.separator ++ pin.name := by
  obtain ⟨name, closure, location, comments, declared, ty⟩ := pin
  cases declared with
  | method own visibility signatures =>
    obtain rfl : own = scope := Option.some.inj level
    cases closure <;> cases own <;> exact ⟨rfl, rfl⟩
  | _ => exact absurd level (by simp [methodLevel?])

/-- A method whose path is written like that of an instance method is one, of the namespace in
front. -/
theorem Pin.owner?_of_path {pin : Pin} {scope : Scope} {space : String}
    (level : pin.methodLevel? = some scope) (path : pin.path = space ++ "#" ++ pin.name) :
    pin.owner? = some space ∧ scope = .instanceLevel := by
  obtain ⟨owner, written⟩ := path_of_methodLevel? level
  have parts : pin.space.toList ++ scope.separator.toList = space.toList ++ "#".toList := by
    have whole := congrArg String.toList (written.symm.trans path)
    simpa only [String.toList_append, List.append_left_inj] using whole
  have lengths : scope.separator.toList.length = "#".toList.length := by
    cases scope <;> rfl
  obtain ⟨front, separator⟩ := List.append_inj' parts lengths
  refine ⟨owner.trans (congrArg some (String.toList_inj.mp front)), ?_⟩
  cases scope with
  | instanceLevel => rfl
  | classLevel => exact absurd separator (by decide)

/-! ### Classes -/

/-- The member is `Class<X>`, where `X` is known, is no module, and has no method `new` on itself
but `Class#new`. -/
structure Store.MakesInstances {m : Type → Type} [Monad m] [ConstantLookup m] {σ : Type}
    (r : SteadyRunner m σ) (s : σ) (store : Store) (member : Member) : Prop where
  name : member.name = "Class"
  alone : ∃ t, member.subs = [t] ∧ t.isUndefined = false
  ofClass : store.hasModule member.space = false
  only : ∀ stack, r.Found s (store.methodsNamed member "new") stack →
    ∀ method ∈ stack, method.path = "Class#new"

namespace Store.MakesInstances

variable {m : Type → Type} [Monad m] [ConstantLookup m] {σ : Type} {r : SteadyRunner m σ} {s : σ}
  {store : Store} {member : Member}

theorem scope_eq (makes : store.MakesInstances r s member) : member.scope = .classLevel := by
  obtain ⟨t, subs, -⟩ := makes.alone
  simp [Member.scope, Member.isMeta, Member.isMetaName, makes.name, subs]

theorem instanceMembers_eq (makes : store.MakesInstances r s member) :
    Ty.instanceMembers member = member.subs.flatMap Ty.members := by
  obtain ⟨t, subs, -⟩ := makes.alone
  simp [Ty.instanceMembers, Member.isMetaName, makes.name, subs]

theorem isUndefined_eq (makes : store.MakesInstances r s member) : member.isUndefined = false := by
  simp [Member.isUndefined, makes.name]

section

variable (normal : (Ty.single member).Normal)
include normal

/-- The parameter shows in the written form. -/
theorem tag_ne (makes : store.MakesInstances r s member) : (Ty.single member).tag ≠ "Class" := by
  have fits : member.Fits := (normal.of_mem List.mem_cons_self).1
  obtain ⟨t, subs, known⟩ := makes.alone
  obtain ⟨name, marked, kind, keys, own⟩ := member
  obtain rfl : name = "Class" := makes.name
  obtain rfl : own = [t] := subs
  have shown : kind ≠ .none := fun none => absurd (fits.mp none).2 (by simp)
  have text : (Ty.single ⟨"Class", marked, kind, keys, [t]⟩).tag =
      "Class" ++ kind.brackets (Ty.texts false keys) (Ty.texts false [t]) := by
    simp [Ty.tag, Ty.single, Ty.text, Member.text, Member.texts, known]
  intro same
  have lengths := congrArg String.length (text.symm.trans same)
  rw [String.length_append] at lengths
  cases kind with
  | none => exact shown rfl
  | _ => simp [BracketStyle.brackets] at lengths

/-- The instance type is the parameter. -/
theorem subs_eq (makes : store.MakesInstances r s member) :
    member.subs = [(Ty.single member).instanceTy] := by
  have whole : (Ty.single member).instanceTy = Ty.unionAll member.subs := by
    rw [Ty.instanceTy, Ty.unionAll, ← makes.instanceMembers_eq]
    exact congrArg Ty.ofMembers (List.append_nil _)
  obtain ⟨t, subs, -⟩ := makes.alone
  have param : t ∈ member.params := List.mem_append_right _ (by simp [subs])
  have distinct := ((normal.of_mem List.mem_cons_self).2 t param).distinct
  rw [whole, subs, Ty.unionAll_alone distinct]

theorem isUndefined_instanceTy (makes : store.MakesInstances r s member) :
    (Ty.single member).instanceTy.isUndefined = false := by
  obtain ⟨t, subs, known⟩ := makes.alone
  obtain ⟨same, -⟩ := List.cons.inj (subs.symm.trans (makes.subs_eq normal))
  exact same ▸ known

end

end Store.MakesInstances

section

variable {m : Type → Type} [Monad m] [ConstantLookup m] {σ : Type} {r : SteadyRunner m σ} {s : σ}
  {store : Store} {receiver : Ty}
  (makes : ∀ member ∈ receiver.members, store.MakesInstances r s member)
include makes

/-- The instance type of classes is the union of their parameters. -/
theorem Ty.instanceTy_of_makesInstances :
    receiver.instanceTy = unionAll (receiver.members.flatMap Member.subs) := by
  rw [instanceTy, unionAll, List.flatMap_assoc]
  exact congrArg ofMembers (List.flatMap_congr fun member listed =>
    (makes member listed).instanceMembers_eq)

variable (normal : receiver.Normal)
include normal

theorem Ty.flatMap_subs_of_makesInstances : receiver.members.flatMap Member.subs =
    receiver.members.map fun member => (single member).instanceTy := by
  rw [List.map_eq_flatMap]
  exact List.flatMap_congr fun member listed =>
    (makes member listed).subs_eq (normal.single listed)

/-- The instances are known types. -/
theorem Ty.knownUnion_of_makesInstances :
    knownUnion (receiver.members.flatMap Member.subs) =
      unionAll (receiver.members.flatMap Member.subs) := by
  refine congrArg unionAll (List.filter_eq_self.mpr fun t sub => ?_)
  rw [flatMap_subs_of_makesInstances makes normal] at sub
  obtain ⟨member, listed, rfl⟩ := List.mem_map.mp sub
  simp [(makes member listed).isUndefined_instanceTy (normal.single listed)]

end

/-! ### The search of a class -/

namespace SteadyRunner

variable {m : Type → Type} [Monad m] [LawfulMonad m] [ConstantLookup m] {σ : Type}
  {r : SteadyRunner m σ} {s : σ} {store : Store}

open Store in
/-- A frame expands to itself, among others. -/
theorem emitted_of_found_expansion {frame : Frame} {steps : List SearchStep}
    (found : r.Found s (store.expansion frame) steps) : frame ∈ emitted steps := by
  have follows : ∀ kind, r.Steady (store.followAll frame kind) :=
    fun kind => (r.lookups store).holds_followAll frame kind
  have superclass : ∀ scope, r.Steady (store.superclassOf frame scope) :=
    fun scope => (r.lookups store).holds_superclassOf frame scope
  unfold expansion at found
  split at found
  · obtain ⟨prepended, -, found⟩ := found.of_bind fun _ =>
      .bind (superclass _) fun _ => .bind (follows _) fun _ => .pure _
    obtain ⟨above, -, found⟩ := found.of_bind fun _ => .bind (follows _) fun _ => .pure _
    obtain ⟨included, -, whole⟩ := found.of_bind fun _ => .pure _
    rw [← whole.of_pure]
    simp [emitted_append, emitted]
  · obtain ⟨above, -, found⟩ := found.of_bind fun _ => .bind (follows _) fun _ => .pure _
    obtain ⟨extended, -, whole⟩ := found.of_bind fun _ => .pure _
    rw [← whole.of_pure]
    simp [emitted_append, emitted]

open Store in
/-- However constants were looked up: frames on the stack are listed, those to expand unless they
were expanded before. -/
theorem mem_of_found_workOff (pending : List (String × Scope)) (stack : List SearchStep)
    {frames : List Frame} (found : r.Found s (store.workOff pending stack) frames)
    {key : String × Scope} (listed : key ∈ (emitted stack).map Frame.key ∨
      key ∈ (expanded stack).map Frame.key ∧ key ∈ pending) : key ∈ frames.map Frame.key := by
  have steady : ∀ pending stack, r.Steady (store.workOff pending stack) :=
    (r.lookups store).holds_workOff
  induction pending, stack using workOff.induct generalizing frames with
  | case1 pending =>
    rcases listed with none | ⟨none, -⟩
    · exact absurd none List.not_mem_nil
    · exact absurd none List.not_mem_nil
  | case2 pending frame stack ih =>
    rw [workOff] at found
    obtain ⟨rest, found, whole⟩ := found.of_bind fun _ => .pure _
    rw [← whole.of_pure, List.map_cons]
    rcases listed with first | next
    · rcases List.mem_cons.mp first with rfl | later
      · exact List.mem_cons_self
      · exact List.mem_cons_of_mem _ (ih found (Or.inl later))
    · exact List.mem_cons_of_mem _ (ih found (Or.inr next))
  | case3 pending frame stack new ih =>
    rw [workOff, dif_pos new] at found
    obtain ⟨steps, expands, found⟩ := found.of_bind fun _ => steady _ _
    refine ih steps found ?_
    rw [emitted_append, expanded_append, List.map_append, List.map_append]
    by_cases same : key = frame.key
    · exact Or.inl (List.mem_append_left _
        (same ▸ List.mem_map_of_mem (emitted_of_found_expansion expands)))
    · rcases listed with first | ⟨next, left⟩
      · exact Or.inl (List.mem_append_right _ first)
      · refine Or.inr ⟨List.mem_append_right _ ?_, mem_eraseKeyFrom.mpr ⟨left, same⟩⟩
        exact (List.mem_cons.mp next).resolve_left same
  | case4 pending frame stack known ih =>
    rw [workOff, dif_neg known] at found
    refine ih found (listed.imp_right ?_)
    rintro ⟨next, left⟩
    refine ⟨(List.mem_cons.mp next).resolve_left ?_, left⟩
    rintro rfl
    exact known left

/-- A class has the instance methods of `Class`. -/
theorem mem_of_found_receiverAncestors {member : Member} {frames : List Frame}
    (level : member.scope = .classLevel) (ofClass : store.hasModule member.space = false)
    (found : r.Found s (store.receiverAncestors member) frames) :
    ("Class", Scope.instanceLevel) ∈ frames.map Frame.key := by
  have start : (store.receiverFrame member).scope = .classLevel := level
  have entry : (Frame.make (store.metaPath (store.receiverFrame member).path)
      .instanceLevel).key = ("Class", .instanceLevel) := by
    have path : store.metaPath member.space = "Class" := by simp [Store.metaPath, ofClass]
    exact congrArg (·, Scope.instanceLevel) path
  have among : Frame.make (store.metaPath (store.receiverFrame member).path) .instanceLevel ∈
      store.entries (store.receiverFrame member) := by
    simp [Store.entries, start]
  rw [Store.receiverAncestors, Store.search, start] at found
  refine mem_of_found_workOff _ _ found (Or.inr ⟨?_, entry ▸ Store.entries_reachable among⟩)
  rw [← entry]
  exact List.mem_cons_of_mem _ List.mem_cons_self

/-- If a class finds `Class#new`, all classes do. -/
theorem ne_nil_of_found_methodsNamed (coherent : store.Coherent) {member other : Member}
    {method : Pin} {stack others : List Pin}
    (first : r.Found s (store.methodsNamed member "new") stack) (listed : method ∈ stack)
    (path : method.path = "Class#new") (makes : store.MakesInstances r s other)
    (second : r.Found s (store.methodsNamed other "new") others) : others ≠ [] := by
  obtain ⟨frames, -, rfl⟩ := found_methodsNamed first
  obtain ⟨frame, -, seen⟩ := List.mem_flatMap.mp listed
  obtain ⟨stored, declared, named, rfl⟩ := Store.mem_frameMethods.mp seen
  rw [Store.seenFrom_eq Pin.path_withOverloads Pin.path_proxied] at path
  rw [coherent.methodsOf, List.mem_filter, Bool.and_eq_true, beq_iff_eq, beq_iff_eq] at declared
  obtain ⟨inStore, -, level⟩ := declared
  have written : stored.path = "Class" ++ "#" ++ stored.name := named ▸ path
  obtain ⟨owner, instances⟩ := Pin.owner?_of_path level written
  have ofClass : stored ∈ store.methodsOf "Class" .instanceLevel := by
    rw [coherent.methodsOf, List.mem_filter, owner, level, instances]
    exact ⟨inStore, rfl⟩
  obtain ⟨frames', searched, rfl⟩ := found_methodsNamed second
  obtain ⟨frame', visited, key⟩ := List.mem_map.mp
    (mem_of_found_receiverAncestors makes.scope_eq makes.ofClass searched)
  obtain ⟨atClass, onInstances⟩ := Prod.mk.inj key
  have again : store.seenFrom frame'.bindings stored ∈ store.frameMethods "new" frame' :=
    Store.mem_frameMethods.mpr ⟨stored, atClass ▸ onInstances ▸ ofClass, named, rfl⟩
  exact List.ne_nil_of_mem (List.mem_flatMap.mpr ⟨frame', visited, again⟩)

/-! ### The types of the instances -/

variable {an : Analyzer}

omit [LawfulMonad m] in
/-- The method `Class#new` makes an instance of the class that received the call, whatever its
overloads state. -/
theorem eq_of_found_inferPin_new {site : CallSite m} {cx : LinkSite} {receiver v : Ty}
    {args : List Ty} {method answered : Pin} {locals : List Pin} (isMethod : method.isMethod = true)
    (path : method.path = "Class#new") (tag : receiver.tag ≠ "Class") (normal : receiver.Normal)
    (rooted : receiver.isAbsolute = true) (known : receiver.instanceTy.isUndefined = false)
    (evaluates : r.Found s (site.inferPin an.store cx receiver args method) answered)
    (typed : r.Found s (an.typeOf answered locals) v) : v = receiver.instanceTy := by
  obtain ⟨reduced, u, returned, rfl⟩ := found_inferPin evaluates
  have kept : reduced.path = "Class#new" ∧ reduced.isMethod = true := by
    rcases reduced_of_found_returnTy returned with rfl | ⟨signatures, rfl⟩
    · exact ⟨path, isMethod⟩
    · exact ⟨(Pin.path_withOverloads _ _).trans path,
        (Pin.isMethod_withOverloads _ _).trans isMethod⟩
  rw [if_pos (by simp [kept.1, tag])] at typed
  rcases found_typeOf_proxied kept.2 typed with ⟨unknown, -⟩ | ⟨-, rfl⟩
  · exact absurd (unknown.symm.trans known) (by simp)
  · exact Ty.qualify_of_isAbsolute (Ty.normal_instanceTy normal) (Ty.isAbsolute_instanceTy rooted) _

omit [LawfulMonad m] in
/-- Pins in several parts, where those of a part all evaluate to the same type, have the union of
these types. -/
theorem knownUnion_of_evaluate {ts tys : List Ty} {parts : List (List Pin)} {locals : List Pin}
    (distinct : ∀ t ∈ ts, t.Distinct)
    (each : List.Forall₂ (fun t pins => pins ≠ [] ∧
      ∀ pin ∈ pins, ∀ v, r.Found s (an.typeOf pin locals) v → v = t) ts parts)
    (evaluate : r.Evaluate s an locals parts.flatten tys) :
    Ty.knownUnion tys = Ty.knownUnion ts ∧ ∀ v ∈ tys, v ∈ ts := by
  induction each generalizing tys with
  | nil =>
    cases evaluate
    exact ⟨rfl, fun _ => id⟩
  | @cons t pins ts parts first rest ih =>
    rw [List.forall_mem_cons] at distinct
    obtain ⟨front, back, rfl, frontStep, backStep⟩ := exists_append_of_forall₂ evaluate
    obtain ⟨later, among⟩ := ih distinct.2 backStep
    have same : ∀ v ∈ front, v = t := by
      intro v listed
      obtain ⟨pin, inside, found⟩ := exists_left_of_forall₂ frontStep listed
      exact first.2 pin inside v found
    have some : front ≠ [] := by
      rintro rfl
      exact first.1 (List.forall₂_nil_right_iff.mp frontStep)
    refine ⟨?_, fun v listed => ?_⟩
    · rw [Ty.knownUnion_append (fun v listed => same v listed ▸ distinct.1)
          (fun v listed => distinct.2 v (among v listed)), later,
        Ty.knownUnion_of_repeated distinct.1 some same,
        ← Ty.knownUnion_append (List.forall_mem_singleton.mpr distinct.1) distinct.2]
      rfl
    · rcases List.mem_append.mp listed with inside | inside
      · exact same v inside ▸ List.mem_cons_self
      · exact List.mem_cons_of_mem _ (among v inside)

/-- If a class has the method, what answers for it are instances of it. -/
theorem instances_of_answersFor {site : CallSite m} {cx : LinkSite} {member : Member}
    {pins locals : List Pin} (block : ∀ scope, r.Steady (site.blockTy scope))
    (word : site.word = "new") (makes : an.store.MakesInstances r s member)
    (normal : (Ty.single member).Normal) (rooted : (Ty.single member).isAbsolute = true)
    (some : ∀ stack, r.Found s (an.store.methodsNamed member "new") stack → stack ≠ [])
    (answers : site.AnswersFor r s an.store cx member pins) :
    pins ≠ [] ∧ ∀ pin ∈ pins, ∀ v, r.Found s (an.typeOf pin locals) v →
      v = (Ty.single member).instanceTy := by
  obtain ⟨stack, listed, inferred⟩ := answers
  rw [word] at listed
  rcases found_inferPins block inferred with ⟨none, -⟩ | ⟨args, -, inStep⟩
  · exact absurd none (some stack listed)
  · refine ⟨?_, fun pin inside v typed => ?_⟩
    · rintro rfl
      exact some stack listed (List.forall₂_nil_right_iff.mp inStep)
    · obtain ⟨method, stacked, evaluates⟩ := exists_left_of_forall₂ inStep inside
      exact eq_of_found_inferPin_new (isMethod_of_found_methodsNamed listed stacked)
        (makes.only stack listed method stacked) (makes.tag_ne normal) normal rooted
        (makes.isUndefined_instanceTy normal) evaluates typed

omit [LawfulMonad m] in
/-- A call of `new` on classes that makes no instance itself is answered by a method. -/
theorem exists_method_of_not_instantiates {c : Call} {site : CallSite m} {cx : LinkSite}
    {receiver : Ty} {answers : List (List Pin)} (word : c.word = "new") (word' : site.word = "new")
    (makes : ∀ member ∈ receiver.members, an.store.MakesInstances r s member)
    (answered : List.Forall₂ (site.AnswersFor r s an.store cx) receiver.members answers)
    (other : ¬ c.Instantiates r s an.store receiver) :
    ∃ member ∈ receiver.members, ∃ method stack,
      r.Found s (an.store.methodsNamed member "new") (method :: stack) := by
  by_contra none
  refine other ⟨word, fun member listed => (makes member listed).scope_eq,
    fun member listed => ?_⟩
  obtain ⟨_, -, stack, methods, -⟩ := exists_right_of_forall₂ answered listed
  rw [word'] at methods
  rw [word]
  cases stack with
  | nil => exact methods
  | cons method stack => exact absurd ⟨member, listed, method, stack, methods⟩ none

/-- The call of `new` on classes without other methods of the name has the union of the instances as
its type, whether the method `Class#new` makes them or the call does. -/
theorem found_callTy_new {c : Call} {cx : LinkSite} {receiver u : Ty}
    (coherent : an.store.Coherent) (normal : receiver.Normal) (rooted : receiver.isAbsolute = true)
    (word : c.word = "new")
    (makes : ∀ member ∈ receiver.members, an.store.MakesInstances r s member)
    (found : r.Found s (an.callTy c cx receiver) u) :
    u = Ty.unionAll (receiver.members.flatMap Member.subs) := by
  have subs := Ty.flatMap_subs_of_makesInstances makes normal
  have distinct : ∀ t ∈ receiver.members.flatMap Member.subs, t.Distinct := by
    intro t sub
    obtain ⟨member, listed, sub⟩ := List.mem_flatMap.mp sub
    exact ((normal.of_mem listed).2 t (List.mem_append_right _ sub)).distinct
  rw [← Ty.knownUnion_of_makesInstances makes normal]
  obtain ⟨answers, answered, made⟩ :=
    found_callTy_named (by rw [word]; decide) normal rooted found
  rcases made with ⟨-, rfl⟩ | ⟨other, tys, evaluate, -, rfl⟩
  · rw [Ty.instanceTy_of_makesInstances makes, ← Ty.knownUnion_of_makesInstances makes normal,
      Ty.knownUnion_knownUnion distinct]
  · -- one class has the method, and so all classes have it
    obtain ⟨member, listed, method, stack, methods⟩ :=
      exists_method_of_not_instantiates word word makes answered other
    have path := (makes member listed).only _ methods method List.mem_cons_self
    have each : List.Forall₂ (fun member pins => pins ≠ [] ∧ ∀ pin ∈ pins, ∀ v,
        r.Found s (an.typeOf pin cx.locals) v → v = (Ty.single member).instanceTy)
        receiver.members answers := by
      refine ((List.forall₂_and_left _ _).mpr ⟨fun _ => id, answered⟩).imp ?_
      rintro other pins ⟨listed, answers⟩
      exact instances_of_answersFor (r.steady_siteOf an c cx).1 word (makes other listed)
        (normal.single listed) (Ty.isAbsolute_single rooted listed)
        (fun _ => ne_nil_of_found_methodsNamed coherent methods List.mem_cons_self path
          (makes other listed)) answers
    rw [subs] at distinct ⊢
    exact (knownUnion_of_evaluate distinct (List.forall₂_map_left_iff.mpr each) evaluate).1

/-! ### Stores without `Class#new` -/

/-- Without `Class#new` the classes are the same, and have no method `new` at all. -/
theorem makesInstances_without (byAnswers : LooksUpByAnswers m) (coherent : store.Coherent)
    (apart : store.OffTheWay "Class#new") {member : Member}
    (makes : store.MakesInstances r s member) :
    (store.without "Class#new").MakesInstances r s member where
  name := makes.name
  alone := makes.alone
  ofClass := by
    rw [(Store.sameEdges_without coherent apart).toSameSpaces.hasModule_eq]
    exact makes.ofClass
  only := by
    intro stack found method listed
    rw [Store.methodsNamed_without coherent apart byAnswers] at found
    obtain ⟨whole, methods, rfl⟩ := found.of_map
    exact makes.only whole methods method (List.mem_filter.mp listed).1

/-- The call of `new` on a literal of classes without other methods of the name, in a store and in
the same store with all pins at `Class#new` left out. If no namespace and no constant is declared at
this path, the call has the same type in both stores, and that is the union of the instances. -/
theorem infer_new_without (byAnswers : LooksUpByAnswers m) {changes : List Store.Change}
    {budget : Nat} {receiver t t' : Ty} {c : Call} {location : Option Location}
    {lexical lexical' : Pin} {locals locals' : List Pin} {s' : σ}
    (absent : (Store.afterChanges changes).hasConstant "Class#new" = false)
    (normal : receiver.Normal) (rooted : receiver.isAbsolute = true) (word : c.word = "new")
    (makes : ∀ member ∈ receiver.members,
      (Store.afterChanges changes).MakesInstances r s member ∧
        (Store.afterChanges changes).MakesInstances r s' member)
    (found : r.Found s (Analyzer.infer ⟨.afterChanges changes, budget⟩
      (.calling receiver c location) lexical locals) t)
    (found' : r.Found s' (Analyzer.infer ⟨(Store.afterChanges changes).without "Class#new", budget⟩
      (.calling receiver c location) lexical' locals') t') :
    t = t' ∧ t = Ty.unionAll (receiver.members.flatMap Member.subs) := by
  have coherent := Store.coherent_afterChanges changes
  have apart := Store.offTheWay_of_hasConstant coherent (by decide) absent
  have known : receiver.isUndefined = false := Ty.isUndefined_eq_false.mpr
    ⟨receiver.first, List.mem_cons_self, (makes _ List.mem_cons_self).1.isUndefined_eq⟩
  have first := found_callTy_new coherent normal rooted word (fun member listed =>
    (makes member listed).1) (found_callTy_of_calling normal rooted known found)
  have second := found_callTy_new (Store.coherent_without _ _) normal rooted word
    (fun member listed => makesInstances_without byAnswers coherent apart (makes member listed).2)
    (found_callTy_of_calling normal rooted known found')
  exact ⟨first.trans second.symm, first⟩

end SteadyRunner

section Spaces

/-- A class has no other methods `new` than `Class#new`, if those are all that the frames list which
thirty steps reach. -/
theorem Store.makesInstances_of_within {store : Store} {member : Member}
    (name : member.name = "Class") (alone : ∃ t, member.subs = [t] ∧ t.isUndefined = false)
    (ofClass : store.hasModule member.space = false)
    (only : (((store.framesWithin 30 member).map fun frames =>
      (frames.flatMap (store.frameMethods "new")).all (·.path == "Class#new")) = some true)) :
    store.MakesInstances .plain () member := by
  refine ⟨name, alone, ofClass, fun stack found method listed => ?_⟩
  obtain ⟨frames, within, all⟩ := Option.map_eq_some_iff.mp only
  obtain ⟨visited, searched, rfl⟩ := SteadyRunner.found_methodsNamed found
  obtain rfl : visited = frames :=
    (SteadyRunner.eq_of_found_plain searched).symm.trans (Store.receiverAncestors_of_within within)
  exact beq_iff_eq.mp (List.all_eq_true.mp all method listed)

/-- The classes `Foo` and `Bar` and the method `Class#new`, which returns a `String`. -/
def newDeclared : List Store.Change :=
  let ofClass : Pin := .make "Class" (some .root) (.space false [])
  [.update "a.rb" [.root, ofClass, .make "Foo" (some .root) (.space false []),
    .make "Bar" (some .root) (.space false []),
    .make "new" (some ofClass) (.method .instanceLevel .everyone
      [.returning (.absolute "String")])]]

/-- `Class<Foo>` or `Class<Bar>` -/
def fooOrBar : Ty :=
  (Ty.absolute "Foo").toClassLevel.union (Ty.absolute "Bar").toClassLevel

/-- The call `new("a")`. -/
def newCall : Call :=
  ⟨"new", none, [.ofLinks [.literal (.absolute "String")]], none⟩

/-- Both with `Class#new` and without it, the call makes a `Foo` or a `Bar`. -/
theorem infer_new_without_fooOrBar :
    (Store.afterChanges newDeclared).hasPin "Class#new" = true ∧
      ((Store.afterChanges newDeclared).without "Class#new").hasPin "Class#new" = false ∧
      Id.run (Analyzer.infer ⟨.afterChanges newDeclared, 8⟩ (.calling fooOrBar newCall none)
        .root []) = (Ty.absolute "Foo").union (.absolute "Bar") ∧
      Id.run (Analyzer.infer ⟨(Store.afterChanges newDeclared).without "Class#new", 8⟩
        (.calling fooOrBar newCall none) .root []) =
          (Ty.absolute "Foo").union (.absolute "Bar") := by
  have normal : fooOrBar.Normal :=
    Ty.normal_union (Ty.normal_toClassLevel (Ty.normal_absolute "Foo"))
      (Ty.normal_toClassLevel (Ty.normal_absolute "Bar"))
  have makes : ∀ member ∈ fooOrBar.members,
      (Store.afterChanges newDeclared).MakesInstances .plain () member ∧
        (Store.afterChanges newDeclared).MakesInstances .plain () member := by
    have each : ∀ member ∈ fooOrBar.members,
        (Store.afterChanges newDeclared).MakesInstances .plain () member := by
      intro member listed
      have alternatives : fooOrBar.members = [.list "Class" [.absolute "Foo"],
        .list "Class" [.absolute "Bar"]] := rfl
      rw [alternatives] at listed
      rcases List.mem_pair.mp listed with rfl | rfl
      · exact Store.makesInstances_of_within rfl ⟨_, rfl, rfl⟩ (by decide +kernel)
          (by decide +kernel)
      · exact Store.makesInstances_of_within rfl ⟨_, rfl, rfl⟩ (by decide +kernel)
          (by decide +kernel)
    exact fun member listed => ⟨each member listed, each member listed⟩
  have absent : (Store.afterChanges newDeclared).hasConstant "Class#new" = false := by
    decide +kernel
  have found : ∀ an : Analyzer, SteadyRunner.plain.Found ()
      (an.infer (.calling fooOrBar newCall none) .root [])
      (Id.run (an.infer (.calling fooOrBar newCall none) .root [])) :=
    fun _ => SteadyRunner.found_run (r := .plain) _ ()
  obtain ⟨same, first⟩ := SteadyRunner.infer_new_without looksUpByAnswers_plain absent normal rfl
    rfl makes (found _) (found _)
  exact ⟨by decide +kernel, by decide +kernel, first, same.symm.trans first⟩

/-- A module `Class#new` at the root, and another one in `K`, which the root includes. The latter
has a method `new`. The class `Foo` is extended by a module of this name. -/
def moduleAtPath : List Store.Change :=
  let k : Pin := .make "K" (some .root) (.space true [])
  let inner : Pin := .make "Class#new" (some k) (.space true [])
  let foo : Pin := .make "Foo" (some .root) (.space false [])
  [.update "a.rb" [.root, k, inner, .edge .root .includes "K" [], foo,
    .edge foo .extends "Class#new" [], .make "Class#new" (some .root) (.space true []),
    .make "new" (some inner) (.method .instanceLevel .everyone
      [.returning (.absolute "String")])]]

/-- Where the module at the root is left out, `Foo` is extended by the other one and finds its
method `new`. -/
theorem infer_new_ne_without : ¬ ∀ (changes : List Store.Change) (budget : Nat) (receiver : Ty)
    (c : Call) (location : Option Location) (lexical : Pin) (locals : List Pin), receiver.Normal →
    receiver.isAbsolute = true → c.word = "new" →
    (∀ member ∈ receiver.members,
      (Store.afterChanges changes).MakesInstances .plain () member) →
    Id.run (Analyzer.infer ⟨.afterChanges changes, budget⟩ (.calling receiver c location) lexical
        locals) =
      Id.run (Analyzer.infer ⟨(Store.afterChanges changes).without "Class#new", budget⟩
        (.calling receiver c location) lexical locals) := by
  intro claimed
  have makes : ∀ member ∈ (Ty.absolute "Foo").toClassLevel.members,
      (Store.afterChanges moduleAtPath).MakesInstances .plain () member := by
    intro member listed
    obtain rfl : member = .list "Class" [.absolute "Foo"] := List.mem_singleton.mp listed
    exact Store.makesInstances_of_within rfl ⟨_, rfl, rfl⟩ (by decide +kernel) (by decide +kernel)
  have normal := Ty.normal_toClassLevel (Ty.normal_absolute "Foo")
  have same := claimed moduleAtPath 8 (Ty.absolute "Foo").toClassLevel (.bare "new") none .root []
    normal rfl rfl makes
  have called : ∀ store : Store,
      Id.run (Analyzer.infer ⟨store, 8⟩
        (.calling (Ty.absolute "Foo").toClassLevel (.bare "new") none) .root []) =
      Id.run (Analyzer.callTy ⟨store, 8⟩ (.bare "new") rootSite (Ty.absolute "Foo").toClassLevel) :=
    fun store => (SteadyRunner.eq_of_found_plain (SteadyRunner.found_callTy_of_calling (r := .plain)
      normal rfl rfl (SteadyRunner.found_run _ ()))).symm
  rw [called, called, run_callTy_message (by decide) _ (by decide +kernel),
    run_callTy_message (by decide) _ (by decide +kernel)] at same
  exact absurd (congrArg Ty.tag same) (by decide +kernel)

end Spaces

end DuckInfer
