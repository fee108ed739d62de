import DuckInfer.Flow.Narrowing
import DuckInfer.Proofs.Flow.Conditions
import DuckInfer.Proofs.Store.AncestorSearch
import DuckInfer.Proofs.Ty.Constants

/-!
What a narrowed variable may hold. An object belongs to a type if it is an instance of the class
that some member names. Narrowing tells members by their names: a tested constant stands for each
member whose path ends in it. Main statement: what belongs to the declared type belongs to the
narrowed type of the branch that it takes, as long as the members that the tested constant stands
for name the same class as the constant, and `instance_of?` is not asked of an instance of a proper
subclass.
-/

namespace DuckInfer

/-! ### Objects and tests -/

/-- An object, as far as types and tests tell objects apart. -/
inductive Instance where
  | nil
  /-- the object `false` -/
  | falsity
  /-- a direct instance of the class at the path -/
  | ofClass (path : String)
  deriving DecidableEq, Repr

namespace Instance

def classPath : Instance → String
  | nil => "NilClass"
  | falsity => "FalseClass"
  | ofClass path => path

/-- The object counts as true in a condition. -/
def isTrue : Instance → Bool
  | nil | falsity => false
  | ofClass _ => true

end Instance

/-- The class that a member names, as it is written. A literal names the class that it is an
instance of. -/
def Member.writtenClass (member : Member) : String :=
  match member.classOfLiteral? with
  | some name => "::" ++ name
  | none => (if member.marked then "::" else "") ++ member.name

/-- A test of one object. -/
inductive TypeTest where
  /-- `is_a?` or `kind_of?` -/
  | kindOf (constant : String)
  /-- `instance_of?` -/
  | exactly (constant : String)
  | isNil
  /-- the object itself as a condition -/
  | truth
  deriving DecidableEq, Repr

namespace TypeTest

/-- The constant that names the tested class. -/
def constant? : TypeTest → Option String
  | kindOf constant | exactly constant => some constant
  | isNil | truth => none

/-- What a test tells if it comes out that way. -/
def predicate? : TypeTest → Bool → Option Predicate
  | kindOf constant, true | exactly constant, true => some (.isA constant)
  | kindOf constant, false | exactly constant, false => some (.notA constant)
  | isNil, true => some .isNil
  | isNil, false => some .notNil
  | truth, true => some .notNil
  | truth, false => none

end TypeTest

/-- The condition is the test of the variable. -/
inductive Node.Asks : Node → String → TypeTest → Prop where
  | kindOf {receiver argument : Node} {method name constant : String} (range : Range) :
      method = "is_a?" ∨ method = "kind_of?" →
      receiver.namedVariable? = some name → argument.constantPath? = some constant →
      Asks (.send (some receiver) method [argument] range) name (.kindOf constant)
  | exactly {receiver argument : Node} {name constant : String} (range : Range) :
      receiver.namedVariable? = some name → argument.constantPath? = some constant →
      Asks (.send (some receiver) "instance_of?" [argument] range) name (.exactly constant)
  | isNil {receiver : Node} {name : String} (range : Range) :
      receiver.namedVariable? = some name →
      Asks (.send (some receiver) "nil?" [] range) name .isNil
  | truth (kind : VariableKind) (name : String) (range : Range) :
      Asks (.var kind name range) name .truth

theorem ConditionFacts.told_ofTest (name : String) (tested : Position)
    (whenTrue whenFalse : Predicate) (outcome : Bool) :
    (ofTest name tested whenTrue whenFalse).told outcome =
      [⟨name, tested, if outcome then whenTrue else whenFalse⟩] := by
  cases outcome <;> rfl

theorem Node.told_classTest {receiver argument : Node} {method name constant : String}
    (range : Range) (listed : method ∈ classTests) (named : receiver.namedVariable? = some name)
    (path : argument.constantPath? = some constant) (outcome : Bool) :
    (send (some receiver) method [argument] range).conditionFacts.told outcome =
      [⟨name, range.start, if outcome then .isA constant else .notA constant⟩] := by
  rw [conditionFacts, sendFacts, if_pos (List.contains_iff_mem.mpr listed)]
  simp only [named, path, ConditionFacts.told_ofTest]

/-- A test tells its predicate of the variable and nothing else. -/
theorem Node.Asks.told_eq {n : Node} {name : String} {test : TypeTest} (asks : n.Asks name test)
    (outcome : Bool) :
    n.conditionFacts.told outcome =
      ((test.predicate? outcome).map fun predicate =>
        ⟨name, n.range.start, predicate⟩).toList := by
  cases asks with
  | kindOf range method named path =>
    rcases method with rfl | rfl
    · rw [told_classTest range (by decide) named path]
      cases outcome <;> rfl
    · rw [told_classTest range (by decide) named path]
      cases outcome <;> rfl
  | exactly range named path =>
    rw [told_classTest range (by decide) named path]
    cases outcome <;> rfl
  | isNil range named =>
    simp only [conditionFacts, sendFacts, named]
    cases outcome <;> rfl
  | truth kind name range => cases outcome <;> rfl

section

variable (store : Store) (means : String → String)

/-- The class of the object is the class at the path, or descends from it. -/
def Instance.isKindOf (object : Instance) (path : String) : Bool :=
  Id.run (store.isAncestorOrSelf path object.classPath)

/-- The object is `nil` and the type may be `nil`, or the object is an instance of the class that
another member names. `means` gives the class that a written name refers to. -/
def Instance.Belongs (object : Instance) (t : Ty) : Prop :=
  (object = .nil ∧ t.mayBeNil = true) ∨
    ∃ member ∈ t.members, member.isNil = false ∧
      object.isKindOf store (means member.writtenClass) = true

/-- How a test of the object comes out. -/
def TypeTest.answer (object : Instance) : TypeTest → Bool
  | kindOf constant => object.isKindOf store (means constant)
  | exactly constant => object.classPath == means constant
  | isNil => object == .nil
  | truth => object.isTrue

/-- The members that the tested constant stands for name the same class as the constant. -/
def TypeTest.NamesAlike (test : TypeTest) (t : Ty) : Prop :=
  ∀ constant ∈ test.constant?, ∀ member ∈ t.members,
    Flow.isSpelledBy member.name constant = true → means member.writtenClass = means constant

/-- `instance_of?` is not asked of an instance of a proper subclass. -/
def TypeTest.Proper (test : TypeTest) (object : Instance) : Prop :=
  ∀ constant, test = .exactly constant → object.isKindOf store (means constant) = true →
    object.classPath = means constant

end

/-- An object is an instance of its class. -/
theorem Instance.isKindOf_classPath (store : Store) (object : Instance) :
    object.isKindOf store object.classPath = true := by
  rw [Instance.isKindOf, Store.isAncestorOrSelf, if_pos (beq_iff_eq.mpr rfl)]
  rfl

/-! ### Members that stay -/

theorem Ty.mem_select {t : Ty} (normal : t.Normal) {keep : Member → Bool} {member : Member}
    (listed : member ∈ t.members) (kept : keep member = true) :
    member ∈ (t.select keep).members := by
  obtain ⟨distinct, -, -⟩ := normal
  have chosen : member ∈ t.members.filter keep := List.mem_filter.mpr ⟨listed, kept⟩
  have distinct' : ((t.members.filter keep).map Member.tag).Nodup :=
    distinct.sublist (List.filter_sublist.map Member.tag)
  rw [Ty.select, Ty.members_ofMembers (List.ne_nil_of_mem chosen), distinctOn,
    distinctFrom_eq_self distinct' fun _ _ => List.not_mem_nil]
  exact chosen

variable {store : Store} {means : String → String} {object : Instance} {t : Ty}

/-- What is not `nil` still belongs to the type without `nil`. -/
theorem Instance.Belongs.nonNil (belongs : object.Belongs store means t) (normal : t.Normal)
    (other : object ≠ .nil) : object.Belongs store means t.nonNil := by
  rcases belongs with ⟨same, -⟩ | ⟨member, listed, proper, kind⟩
  · exact absurd same other
  · exact Or.inr ⟨member, Ty.mem_select normal listed (by simp [proper]), proper, kind⟩

/-- No constant stands for `nil`. -/
theorem IsConstant.not_isSpelledBy {constant : String} (isConstant : IsConstant constant) :
    Flow.isSpelledBy "nil" constant = false := by
  have different : ("nil" == constant) = false := by
    rw [beq_eq_false_iff_ne]
    rintro rfl
    obtain ⟨marked, name, spelled, first, others, rfl, start, -⟩ := isConstant
    have front := congrArg (fun s : String => s.toList.head?) spelled
    cases marked with
    | true => simp at front
    | false =>
      obtain rfl : 'n' = first := by simpa using front
      exact absurd start (by decide)
  have noColon : (("::" ++ constant).toList.isSuffixOf "nil".toList) = false := by
    rw [← Bool.not_eq_true, List.isSuffixOf_iff_suffix]
    intro ends
    have colon : ':' ∈ "nil".toList := ends.subset (by simp)
    exact absurd colon (by decide)
  rw [Flow.isSpelledBy, different, noColon]
  rfl

/-- What is no instance of the tested class still belongs to the type without the members that the
constant stands for. -/
theorem Instance.Belongs.without (belongs : object.Belongs store means t) (normal : t.Normal)
    {constant : String} (isConstant : IsConstant constant)
    (alike : ∀ member ∈ t.members, Flow.isSpelledBy member.name constant = true →
      means member.writtenClass = means constant)
    (other : object.isKindOf store (means constant) = false) :
    object.Belongs store means (t.select fun member => !Flow.isSpelledBy member.name constant) := by
  rcases belongs with ⟨same, optional⟩ | ⟨member, listed, proper, kind⟩
  · obtain ⟨member, listed, isNil⟩ := List.any_eq_true.mp optional
    have kept : (!Flow.isSpelledBy member.name constant) = true := by
      rw [beq_iff_eq.mp isNil, isConstant.not_isSpelledBy]
      rfl
    exact Or.inl ⟨same, List.any_eq_true.mpr ⟨member, Ty.mem_select normal listed kept, isNil⟩⟩
  · cases spelled : Flow.isSpelledBy member.name constant with
    | false =>
      exact Or.inr ⟨member, Ty.mem_select normal listed (by simp [spelled]), proper, kind⟩
    | true =>
      rw [alike member listed spelled, other] at kind
      exact absurd kind Bool.false_ne_true

/-- An instance of the class that a constant names belongs to the type that the constant spells, if
it spells one. -/
theorem Instance.belongs_ofTag {constant : String} (isConstant : IsConstant constant)
    (kind : object.isKindOf store (means constant) = true)
    (known : (Ty.ofTag constant).isUndefined = false) :
    object.Belongs store means (Ty.ofTag constant) := by
  obtain ⟨marked, name, rfl, isPath⟩ := isConstant
  rcases Ty.ofTag?_constant isPath marked with none | spelled
  · rw [Ty.ofTag, none] at known
    exact absurd known (by decide)
  · rw [Ty.ofTag, spelled]
    refine Or.inr ⟨_, List.mem_singleton.mpr rfl, ?_, ?_⟩
    · exact beq_eq_false_iff_ne.mpr (isPath.ne_word "nil" (by decide))
    · have written : Member.writtenClass ⟨String.ofList name, marked, .none, [], []⟩ =
          (if marked then "::" else "") ++ String.ofList name := by
        simp only [Member.writtenClass, Member.classOfLiteral?, isPath.classOfLiteral?_eq]
      rw [← written] at kind
      exact kind

/-! ### Branches -/

namespace TypeTest

variable {test : TypeTest}

/-- An object of which a class test holds is an instance of the class. -/
theorem isKindOf_of_answer {constant : String} (asked : test.constant? = some constant)
    (holds : test.answer store means object = true) :
    object.isKindOf store (means constant) = true := by
  cases test with
  | kindOf _ =>
    obtain rfl := Option.some.inj asked
    exact holds
  | exactly _ =>
    obtain rfl := Option.some.inj asked
    have same : object.classPath = means _ := beq_iff_eq.mp holds
    rw [← same]
    exact Instance.isKindOf_classPath store object
  | isNil => exact absurd asked (by simp [constant?])
  | truth => exact absurd asked (by simp [constant?])

/-- An object of which a class test fails is no instance of the class, unless it is an instance of a
proper subclass. -/
theorem not_isKindOf_of_answer {constant : String} (asked : test.constant? = some constant)
    (fails : test.answer store means object = false) (proper : test.Proper store means object) :
    object.isKindOf store (means constant) = false := by
  cases test with
  | kindOf _ =>
    obtain rfl := Option.some.inj asked
    exact fails
  | exactly _ =>
    obtain rfl := Option.some.inj asked
    rw [← Bool.not_eq_true]
    intro kind
    exact beq_eq_false_iff_ne.mp fails (proper _ rfl kind)
  | isNil => exact absurd asked (by simp [constant?])
  | truth => exact absurd asked (by simp [constant?])

end TypeTest

namespace Flow

variable {m : Type → Type} [Monad m]

theorem baseTy_declared (oracle : Oracle m) (locals : List Pin) {pin : Pin}
    (declared : pin.returnTy.isUndefined = false) :
    baseTy oracle locals pin = pure pin.returnTy := by
  simp [baseTy, declared]

/-- What belongs to the declared type of a variable belongs to the narrowed type, for each predicate
that the test tells in the branch taken. -/
theorem narrowedTy_of_predicate [LawfulMonad m] (oracle : Oracle m) (locals : List Pin) {pin : Pin}
    (declared : pin.returnTy.isUndefined = false) (normal : pin.returnTy.Normal)
    (belongs : object.Belongs store means pin.returnTy) {test : TypeTest}
    (isConstant : ∀ constant ∈ test.constant?, IsConstant constant)
    (alike : test.answer store means object = false → test.NamesAlike means pin.returnTy)
    (proper : test.Proper store means object) {predicate : Predicate}
    (told : predicate ∈ test.predicate? (test.answer store means object)) :
    ∃ t, narrowedTy oracle locals pin predicate = pure t ∧
      (t.isUndefined = false → object.Belongs store means t) := by
  have base := baseTy_declared oracle locals declared
  have other : test.answer store means object = false → ∀ constant ∈ test.constant?,
      object.Belongs store means
        (pin.returnTy.select fun member => !isSpelledBy member.name constant) := by
    intro fails constant asked
    exact belongs.without normal (isConstant constant asked) (alike fails constant asked)
      (TypeTest.not_isKindOf_of_answer asked fails proper)
  cases truth : test.answer store means object with
  | true =>
    rw [truth] at told
    cases test with
    | kindOf constant =>
      obtain rfl := Option.some.inj told
      exact ⟨_, rfl, Instance.belongs_ofTag (isConstant constant rfl)
        (TypeTest.isKindOf_of_answer rfl truth)⟩
    | exactly constant =>
      obtain rfl := Option.some.inj told
      exact ⟨_, rfl, Instance.belongs_ofTag (isConstant constant rfl)
        (TypeTest.isKindOf_of_answer rfl truth)⟩
    | isNil =>
      obtain rfl := Option.some.inj told
      exact ⟨_, rfl, fun _ => Or.inl ⟨beq_iff_eq.mp truth, by decide⟩⟩
    | truth =>
      obtain rfl := Option.some.inj told
      refine ⟨pin.returnTy.nonNil, by simp [narrowedTy, base], fun _ => belongs.nonNil normal ?_⟩
      rintro rfl
      exact Bool.false_ne_true truth
  | false =>
    rw [truth] at told
    cases test with
    | kindOf constant =>
      obtain rfl := Option.some.inj told
      exact ⟨_, by simp [narrowedTy, base], fun _ => other truth constant rfl⟩
    | exactly constant =>
      obtain rfl := Option.some.inj told
      exact ⟨_, by simp [narrowedTy, base], fun _ => other truth constant rfl⟩
    | isNil =>
      obtain rfl := Option.some.inj told
      exact ⟨pin.returnTy.nonNil, by simp [narrowedTy, base],
        fun _ => belongs.nonNil normal (beq_eq_false_iff_ne.mp truth)⟩
    | truth => exact absurd told (by simp [TypeTest.predicate?])

/-- Narrowing by a test keeps the type of the object. In the branch that it takes, each fact that
the test tells is about the variable, and what belongs to the declared type belongs to the narrowed
type, if there is one. -/
theorem narrowedTy_belongs [LawfulMonad m] (store : Store) (means : String → String)
    (oracle : Oracle m) (locals : List Pin) (pin : Pin) (n : Node) (test : TypeTest)
    (object : Instance) (asks : n.Asks pin.name test)
    (isConstant : ∀ constant ∈ test.constant?, IsConstant constant)
    (declared : pin.returnTy.isUndefined = false) (normal : pin.returnTy.Normal)
    (belongs : object.Belongs store means pin.returnTy)
    (alike : test.answer store means object = false → test.NamesAlike means pin.returnTy)
    (proper : test.Proper store means object) :
    ∀ fact ∈ n.conditionFacts.told (test.answer store means object), fact.name = pin.name ∧
      ∃ t, narrowedTy oracle locals pin fact.predicate = pure t ∧
        (t.isUndefined = false → object.Belongs store means t) := by
  intro fact member
  rw [asks.told_eq] at member
  obtain ⟨predicate, told, rfl⟩ := Option.map_eq_some_iff.mp (Option.mem_toList.mp member)
  exact ⟨rfl, narrowedTy_of_predicate oracle locals declared normal belongs isConstant alike proper
    told⟩

/-! ### Classes of one name -/

/-- Ancestors without edges are the superclasses that are implied. -/
theorem mem_of_isAncestorOrSelf {store : Store} (coherent : store.Coherent) {paths : List String}
    (plain : ∀ path ∈ paths, ∀ kind, store.edges path kind = [])
    (closed : ∀ path ∈ paths, ∀ target ∈ Store.defaultSuperclass? path (store.hasModule path),
      target ∈ paths)
    {super sub : String} (start : sub ∈ paths)
    (ancestor : Id.run (store.isAncestorOrSelf super sub) = true) : super ∈ paths := by
  have steps := (Store.isAncestorOrSelf_iff coherent super sub).mp ancestor
  have within : ∀ key, Relation.ReflTransGen store.AncestorStep (sub, .instanceLevel) key →
      key.1 ∈ paths := by
    intro key steps
    -- only the last kind of step is possible, and the paths are closed under it
    induction steps with
    | refl => exact start
    | tail _ step ih =>
      cases step with
      | prepended listed _ | included listed _ | extended listed _ =>
        rw [plain _ ih] at listed
        exact absurd listed List.not_mem_nil
      | declared first _ =>
        rw [plain _ ih] at first
        exact absurd first (by simp)
      | implied _ target => exact closed _ ih _ target
  exact within (super, .instanceLevel) steps

section NestedFoo

/-- The classes `Foo`, `A` and `A::Foo`. -/
def nestedFooPins : List Pin :=
  let outer := Pin.make "A" (some .root) (.space false [])
  [.root, .make "Foo" (some .root) (.space false []), outer,
    .make "Foo" (some outer) (.space false [])]

/-- A store with these classes. -/
def nestedFoo : Store :=
  .ofGroups [("a.rb", nestedFooPins)]

/-- `A::Foo` and `String` descend from themselves, `Object` and `BasicObject`, and nothing else. -/
theorem nestedFoo_ancestors {path super : String} (known : path ∈ ["A::Foo", "String"])
    (kind : (Instance.ofClass path).isKindOf nestedFoo super = true) :
    super ∈ [path, "Object", "BasicObject"] := by
  have coherent : nestedFoo.Coherent := by
    rw [nestedFoo, Store.ofGroups_eq]
    exact Store.coherent_afterChanges _
  have plain : ∀ path ∈ ["A::Foo", "String", "Object", "BasicObject"], ∀ kind,
      (nestedFoo.edges path kind).isEmpty = true := by
    intro path member kind
    revert path
    cases kind <;> decide +kernel
  have closed : ∀ path ∈ ["A::Foo", "String", "Object", "BasicObject"],
      (Store.defaultSuperclass? path (nestedFoo.hasModule path)).all
        (["Object", "BasicObject"].contains ·) = true := by
    decide +kernel
  have listed : ∀ other ∈ [path, "Object", "BasicObject"],
      other ∈ ["A::Foo", "String", "Object", "BasicObject"] := by
    intro other member
    simp only [List.mem_cons, List.not_mem_nil, or_false] at known member ⊢
    grind
  refine mem_of_isAncestorOrSelf coherent (fun other member kind => ?_)
    (fun other member target next => ?_) List.mem_cons_self kind
  · exact List.isEmpty_iff.mp (plain other (listed other member) kind)
  · have found := closed other (listed other member)
    rw [next] at found
    exact List.mem_cons_of_mem path (by simpa using found)

/-- A local `x` whose type is the class of that name, or `String`. -/
def localOf (name : String) : Pin :=
  .make "x" (some .root)
    (.variable .localVar ⟨some (.ofMembers [.named name, .named "String"]), none, none, false⟩)

/-- `x.is_a?(Foo)` -/
def fooTest : Node :=
  .send (some (.var .localVar "x" ⟨⟨0, 3⟩, ⟨0, 4⟩⟩)) "is_a?" [.const none "Foo" ⟨⟨0, 11⟩, ⟨0, 14⟩⟩]
    ⟨⟨0, 3⟩, ⟨0, 15⟩⟩

theorem fooTest_asks : fooTest.Asks "x" (.kindOf "Foo") :=
  .kindOf _ (Or.inl rfl) rfl rfl

theorem isConstant_foo : IsConstant "Foo" :=
  ⟨false, ['F', 'o', 'o'], rfl, 'F', ['o', 'o'], rfl, by decide, by decide⟩

theorem normal_localOf (name : String) : (localOf name).returnTy.Normal := by
  show (Ty.ofMembers [.named name, .named "String"]).Normal
  refine Ty.normal_ofMembers ?_ ?_
  · intro member listed
    rcases List.mem_pair.mp listed with rfl | rfl <;> exact Member.fits_named _
  · intro member listed t param
    rcases List.mem_pair.mp listed with rfl | rfl <;> exact absurd param List.not_mem_nil

theorem members_localOf {name : String}
    (other : (Member.named name).tag ≠ (Member.named "String").tag) :
    (localOf name).returnTy.members = [.named name, .named "String"] := by
  have distinct : ([Member.named name, .named "String"].map Member.tag).Nodup := by
    simpa using other
  show (Ty.ofMembers [.named name, .named "String"]).members = _
  rw [Ty.members_ofMembers (List.cons_ne_nil _ _), distinctOn,
    distinctFrom_eq_self distinct fun _ _ => List.not_mem_nil]

theorem instance_belongs {name path : String}
    (other : (Member.named name).tag ≠ (Member.named "String").tag)
    (listed : path = name ∨ path = "String") (written : (Member.named path).writtenClass = path)
    (proper : (Member.named path).isNil = false) :
    (Instance.ofClass path).Belongs nestedFoo id (localOf name).returnTy := by
  refine Or.inr ⟨.named path, ?_, proper, ?_⟩
  · rw [members_localOf other]
    rcases listed with rfl | rfl <;> simp
  · rw [written]
    exact Instance.isKindOf_classPath nestedFoo (.ofClass path)

/-- A string in a variable of type `Foo, String` belongs to the type in the `else` branch of
`x.is_a?(Foo)`. -/
theorem narrowedTy_belongs_string :
    fooTest.Asks "x" (.kindOf "Foo") ∧
      (Instance.ofClass "String").Belongs nestedFoo id (localOf "Foo").returnTy ∧
      TypeTest.answer nestedFoo id (.ofClass "String") (.kindOf "Foo") = false ∧
      ∃ fact ∈ fooTest.conditionFacts.told false, fact.name = "x" ∧
        ∃ t, narrowedTy (m := Id) none [] (localOf "Foo") fact.predicate = pure t ∧
          (t.isUndefined = false → (Instance.ofClass "String").Belongs nestedFoo id t) := by
  have belongs : (Instance.ofClass "String").Belongs nestedFoo id (localOf "Foo").returnTy :=
    instance_belongs (by decide) (Or.inr rfl) (by decide) (by decide)
  have fails : TypeTest.answer nestedFoo id (.ofClass "String") (.kindOf "Foo") = false := by
    rw [← Bool.not_eq_true]
    exact fun kind => absurd (nestedFoo_ancestors (by simp) kind) (by decide)
  have alike : (TypeTest.kindOf "Foo").NamesAlike id (localOf "Foo").returnTy := by
    rintro constant same member listed spelled
    obtain rfl := Option.some.inj same
    rw [members_localOf (by decide)] at listed
    rcases List.mem_pair.mp listed with rfl | rfl
    · decide
    · exact absurd spelled (by decide)
  have told := narrowedTy_belongs (m := Id) nestedFoo id none [] (localOf "Foo") fooTest
    (.kindOf "Foo") (.ofClass "String") fooTest_asks
    (fun _ same => Option.some.inj same ▸ isConstant_foo) (by decide +kernel) (normal_localOf "Foo")
    belongs (fun _ => alike) (fun _ same => absurd same (by simp))
  rw [fails] at told
  exact ⟨fooTest_asks, belongs, fails, _, List.mem_singleton.mpr rfl,
    told _ (List.mem_singleton.mpr rfl)⟩

/-- An instance of `A::Foo` fails `x.is_a?(Foo)`, but `Foo` stands for `A::Foo` as well, so that
`String` is all that is left in the `else` branch. -/
theorem narrowedTy_loses_nestedFoo : ¬ ∀ (store : Store) (means : String → String) (pin : Pin)
    (n : Node) (test : TypeTest) (object : Instance), n.Asks pin.name test →
    (∀ constant ∈ test.constant?, IsConstant constant ∧ store.hasSpace (means constant) = true) →
    pin.returnTy.isUndefined = false → pin.returnTy.Normal →
    object.Belongs store means pin.returnTy →
    ∀ fact ∈ n.conditionFacts.told (test.answer store means object),
      ∃ t, narrowedTy (m := Id) none [pin] pin fact.predicate = pure t ∧
        (t.isUndefined = false → object.Belongs store means t) := by
  intro keeps
  have belongs : (Instance.ofClass "A::Foo").Belongs nestedFoo id (localOf "A::Foo").returnTy :=
    instance_belongs (by decide) (Or.inl rfl) (by decide) (by decide)
  have fails : TypeTest.answer nestedFoo id (.ofClass "A::Foo") (.kindOf "Foo") = false := by
    rw [← Bool.not_eq_true]
    exact fun kind => absurd (nestedFoo_ancestors (by simp) kind) (by decide)
  have declared : (localOf "A::Foo").returnTy.isUndefined = false := by
    decide +kernel
  have told := keeps nestedFoo id (localOf "A::Foo") fooTest (.kindOf "Foo") (.ofClass "A::Foo")
    fooTest_asks (fun _ same => Option.some.inj same ▸ ⟨isConstant_foo, by decide +kernel⟩)
    declared (normal_localOf "A::Foo") belongs
  rw [fails] at told
  obtain ⟨t, narrowed, stays⟩ := told _ (List.mem_singleton.mpr rfl)
  have base := baseTy_declared (m := Id) none [localOf "A::Foo"] declared
  have left : t = .single (.named "String") := by
    have result := congrArg Id.run narrowed
    simp only [narrowedTy, base, Id.run_bind, Id.run_pure, Ty.select] at result
    rw [← result, members_localOf (by decide)]
    rfl
  subst left
  rcases stays (by decide) with ⟨isNil, -⟩ | ⟨member, listed, -, kind⟩
  · exact absurd isNil (by simp)
  · obtain rfl := List.mem_singleton.mp listed
    exact absurd (nestedFoo_ancestors (by simp) kind) (by decide)

end NestedFoo

end Flow

end DuckInfer
