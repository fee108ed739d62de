import DuckInfer.Proofs.Store.Specialization
import DuckInfer.Infer.Overload

/-!
Classes and modules as arguments. `Class<Foo>` is the type of the class `Foo` itself, and its
namespace is `Foo`. Main statement: a parameter takes it just if it has its name or if the namespace
of the parameter is `Foo` or an ancestor of `Foo` on instances, as if the argument were an instance
of `Foo`; so it is taken for what it is not wherever such an ancestor is none of `Class` or
`Module`.
-/

namespace DuckInfer

open Relation

/-- The namespace of a type is `Class` or `Module`, or an ancestor of theirs on instances: what
classes and modules are instances of. -/
def Store.HoldsNamespaces (store : Store) (m : Member) : Prop :=
  ∃ root ∈ ["Class", "Module"],
    ReflTransGen store.AncestorStep (root, .instanceLevel) (m.space, .instanceLevel)

/-- A type of instances whose name is `Class` or `Module` has this namespace. -/
theorem Member.space_of_isMetaName {m : Member} (named : Member.isMetaName m.name = true)
    (level : m.scope = .instanceLevel) : m.space = m.name ∧ m.name ∈ ["Class", "Module"] := by
  have bare : m.subs.isEmpty = true := by
    by_contra inside
    have isMeta : m.isMeta = true := by simpa [Member.isMeta, named] using inside
    simp [Member.scope, isMeta] at level
  have known : m.name = "Class" ∨ m.name = "Module" := by
    simpa [Member.isMetaName] using named
  unfold Member.space Member.isDuck
  rw [List.isEmpty_iff.mp bare]
  rcases known with same | same <;> rw [same] <;> decide +kernel

theorem Member.isMetaName_of_classLevel {m : Member} (level : m.scope = .classLevel) :
    Member.isMetaName m.name = true := by
  unfold Member.scope at level
  split at level
  · rename_i isMeta
    exact (Bool.and_eq_true_iff.mp isMeta).1
  · exact absurd level (by decide)

/-- Types of the name of a class object's type hold namespaces. -/
theorem Store.holdsNamespaces_of_name (store : Store) {param arg : Member}
    (level : arg.scope = .classLevel) (level' : param.scope = .instanceLevel)
    (same : param.name = arg.name) : store.HoldsNamespaces param := by
  have named : Member.isMetaName param.name = true := same ▸ Member.isMetaName_of_classLevel level
  obtain ⟨space, known⟩ := Member.space_of_isMetaName named level'
  exact ⟨param.name, known, space ▸ .refl⟩

namespace Overload

/-- One member is taken for another one if it has its name, or else as the namespaces say. -/
theorem accepts_single {m : Type → Type} [Monad m] [LawfulMonad m] [ConstantLookup m]
    (store : Store) (param arg : Member) :
    (accepts store (.single param) (.single arg) : m Bool) =
      if param.name = arg.name then pure true
      else store.isAncestorOrSelf param.space arg.space := by
  have asked : (acceptsMember store param arg : m Bool) =
      if param.name = arg.name then pure true
      else store.isAncestorOrSelf param.space arg.space := by
    simp only [acceptsMember, beq_iff_eq]
  have kept : ∀ answer : m Bool, (do
      match ← (do match ← answer with | true => pure true | false => pure false : m Bool) with
      | true => pure true
      | false => pure false) = answer := by
    intro answer
    have same : ∀ answered : Bool, (match answered with
        | true => (pure true : m Bool)
        | false => pure false) = pure answered := by
      rintro (_ | _) <;> rfl
    simp only [same, bind_pure]
  rw [← asked]
  exact kept _

theorem run_accepts_single {store : Store} (coherent : store.Coherent) (param arg : Member) :
    Id.run (accepts store (.single param) (.single arg)) = true ↔
      param.name = arg.name ∨
        ReflTransGen store.AncestorStep (arg.space, .instanceLevel)
          (param.space, .instanceLevel) := by
  rw [accepts_single]
  by_cases same : param.name = arg.name
  · rw [if_pos same]
    exact ⟨fun _ => Or.inl same, fun _ => rfl⟩
  · rw [if_neg same, Store.isAncestorOrSelf_iff coherent]
    exact ⟨Or.inr, fun accepted => accepted.resolve_left same⟩

/-- Whether a class object is taken where an instance is expected depends on the names, and on the
instance ancestors of the class. It is taken just for what holds namespaces if and only if such an
ancestor of the class is expected only if it holds namespaces itself. -/
theorem accepts_classObject_iff (changes : List Store.Change) (param arg : Member)
    (level : arg.scope = .classLevel) (level' : param.scope = .instanceLevel) :
    (Id.run (accepts (Store.afterChanges changes) (.single param) (.single arg)) = true ↔
      param.name = arg.name ∨ ReflTransGen (Store.afterChanges changes).AncestorStep
        (arg.space, .instanceLevel) (param.space, .instanceLevel)) ∧
    ((Id.run (accepts (Store.afterChanges changes) (.single param) (.single arg)) = true →
        (Store.afterChanges changes).HoldsNamespaces param) ↔
      (ReflTransGen (Store.afterChanges changes).AncestorStep
          (arg.space, .instanceLevel) (param.space, .instanceLevel) →
        (Store.afterChanges changes).HoldsNamespaces param)) := by
  have accepted := run_accepts_single (Store.coherent_afterChanges changes) param arg
  refine ⟨accepted, fun claimed steps => claimed (accepted.mpr (Or.inr steps)),
    fun claimed taken => ?_⟩
  rcases accepted.mp taken with same | steps
  · exact Store.holdsNamespaces_of_name _ level level' same
  · exact claimed steps

section ClassFoo

/-- A file that declares the class `Foo`. -/
def classFoo : List Store.Change :=
  [.update "foo.rb" [.root, .make "Foo" (some .root) (.space false [])]]

/-- The class `Foo`, as a value. -/
def fooItself : Member :=
  .list "Class" [.absolute "Foo"]

/-- The class `Foo` is an object, but it is taken for one because its instances are. -/
theorem accepts_classObject_object : fooItself.scope = .classLevel ∧
    (Member.absolute "Object").scope = .instanceLevel ∧
    Id.run (accepts (Store.afterChanges classFoo) (.absolute "Object") (.single fooItself)) =
      true :=
  have step : (Store.afterChanges classFoo).AncestorStep ("Foo", .instanceLevel)
      ("Object", .instanceLevel) := .implied (by decide +kernel) (by decide +kernel)
  ⟨by decide, by decide, (accepts_classObject_iff classFoo (.absolute "Object") fooItself
    (by decide) (by decide)).1.mpr (Or.inr (.single step))⟩

/-- The class `Foo` is taken for an instance of `Foo`, which holds no namespaces. -/
theorem not_holdsNamespaces_classFoo : ¬ ∀ (changes : List Store.Change) (param arg : Member),
    arg.scope = .classLevel → param.scope = .instanceLevel →
      Id.run (accepts (Store.afterChanges changes) (.single param) (.single arg)) = true →
        (Store.afterChanges changes).HoldsNamespaces param := by
  intro claimed
  have coherent := Store.coherent_afterChanges classFoo
  have taken := (run_accepts_single coherent (.absolute "Foo") fooItself).mpr (Or.inr .refl)
  obtain ⟨root, known, steps⟩ :=
    claimed classFoo (.absolute "Foo") fooItself (by decide) (by decide) taken
  have ancestor := (Store.isAncestorOrSelf_iff coherent "Foo" root).mpr steps
  have apart : ∀ root ∈ ["Class", "Module"],
      Id.run ((Store.afterChanges classFoo).isAncestorOrSelf "Foo" root) = false := by
    intro root known
    simp only [List.mem_cons, List.not_mem_nil, or_false] at known
    rcases known with rfl | rfl
    · exact Store.ancestors_of_within (f := (·.any (·.path == "Foo"))) 9 rfl
    · exact Store.ancestors_of_within (f := (·.any (·.path == "Foo"))) 9 rfl
  exact Bool.false_ne_true ((apart root known).symm.trans ancestor)

end ClassFoo

end Overload

end DuckInfer
