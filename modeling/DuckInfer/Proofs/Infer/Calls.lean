import DuckInfer.Proofs.Infer.Problems
import DuckInfer.Proofs.Store.Specialization
import DuckInfer.Proofs.Ty.Qualifying
import Mathlib.Data.List.Forall2

/-!
Calls of methods, taken apart. Main statements: what was found for a chain that ends in a call is
what was found for the call behind the links before it; and what was found for a call is what was
found for each method of each member of the receiver, one overload after the other.
-/

namespace DuckInfer

/-! ### Lists in step -/

section

variable {α β : Type} {R : α → β → Prop} {xs : List α} {ys : List β}

theorem exists_right_of_forall₂ (inStep : List.Forall₂ R xs ys) {x : α} (member : x ∈ xs) :
    ∃ y ∈ ys, R x y := by
  induction inStep with
  | nil => exact absurd member List.not_mem_nil
  | cons related _ ih =>
    rcases List.mem_cons.mp member with rfl | later
    · exact ⟨_, List.mem_cons_self, related⟩
    · obtain ⟨y, listed, related⟩ := ih later
      exact ⟨y, List.mem_cons_of_mem _ listed, related⟩

theorem exists_left_of_forall₂ (inStep : List.Forall₂ R xs ys) {y : β} (member : y ∈ ys) :
    ∃ x ∈ xs, R x y :=
  exists_right_of_forall₂ inStep.flip member

theorem exists_append_of_forall₂ {others : List α} (inStep : List.Forall₂ R (xs ++ others) ys) :
    ∃ front back, ys = front ++ back ∧ List.Forall₂ R xs front ∧ List.Forall₂ R others back := by
  have inStep : List.Forall₂ (flip R) ys (xs ++ others) := inStep.flip
  exact ⟨ys.take xs.length, ys.drop xs.length, (List.take_append_drop _ _).symm,
    (List.forall₂_take_append ys xs others inStep).flip,
    (List.forall₂_drop_append ys xs others inStep).flip⟩

end

namespace Overload

theorem mem_ordered {pin : Pin} {signature : Signature} :
    signature ∈ ordered pin ↔ signature ∈ pin.signatures := by
  cases taking : signature.takesBlock <;> simp [ordered, taking]

theorem ordered_eq_nil_iff {pin : Pin} : ordered pin = [] ↔ pin.signatures = [] := by
  simp only [List.eq_nil_iff_forall_not_mem, mem_ordered]

end Overload

/-- The overload takes the arguments and the block of the call. -/
structure CallSite.Fits {m : Type → Type} [Monad m] [ConstantLookup m] {σ : Type}
    (r : SteadyRunner m σ) (s : σ) (site : CallSite m) (store : Store) (args : List Ty) (pin : Pin)
    (signature : Signature) : Prop where
  arity : signature.accepts args.length site.withBlock = true
  arguments : r.Found s (Overload.mismatch? store pin signature args) none

/-- The overload fits the call, and what fits before it gives no known type. -/
def CallSite.Selects {m : Type → Type} [Monad m] [ConstantLookup m] {σ : Type}
    (r : SteadyRunner m σ) (s : σ) (site : CallSite m) (store : Store) (cx : LinkSite)
    (context : Ty) (args : List Ty) (pin : Pin) (signature : Signature) : Prop :=
  ∃ before after, Overload.ordered pin = before ++ signature :: after ∧
    site.Fits r s store args pin signature ∧
    ∀ other ∈ before, site.Fits r s store args pin other → ∀ resolved t,
      r.Found s (site.answer store cx context args pin other) (resolved, t) → t.isUndefined = true

/-- The pins are what the methods of a member of the receiver's type evaluate to. -/
def CallSite.AnswersFor {m : Type → Type} [Monad m] [ConstantLookup m] {σ : Type}
    (r : SteadyRunner m σ) (s : σ) (site : CallSite m) (store : Store) (cx : LinkSite)
    (member : Member) (pins : List Pin) : Prop :=
  ∃ stack, r.Found s (store.methodsNamed member site.word) stack ∧
    r.Found s (site.inferPins store cx (.single member) stack) pins

/-- A type that receives the call, with the methods that may answer it: a member of the type before,
or for `super` the namespace of the method around the call. -/
inductive CallSite.Receives {m : Type → Type} [Monad m] [ConstantLookup m] {σ : Type}
    (r : SteadyRunner m σ) (s : σ) (site : CallSite m) (store : Store) (cx : LinkSite) :
    Ty → List Pin → Prop where
  | member {member : Member} {stack : List Pin} : site.word ≠ "super" →
      member ∈ cx.receiver.context.members →
      r.Found s (store.methodsNamed member site.word) stack →
      Receives r s site store cx (.single member) stack
  | superclass {method : Pin} {stack : List Pin} : site.word = "super" →
      cx.lexical.methodAround? = some method →
      r.Found s (store.methodsNamed (superReceiver method).first method.name) stack →
      Receives r s site store cx (superReceiver method) (stack.filter (·.path != method.path))

/-- The type of a chain whose candidates have these types. -/
def chainUnion (nullable : Bool) (tys : List Ty) : Ty :=
  let t := Ty.unionAll (tys.filter (!·.isUndefined))
  if nullable && !t.isUndefined then t.union .nil else t

namespace SteadyRunner

variable {m : Type → Type} [Monad m] [ConstantLookup m] {σ : Type} {r : SteadyRunner m σ} {s : σ}

/-! ### Types that were looked up -/

/-- What a lookup in some gates answers. -/
def answers (r : SteadyRunner m σ) (s : σ) (store : Store) (gates : List String) (name : String) :
    Option String :=
  (r.run (store.lookup name gates) s).1

theorem Steady.eq_of_found {α : Type} {x : m α} {a : α} (steady : r.Steady x)
    (found : r.Found s x a) : a = (r.run x s).1 :=
  (congrArg Prod.fst (steady.found_iff.mp found)).symm

mutual

theorem found_member {f : Member → m Ty} (each : ∀ x, r.Steady (f x)) : (x : Member) → {u : Ty} →
    r.Found s (x.rebuildM f) u → u = x.rebuild fun y => (r.run (f y) s).1
  | ⟨name, marked, kind, keys, subs⟩, u, found => by
    rw [Member.rebuildM] at found
    cases leaf : Member.isLeaf ⟨name, marked, kind, keys, subs⟩ with
    | true =>
      rw [if_pos leaf] at found
      rw [Member.rebuild_of_isLeaf leaf]
      exact (each _).eq_of_found found
    | false =>
      rw [if_neg (by simp [leaf])] at found
      obtain ⟨keys', first, found⟩ := found.of_bind fun _ =>
        .bind (r.steady_tys each subs) fun _ => each _
      obtain ⟨subs', second, found⟩ := found.of_bind fun _ => each _
      rw [Member.rebuild_of_not_isLeaf leaf, ← found_tys each keys first,
        ← found_tys each subs second]
      exact (each _).eq_of_found found

theorem found_ty {f : Member → m Ty} (each : ∀ x, r.Steady (f x)) : (t : Ty) → {u : Ty} →
    r.Found s (t.rebuildM f) u → u = t.rebuild fun y => (r.run (f y) s).1
  | ⟨first, rest⟩, u, found => by
    rw [Ty.rebuildM] at found
    obtain ⟨head, first', found⟩ := found.of_bind fun _ =>
      .bind (r.steady_members each rest) fun _ => .pure _
    obtain ⟨tail, rest', found⟩ := found.of_bind fun _ => .pure _
    rw [Ty.rebuild_eq, ← found.of_pure, found_member each first first',
      found_members each rest rest']
    rfl

theorem found_members {f : Member → m Ty} (each : ∀ x, r.Steady (f x)) : (xs : List Member) →
    {us : List Ty} → r.Found s (Member.rebuildListM f xs) us →
      us = xs.map (Member.rebuild fun y => (r.run (f y) s).1)
  | [], _, found => found.of_pure.symm
  | x :: xs, _, found => by
    obtain ⟨head, first, found⟩ := found.of_bind fun _ =>
      .bind (r.steady_members each xs) fun _ => .pure _
    obtain ⟨tail, rest, found⟩ := found.of_bind fun _ => .pure _
    rw [← found.of_pure, found_member each x first, found_members each xs rest]
    rfl

theorem found_tys {f : Member → m Ty} (each : ∀ x, r.Steady (f x)) : (ts : List Ty) →
    {us : List Ty} → r.Found s (Ty.rebuildListM f ts) us →
      us = ts.map (Ty.rebuild fun y => (r.run (f y) s).1)
  | [], _, found => found.of_pure.symm
  | t :: ts, _, found => by
    obtain ⟨head, first, found⟩ := found.of_bind fun _ =>
      .bind (r.steady_tys each ts) fun _ => .pure _
    obtain ⟨tail, rest, found⟩ := found.of_bind fun _ => .pure _
    rw [← found.of_pure, found_ty each t first, found_tys each ts rest]
    rfl

end

/-- A qualified type is made of what the lookups answer from then on. -/
theorem found_qualify {store : Store} {gates : List String} {t u : Ty}
    (found : r.Found s (store.qualify gates t) u) : u = t.qualify (r.answers s store gates) := by
  refine (found_ty (fun y => ?_) t found).trans ?_
  · exact .ite (.bind (.lookup store y.name gates) fun answer => by cases answer <;> exact .pure _)
      (.pure _)
  rw [Ty.qualify_eq]
  congr 1
  funext y
  unfold Member.qualified
  by_cases relative : Ty.isRelativeName y = true
  · rw [if_pos relative, if_pos relative, r.run_bind]
    unfold answers
    cases (r.run (store.lookup y.name gates) s).1 <;> exact congrArg Prod.fst (r.run_pure _ _)
  · rw [if_neg relative, if_neg relative]
    exact congrArg Prod.fst (r.run_pure _ _)

/-! ### One method -/

section

variable {site : CallSite m} {store : Store} {cx : LinkSite} {context : Ty} {args : List Ty}
  {pin : Pin}

/-- The answer of an overload is its return type with all generics resolved, `self` replaced and
relative names looked up in the gates of the method. -/
theorem found_answer {signature resolved : Signature} {t : Ty}
    (found : r.Found s (site.answer store cx context args pin signature) (resolved, t)) :
    ∃ blockTy, resolved = (signature.resolve ⟨some args, none, none, blockTy⟩ .empty).1 ∧
      r.Found s (store.qualify pin.gates (resolved.returns.selfTo context)) t := by
  obtain ⟨blockTy, -, found⟩ := found.of_bind fun _ =>
    .bind (r.steady_qualify store _ _) fun _ => .pure _
  obtain ⟨u, qualified, whole⟩ := found.of_bind fun _ => .pure _
  obtain ⟨rfl, rfl⟩ := Prod.mk.inj whole.of_pure
  exact ⟨blockTy, rfl, qualified⟩

/-- A method without overloads gives its stated type, any other one the answer of an overload, if
one fits. -/
theorem found_returnTy {reduced : Pin} {t : Ty}
    (found : r.Found s (site.returnTy store cx context args pin) (reduced, t)) :
    (pin.signatures = [] ∧ reduced = pin ∧
        r.Found s (store.qualify pin.gates (pin.returnTy.selfTo context)) t) ∨
      ∃ out, r.Found s (site.answerFrom store cx context args pin none (Overload.ordered pin)) out ∧
        ((∃ resolved, out = some (resolved, t) ∧ reduced = pin.withOverloads [resolved]) ∨
          out = none ∧ reduced = pin ∧ t = .undefined) := by
  unfold CallSite.returnTy at found
  cases ordered : Overload.ordered pin with
  | nil =>
    rw [ordered] at found
    obtain ⟨u, qualified, whole⟩ := found.of_bind fun _ => .pure _
    obtain ⟨rfl, rfl⟩ := Prod.mk.inj whole.of_pure
    exact Or.inl ⟨Overload.ordered_eq_nil_iff.mp ordered, rfl, qualified⟩
  | cons signature signatures =>
    rw [ordered] at found
    obtain ⟨out, answered, found⟩ := found.of_bind fun out => by
      cases out <;> exact .pure _
    refine Or.inr ⟨out, answered, ?_⟩
    cases out with
    | none =>
      obtain ⟨rfl, rfl⟩ := Prod.mk.inj found.of_pure
      exact Or.inr ⟨rfl, rfl, rfl⟩
    | some answer =>
      obtain ⟨resolved, u⟩ := answer
      obtain ⟨rfl, rfl⟩ := Prod.mk.inj found.of_pure
      exact Or.inl ⟨resolved, rfl, rfl⟩

/-- Answering a call changes nothing of a method but its overloads. -/
theorem reduced_of_found_returnTy {reduced : Pin} {t : Ty}
    (found : r.Found s (site.returnTy store cx context args pin) (reduced, t)) :
    reduced = pin ∨ ∃ signatures, reduced = pin.withOverloads signatures := by
  rcases found_returnTy found with ⟨-, same, -⟩ | ⟨-, -, ⟨resolved, -, same⟩ | ⟨-, same, -⟩⟩
  · exact Or.inl same
  · exact Or.inr ⟨[resolved], same⟩
  · exact Or.inl same

/-- What a method evaluates to: an instance of the receiver for the method `new` of classes, else
what its overloads give, else what its templates state. -/
theorem found_inferPin {answered : Pin}
    (found : r.Found s (site.inferPin store cx context args pin) answered) :
    ∃ reduced t, r.Found s (site.returnTy store cx context args pin) (reduced, t) ∧
      answered = reduced.proxied
        (if reduced.path == "Class#new" && context.tag != "Class" then context.instanceTy
        else (if t.isUndefined then Template.returnTy store reduced args else t).selfTo
          context) := by
  obtain ⟨⟨reduced, t⟩, returned, found⟩ := found.of_bind fun _ => .ite (.pure _) (.pure _)
  refine ⟨reduced, t, returned, ?_⟩
  dsimp only at found
  split at found
  · rename_i instantiates
    rw [if_pos instantiates]
    exact found.of_pure.symm
  · rename_i ordinary
    rw [if_neg ordinary]
    exact found.of_pure.symm

variable [LawfulMonad m] (block : ∀ scope, r.Steady (site.blockTy scope))
include block

theorem steady_overloadAnswer (signature : Signature) :
    r.Steady (site.answer store cx context args pin signature) :=
  .bind (r.steady_knownBlockTy store cx context block signature) fun _ =>
    .bind (r.steady_qualify store _ _) fun _ => .pure _

/-- The first of several overloads is passed over if it does not fit, or it answers; an answer of a
known type is final. -/
theorem found_answerFrom_cons {signature : Signature} {signatures : List Signature}
    {last out : Option (Signature × Ty)}
    (found : r.Found s (site.answerFrom store cx context args pin last (signature :: signatures))
      out) :
    (¬ site.Fits r s store args pin signature ∧
        r.Found s (site.answerFrom store cx context args pin last signatures) out) ∨
      ∃ resolved t, site.Fits r s store args pin signature ∧
        r.Found s (site.answer store cx context args pin signature) (resolved, t) ∧
        (t.isUndefined = true ∧
            r.Found s (site.answerFrom store cx context args pin (some (resolved, t)) signatures)
              out ∨
          t.isUndefined = false ∧ out = some (resolved, t)) := by
  have rest := fun last => r.steady_answerFrom store cx context block args pin last signatures
  rw [CallSite.answerFrom] at found
  by_cases arity : signature.accepts args.length site.withBlock = true
  · rw [if_pos arity] at found
    obtain ⟨mismatch, checked, found⟩ := found.of_bind fun mismatch => by
      cases mismatch with
      | some wrong => exact rest last
      | none =>
        exact .bind (steady_overloadAnswer block signature) fun _ => .ite (rest _) (.pure _)
    cases mismatch with
    | some wrong =>
      refine Or.inl ⟨fun fits => ?_, found⟩
      have same := (r.steady_mismatch? store pin signature args).unique checked fits.arguments
      exact absurd same (by simp)
    | none =>
      obtain ⟨⟨resolved, t⟩, answered, found⟩ := found.of_bind fun _ => .ite (rest _) (.pure _)
      refine Or.inr ⟨resolved, t, ⟨arity, checked⟩, answered, ?_⟩
      by_cases known : t.isUndefined = true
      · rw [if_pos known] at found
        exact Or.inl ⟨known, found⟩
      · rw [if_neg known] at found
        exact Or.inr ⟨by simpa using known, found.of_pure.symm⟩
  · rw [if_neg arity] at found
    exact Or.inl ⟨fun fits => arity fits.arity, found⟩

/-- What overloads give is the answer of one of them that fits, and if none of them fits, what was
there before. -/
theorem found_answerFrom_cases {signatures : List Signature} {last out : Option (Signature × Ty)}
    (found : r.Found s (site.answerFrom store cx context args pin last signatures) out) :
    (out = last ∧ ∀ signature ∈ signatures, ¬ site.Fits r s store args pin signature) ∨
      ∃ signature ∈ signatures, site.Fits r s store args pin signature ∧ ∃ resolved t,
        out = some (resolved, t) ∧
        r.Found s (site.answer store cx context args pin signature) (resolved, t) := by
  induction signatures generalizing last with
  | nil => exact Or.inl ⟨found.of_pure.symm, fun _ listed => absurd listed List.not_mem_nil⟩
  | cons signature signatures ih =>
    have later : (∃ other ∈ signatures, site.Fits r s store args pin other ∧ ∃ resolved t,
          out = some (resolved, t) ∧
          r.Found s (site.answer store cx context args pin other) (resolved, t)) →
        ∃ other ∈ signature :: signatures, site.Fits r s store args pin other ∧ ∃ resolved t,
          out = some (resolved, t) ∧
          r.Found s (site.answer store cx context args pin other) (resolved, t) :=
      fun ⟨other, listed, answers⟩ => ⟨other, List.mem_cons_of_mem _ listed, answers⟩
    rcases found_answerFrom_cons block found with
      ⟨misfit, found⟩ | ⟨first, u, fits, answered, ⟨-, found⟩ | ⟨-, same⟩⟩
    · exact (ih found).imp
        (fun ⟨same, misfits⟩ => ⟨same, List.forall_mem_cons.mpr ⟨misfit, misfits⟩⟩) later
    · rcases ih found with ⟨same, -⟩ | answers
      · exact Or.inr ⟨signature, List.mem_cons_self, fits, first, u, same, answered⟩
      · exact Or.inr (later answers)
    · exact Or.inr ⟨signature, List.mem_cons_self, fits, first, u, same, answered⟩

/-- A selected overload whose answer is of a known type is the one that answers. -/
theorem found_answerFrom_selected {before after : List Signature} {signature : Signature}
    (fits : site.Fits r s store args pin signature)
    (unknown : ∀ other ∈ before, site.Fits r s store args pin other → ∀ resolved t,
      r.Found s (site.answer store cx context args pin other) (resolved, t) → t.isUndefined = true)
    (known : ∀ resolved t,
      r.Found s (site.answer store cx context args pin signature) (resolved, t) →
        t.isUndefined = false)
    {last out : Option (Signature × Ty)}
    (found : r.Found s (site.answerFrom store cx context args pin last
      (before ++ signature :: after)) out) :
    ∃ resolved t, r.Found s (site.answer store cx context args pin signature) (resolved, t) ∧
      out = some (resolved, t) := by
  induction before generalizing last with
  | nil =>
    rcases found_answerFrom_cons block found with
      ⟨misfit, -⟩ | ⟨resolved, t, -, answered, ⟨undefined, -⟩ | ⟨-, same⟩⟩
    · exact absurd fits misfit
    · exact absurd (undefined.symm.trans (known _ _ answered)) (by simp)
    · exact ⟨resolved, t, answered, same⟩
  | cons other before ih =>
    have later := fun o (listed : o ∈ before) => unknown o (List.mem_cons_of_mem _ listed)
    rcases found_answerFrom_cons block found with
      ⟨-, found⟩ | ⟨resolved, t, fitting, answered, ⟨-, found⟩ | ⟨defined, -⟩⟩
    · exact ih later found
    · exact ih later found
    · have undefined := unknown other List.mem_cons_self fitting _ _ answered
      exact absurd (undefined.symm.trans defined) (by simp)

/-! ### One call -/

theorem found_inferPins {stack pins : List Pin}
    (found : r.Found s (site.inferPins store cx context stack) pins) :
    (stack = [] ∧ pins = []) ∨ ∃ args, r.Found s site.argTys args ∧
      List.Forall₂ (fun method answered => r.Found s
        (site.inferPin store cx context args method) answered) stack pins := by
  unfold CallSite.inferPins at found
  split at found
  · exact Or.inl ⟨rfl, found.of_pure.symm⟩
  · obtain ⟨args, inferred, found⟩ := found.of_bind fun args =>
      .mapM fun method _ => r.steady_inferPin store cx context block args method
    exact Or.inr ⟨args, inferred, found.of_mapM fun method =>
      r.steady_inferPin store cx context block args method⟩

variable (arguments : r.Steady site.argTys)
include arguments

/-- A call by the name of a method, where no variable of that name is visible: each member of the
receiver's type answers. If none does, the call of `new` makes an instance of classes. -/
theorem found_resolve_members {pins : List Pin} (bare : site.visibleLocals cx = [])
    (named : site.word ≠ "super" ∧ site.word ≠ "yield")
    (found : r.Found s (site.resolve store cx) pins) :
    ∃ answers, List.Forall₂ (site.AnswersFor r s store cx) cx.receiver.context.members answers ∧
      pins = if answers.flatten = [] ∧ site.word = "new" ∧
          ∀ member ∈ cx.receiver.context.members, member.scope = .classLevel
        then [.valueIn cx.lexical cx.receiver.context.instanceTy] else answers.flatten := by
  have each : ∀ member, r.Steady (do
      let stack ← store.methodsNamed member site.word
      site.inferPins store cx (.single member) stack) := fun member =>
    .bind (r.steady_methodsNamed store member _) fun _ =>
      r.steady_inferPins store cx _ block arguments _
  unfold CallSite.resolve at found
  rw [if_neg (by simpa using named.1), if_neg (by simpa using named.2), bare] at found
  obtain ⟨answers, answered, found⟩ := found.of_bind fun _ => .ite (.pure _) (.pure _)
  obtain ⟨parts, inStep, whole⟩ := answered.of_bind fun _ => .pure _
  obtain rfl := whole.of_pure
  refine ⟨parts, (inStep.of_mapM each).imp fun member pins found => ?_, ?_⟩
  · obtain ⟨stack, listed, inferred⟩ := found.of_bind fun _ =>
      r.steady_inferPins store cx _ block arguments _
    exact ⟨stack, listed, inferred⟩
  · have condition : (parts.flatten.isEmpty && site.word == "new" &&
          cx.receiver.context.members.all (·.scope == .classLevel)) = true ↔
        parts.flatten = [] ∧ site.word = "new" ∧
          ∀ member ∈ cx.receiver.context.members, member.scope = .classLevel := by
      simp only [Bool.and_eq_true, List.isEmpty_iff, beq_iff_eq, List.all_eq_true, and_assoc]
    simp only [condition] at found
    split at found
    · rename_i instantiates
      rw [if_pos instantiates]
      exact found.of_pure.symm
    · rename_i ordinary
      rw [if_neg ordinary]
      exact found.of_pure.symm

/-- A call behind a receiver, by the name of a method: each member of the receiver's type answers,
and if none has such a method, the call of `new` makes an instance. -/
theorem found_resolve {pins : List Pin} (behind : cx.head = false)
    (named : site.word ≠ "super" ∧ site.word ≠ "yield")
    (found : r.Found s (site.resolve store cx) pins) :
    ∃ answers, List.Forall₂ (site.AnswersFor r s store cx) cx.receiver.context.members answers ∧
      (pins = answers.flatten ∨
        answers.flatten = [] ∧ pins = [.valueIn cx.lexical cx.receiver.context.instanceTy]) := by
  have bare : site.visibleLocals cx = [] := by simp [CallSite.visibleLocals, behind]
  obtain ⟨answers, inStep, rfl⟩ := found_resolve_members block arguments bare named found
  refine ⟨answers, inStep, ?_⟩
  split
  · rename_i instantiates
    exact Or.inr ⟨instantiates.1, rfl⟩
  · exact Or.inl rfl

omit arguments in
/-- What several methods evaluate to is what each of them evaluates to. -/
theorem mem_of_found_inferPins {stack pins : List Pin} {answered : Pin} (listed : answered ∈ pins)
    (found : r.Found s (site.inferPins store cx context stack) pins) :
    ∃ method ∈ stack, ∃ args, r.Found s site.argTys args ∧
      r.Found s (site.inferPin store cx context args method) answered := by
  rcases found_inferPins block found with ⟨-, rfl⟩ | ⟨args, inferred, inStep⟩
  · exact absurd listed List.not_mem_nil
  · obtain ⟨method, stacked, evaluates⟩ := exists_left_of_forall₂ inStep listed
    exact ⟨method, stacked, args, inferred, evaluates⟩

omit [LawfulMonad m] block arguments in
theorem isMethod_of_found_methodsNamed {receiver : Member} {name : String} {stack : List Pin}
    {method : Pin} (found : r.Found s (store.methodsNamed receiver name) stack)
    (stacked : method ∈ stack) : method.isMethod = true := by
  obtain ⟨frames, -, rfl⟩ := found_methodsNamed found
  obtain ⟨frame, -, seen⟩ := List.mem_flatMap.mp stacked
  exact Store.isMethod_of_mem_frameMethods seen

omit [LawfulMonad m] block arguments in
/-- The methods that answer a call are methods. -/
theorem isMethod_of_receives {receiver : Ty} {stack : List Pin} {method : Pin}
    (receives : site.Receives r s store cx receiver stack) (stacked : method ∈ stack) :
    method.isMethod = true := by
  cases receives with
  | member _ _ found => exact isMethod_of_found_methodsNamed found stacked
  | superclass _ _ found =>
    exact isMethod_of_found_methodsNamed found (List.mem_filter.mp stacked).1

/-- What a call behind a receiver may refer to is one of the methods that answer it, or an
instance. -/
theorem received_of_found_resolve {pins : List Pin} {answered : Pin} (behind : cx.head = false)
    (sent : site.word ≠ "yield") (listed : answered ∈ pins)
    (found : r.Found s (site.resolve store cx) pins) :
    (∃ receiver stack, site.Receives r s store cx receiver stack ∧ ∃ method ∈ stack, ∃ args,
        r.Found s site.argTys args ∧
        r.Found s (site.inferPin store cx receiver args method) answered) ∨
      answered = .valueIn cx.lexical cx.receiver.context.instanceTy := by
  by_cases upward : site.word = "super"
  · unfold CallSite.resolve at found
    rw [if_pos (by simpa using upward)] at found
    unfold CallSite.superCandidates at found
    cases around : cx.lexical.methodAround? with
    | none =>
      rw [around] at found
      obtain rfl := found.of_pure
      exact absurd listed List.not_mem_nil
    | some method =>
      rw [around] at found
      obtain ⟨stack, found, evaluated⟩ := found.of_bind fun _ =>
        r.steady_inferPins store cx _ block arguments _
      exact Or.inl ⟨_, _, .superclass upward around found,
        mem_of_found_inferPins block listed evaluated⟩
  · obtain ⟨answers, inStep, rfl | ⟨-, rfl⟩⟩ :=
      found_resolve block arguments behind ⟨upward, sent⟩ found
    · obtain ⟨answer, part, listed⟩ := List.mem_flatten.mp listed
      obtain ⟨member, inside, stack, found, evaluated⟩ := exists_left_of_forall₂ inStep part
      exact Or.inl ⟨_, _, .member upward inside found,
        mem_of_found_inferPins block listed evaluated⟩
    · exact Or.inr (List.mem_singleton.mp listed)

end

/-! ### The types of the candidates -/

variable {an : Analyzer}

/-- A pin with a known type evaluates to that type, looked up in its gates. Without a known type it
stays without one, if it is neither assigned nor a parameter. -/
theorem found_typeOf {pin : Pin} {locals : List Pin} {t : Ty} (unassigned : pin.assignment? = none)
    (ordinary : pin.isLocal = false) (found : r.Found s (an.typeOf pin locals) t) :
    (pin.returnTy.isUndefined = true ∧ t = .undefined) ∨
      (pin.returnTy.isUndefined = false ∧
        t = pin.returnTy.qualify (r.answers s an.store pin.gates)) := by
  have engineless : ∀ engine, pin.returnTy.isUndefined = true →
      typeOfWith (m := m) an.store engine pin locals = pure .undefined := by
    intro engine undefined
    refine (if_pos undefined).trans ?_
    cases engine with
    | none => rfl
    | some engine =>
      dsimp only
      rw [unassigned]
      cases kind : pin.kind with
      | parameter form index ty extent => simp [Pin.isLocal, kind] at ordinary
      | _ => rfl
  have evaluated : ∃ engine, r.Found s (typeOfWith an.store engine pin locals) t := by
    obtain ⟨store, budget⟩ := an
    cases budget with
    | zero => exact ⟨none, found⟩
    | succ budget => exact ⟨some _, found⟩
  obtain ⟨engine, found⟩ := evaluated
  by_cases undefined : pin.returnTy.isUndefined = true
  · rw [engineless engine undefined] at found
    exact Or.inl ⟨undefined, found.of_pure.symm⟩
  · refine Or.inr ⟨by simpa using undefined, found_qualify ?_⟩
    have stated : typeOfWith (m := m) an.store engine pin locals =
        an.store.qualify pin.gates pin.returnTy := if_neg undefined
    rwa [stated] at found

/-- A method that was put to evaluate to a type does so, with the type looked up in its gates. -/
theorem found_typeOf_proxied {pin : Pin} {locals : List Pin} {t u : Ty}
    (method : pin.isMethod = true) (found : r.Found s (an.typeOf (pin.proxied u) locals) t) :
    (u.isUndefined = true ∧ t = .undefined) ∨
      (u.isUndefined = false ∧ t = u.qualify (r.answers s an.store pin.gates)) := by
  have method : (pin.proxied u).isMethod = true := method
  simpa using found_typeOf (Pin.assignment?_of_isMethod method) (Pin.isLocal_of_isMethod method)
    found

variable [LawfulMonad m]

theorem found_chainTy {nullable : Bool} {pins locals : List Pin} {t : Ty}
    (found : r.Found s (chainTy an.typeOf nullable pins locals) t) :
    ∃ tys, List.Forall₂ (fun pin u => r.Found s (an.typeOf pin locals) u) pins tys ∧
      t = chainUnion nullable tys := by
  obtain ⟨u, union, whole⟩ := found.of_bind fun _ => .pure _
  obtain ⟨tys, each, joined⟩ := union.of_bind fun _ => .pure _
  obtain rfl := joined.of_pure
  exact ⟨tys, each.of_mapM fun pin => r.steady_typeOf an pin locals, whole.of_pure.symm⟩

/-! ### The call at the end of a chain -/

theorem steady_siteOf (an : Analyzer) (c : Call) (cx : LinkSite) :
    (∀ scope, r.Steady ((siteOf an.infer c cx).blockTy scope)) ∧
      r.Steady (siteOf an.infer c cx).argTys := by
  refine ⟨fun scope => ?_, r.steady_inferEach (fun chain => r.steady_infer an chain _ _) _⟩
  unfold siteOf
  dsimp only
  split
  · exact .pure _
  · exact r.steady_infer an _ scope _

theorem found_callCandidates {c : Call} {cx : LinkSite} {pins : List Pin}
    (found : r.Found s (linkCandidates an.store an.typeOf (.call c) cx) pins) :
    r.Found s ((siteOf an.infer c cx).resolve an.store cx) pins := by
  rwa [linkCandidates, callCandidates_eq] at found

/-- What links refer to is what the last of them refers to behind the others. -/
theorem found_linksCandidates_concat {nullable : Bool} {front : List Link} {link : Link}
    {cx : LinkSite} {pins : List Pin}
    (found : r.Found s (linksCandidates an.store an.typeOf nullable (front ++ [link]) cx) pins) :
    pins = [] ∨ ∃ site, an.Reaches r s nullable [link] site (front ++ [link]) cx ∧
      r.Found s (linkCandidates an.store an.typeOf link site) pins := by
  induction front generalizing cx with
  | nil => exact Or.inr ⟨cx, .here, found⟩
  | cons first front ih =>
    have shape : ∃ next rest, front ++ [link] = next :: rest := by
      cases front with
      | nil => exact ⟨link, [], rfl⟩
      | cons next front => exact ⟨next, front ++ [link], rfl⟩
    obtain ⟨next, rest, shape⟩ := shape
    rw [List.cons_append, shape] at found
    obtain ⟨firsts, t, resolves, ⟨-, none⟩ | ⟨known, later⟩⟩ :=
      Analyzer.found_linksCandidates_cons found
    · exact Or.inl none
    · rw [← shape] at later
      refine (ih later).imp_right ?_
      rintro ⟨site, reaches, found⟩
      exact ⟨site, .step resolves known reaches, found⟩

/-- Where a chain reaches its last link, it refers to what that link refers to. -/
theorem found_linksCandidates_of_reaches {nullable : Bool} {links : List Link} {link : Link}
    {cx site : LinkSite} {pins : List Pin} (reaches : an.Reaches r s nullable [link] site links cx)
    (found : r.Found s (linksCandidates an.store an.typeOf nullable links cx) pins) :
    r.Found s (linkCandidates an.store an.typeOf link site) pins := by
  induction reaches with
  | here => exact found
  | @step first links cx firsts t resolves known onward ih =>
    cases links with
    | nil => cases onward
    | cons next rest =>
      -- the chain resolves its first link as it is resolved on the way to the last one
      obtain ⟨others, u, resolves', ⟨unknown, -⟩ | ⟨-, later⟩⟩ :=
        Analyzer.found_linksCandidates_cons found
      · obtain ⟨-, rfl⟩ := resolves.unique resolves'
        exact absurd (unknown.symm.trans known) (by simp)
      · obtain ⟨-, rfl⟩ := resolves.unique resolves'
        exact ih later

/-- All links before one that is reached are of a known form. -/
theorem isUnknownLink_of_reaches {nullable : Bool} {links rest : List Link} {cx site : LinkSite}
    (reaches : an.Reaches r s nullable rest site links cx)
    (known : rest.any Chain.isUnknownLink = false) : links.any Chain.isUnknownLink = false := by
  induction reaches with
  | here => exact known
  | @step link links cx pins t resolves defined onward ih =>
    rw [List.any_cons, ih, Bool.or_false]
    cases link with
    | unknown =>
      have candidates : r.Found s (pure [] : m (List Pin)) pins := resolves.candidates
      obtain rfl := candidates.of_pure
      exact absurd (resolves.isUndefined_of_nil.symm.trans defined) (by simp)
    | _ => rfl

omit [LawfulMonad m] in
theorem head_of_reaches {nullable : Bool} {links rest : List Link} {cx site : LinkSite}
    (reaches : an.Reaches r s nullable rest site links cx) (behind : cx.head = false) :
    site.head = false := by
  induction reaches with
  | here => exact behind
  | step _ _ _ ih => exact ih rfl

omit [LawfulMonad m] in
/-- The last of several links is not the head. -/
theorem head_of_reaches_concat {nullable : Bool} {front : List Link} {link : Link}
    {cx site : LinkSite} (nonempty : front ≠ [])
    (reaches : an.Reaches r s nullable [link] site (front ++ [link]) cx) : site.head = false := by
  obtain ⟨first, front, rfl⟩ := List.exists_cons_of_ne_nil nonempty
  generalize links : first :: front ++ [link] = whole at reaches
  cases reaches with
  | here => simp at links
  | step _ _ onward => exact head_of_reaches onward rfl

/-- The type of a chain is the union of what its last link refers to, behind the others. -/
theorem found_infer_concat {chain : Chain} {lexical : Pin} {locals : List Pin} {front : List Link}
    {link : Link} {t : Ty} (ends : chain.links = front ++ [link])
    (found : r.Found s (an.infer chain lexical locals) t) :
    t = .undefined ∨ ∃ site pins tys,
      an.Reaches r s chain.nullable [link] site chain.links (chain.firstSite lexical locals) ∧
      r.Found s (linkCandidates an.store an.typeOf link site) pins ∧
      List.Forall₂ (fun pin u => r.Found s (an.typeOf pin locals) u) pins tys ∧
      t = chainUnion chain.nullable tys := by
  obtain ⟨pins, candidates, typed⟩ := found.of_bind fun pins =>
    r.steady_chainTy (r.steady_typeOf an) chain.nullable pins locals
  obtain ⟨tys, each, rfl⟩ := found_chainTy typed
  have none : pins = [] → chainUnion chain.nullable tys = .undefined := by
    rintro rfl
    cases each
    cases chain.nullable <;> rfl
  obtain ⟨links, location, nullable⟩ := chain
  obtain rfl : links = front ++ [link] := ends
  rw [candidatesWith] at candidates
  split at candidates
  · exact Or.inl (none candidates.of_pure.symm)
  · rcases found_linksCandidates_concat candidates with nothing | ⟨site, reaches, last⟩
    · exact Or.inl (none nothing)
    · exact Or.inr ⟨site, pins, tys, reaches, last, each, rfl⟩

/-- Where a chain reaches a call at its end, its type is the union of what the call refers to. -/
theorem found_infer_of_reaches {chain : Chain} {lexical : Pin} {locals : List Pin} {c : Call}
    {site : LinkSite} {t : Ty}
    (reaches : an.Reaches r s chain.nullable [.call c] site chain.links
      (chain.firstSite lexical locals))
    (found : r.Found s (an.infer chain lexical locals) t) :
    ∃ pins tys, r.Found s ((siteOf an.infer c site).resolve an.store site) pins ∧
      List.Forall₂ (fun pin u => r.Found s (an.typeOf pin locals) u) pins tys ∧
      t = chainUnion chain.nullable tys := by
  obtain ⟨pins, candidates, typed⟩ := found.of_bind fun pins =>
    r.steady_chainTy (r.steady_typeOf an) chain.nullable pins locals
  obtain ⟨tys, each, rfl⟩ := found_chainTy typed
  refine ⟨pins, tys, found_callCandidates ?_, each, rfl⟩
  have known := isUnknownLink_of_reaches reaches rfl
  obtain ⟨links, location, nullable⟩ := chain
  rw [candidatesWith, if_neg (by simpa using known)] at candidates
  exact found_linksCandidates_of_reaches reaches candidates

end SteadyRunner

/-! ### Messages to literals -/

/-- A literal of one type that receives a message without arguments. -/
def Chain.sending (receiver : Member) (word : String) : Chain :=
  .ofLinks [.literal (.single receiver), .call (.bare word)]

section

variable {an : Analyzer} {receiver : Member} {word : String} {lexical : Pin} {locals : List Pin}

/-- Where the message is resolved. -/
def Chain.sentSite (receiver : Member) (word : String) (lexical : Pin) (locals : List Pin) :
    LinkSite :=
  ((Chain.sending receiver word).firstSite lexical locals).behind (.single receiver)

theorem Chain.context_sentSite (receiver : Member) (word : String) (lexical : Pin)
    (locals : List Pin) :
    (Chain.sentSite receiver word lexical locals).receiver.context = .single receiver := by
  simp [sentSite, LinkSite.behind, Pin.valueIn, Pin.make, Pin.context]

/-- What the message may refer to, if these are the frames of the literal's type. -/
def Analyzer.sentPins (an : Analyzer) (receiver : Member) (word : String) (lexical : Pin)
    (locals : List Pin) (frames : List Frame) : List Pin :=
  let cx := Chain.sentSite receiver word lexical locals
  Id.run ((siteOf an.infer (.bare word) cx).inferPins an.store cx (.single receiver)
    (frames.flatMap (an.store.frameMethods word)))

/-- What the message evaluates to, if these are the frames of the literal's type. -/
def Analyzer.sentTy (an : Analyzer) (receiver : Member) (word : String) (lexical : Pin)
    (locals : List Pin) (frames : List Frame) : Ty :=
  Id.run (chainTy an.typeOf false (an.sentPins receiver word lexical locals frames) locals)

theorem SteadyRunner.eq_of_found_plain {α : Type} {x : Id α} {a : α} {s : Unit}
    (found : SteadyRunner.plain.Found s x a) : Id.run x = a := by
  obtain ⟨_, answer, -⟩ := found
  exact answer

/-- The message is resolved behind the type of the literal. -/
theorem site_of_reaches_sending
    (typed : Id.run (receiverTy an.typeOf false [.value (.single receiver)] locals) =
      .single receiver) {site : LinkSite}
    (reaches : an.Reaches SteadyRunner.plain () false [.call (.bare word)] site
      (Chain.sending receiver word).links
      ((Chain.sending receiver word).firstSite lexical locals)) :
    site = Chain.sentSite receiver word lexical locals := by
  generalize whole : (Chain.sending receiver word).links = links at reaches
  cases reaches with
  | here => simp [Chain.sending, Chain.ofLinks] at whole
  | step resolves _ onward =>
    obtain ⟨rfl, rfl⟩ := List.cons.inj whole
    have pins := SteadyRunner.eq_of_found_plain resolves.candidates
    have ty := SteadyRunner.eq_of_found_plain resolves.receiver
    obtain rfl : [Pin.value (.single receiver)] = _ := pins
    obtain rfl := typed.symm.trans ty
    cases onward with
    | here => rfl
    | step _ _ onward => cases onward

theorem reaches_sending
    (typed : Id.run (receiverTy an.typeOf false [.value (.single receiver)] locals) =
      .single receiver) (known : receiver.isUndefined = false) :
    an.Reaches SteadyRunner.plain () false [.call (.bare word)]
      (Chain.sentSite receiver word lexical locals) (Chain.sending receiver word).links
      ((Chain.sending receiver word).firstSite lexical locals) := by
  have resolves : an.Resolves SteadyRunner.plain () false (.literal (.single receiver))
      ((Chain.sending receiver word).firstSite lexical locals) [.value (.single receiver)]
      (.single receiver) :=
    ⟨⟨(), rfl, trivial⟩, ⟨(), typed, trivial⟩⟩
  exact .step resolves (by simp [Ty.isUndefined, Ty.single, Ty.members, known]) .here

/-- The message is received by the type of the literal. -/
theorem receives_sending {frames : List Frame} (ordinary : word ≠ "super")
    (searched : Id.run (an.store.receiverAncestors receiver) = frames) {t : Ty} {stack : List Pin}
    (receives : (siteOf an.infer (.bare word)
      (Chain.sentSite receiver word lexical locals)).Receives SteadyRunner.plain () an.store
        (Chain.sentSite receiver word lexical locals) t stack) :
    t = .single receiver ∧ stack = frames.flatMap (an.store.frameMethods word) := by
  cases receives with
  | member _ inside found =>
    rw [Chain.context_sentSite] at inside
    obtain rfl := List.mem_singleton.mp inside
    obtain ⟨visited, found, rfl⟩ := SteadyRunner.found_methodsNamed found
    rw [← searched, ← SteadyRunner.eq_of_found_plain found]
    exact ⟨rfl, rfl⟩
  | superclass upward _ _ => exact absurd upward ordinary

/-- A receiver of one type answers with its methods. -/
theorem run_resolve_alone {site : CallSite Id} {store : Store} {cx : LinkSite}
    (behind : cx.head = false) (alone : cx.receiver.context = .single receiver)
    (plain : site.word ≠ "super" ∧ site.word ≠ "yield" ∧ site.word ≠ "new") {frames : List Frame}
    (searched : Id.run (store.receiverAncestors receiver) = frames) :
    Id.run (site.resolve store cx) =
      Id.run (site.inferPins store cx (.single receiver)
        (frames.flatMap (store.frameMethods site.word))) := by
  obtain ⟨notSuper, notYield, notNew⟩ := plain
  have bare : site.visibleLocals cx = [] := by simp [CallSite.visibleLocals, behind]
  have found : Id.run (site.memberCandidates store cx cx.receiver.context.members) =
      Id.run (site.inferPins store cx (.single receiver)
        (frames.flatMap (store.frameMethods site.word))) := by
    rw [alone, ← searched]
    exact List.append_nil _
  rw [← found]
  unfold CallSite.resolve
  simp [notSuper, notYield, notNew, bare]

theorem candidates_sending {m : Type → Type} [Monad m] [LawfulMonad m] [ConstantLookup m] :
    an.candidates (m := m) (.sending receiver word) lexical locals =
      receiverTy an.typeOf false [.value (.single receiver)] locals >>= fun t =>
        if t.isUndefined then pure []
        else linkCandidates an.store an.typeOf (.call (.bare word))
          (((Chain.sending receiver word).firstSite lexical locals).behind t) := by
  simp only [Analyzer.candidates, Chain.sending, Chain.ofLinks, candidatesWith, linksCandidates_eq,
    followLinks]
  rw [if_neg (by simp [Chain.isUnknownLink]), linkCandidates, pure_bind]
  rfl

section

variable {frames : List Frame} (plain : word ≠ "super" ∧ word ≠ "yield" ∧ word ≠ "new")
  (typed : Id.run (receiverTy an.typeOf false [.value (.single receiver)] locals) =
    .single receiver)
  (known : receiver.isUndefined = false)
  (searched : Id.run (an.store.receiverAncestors receiver) = frames)
include plain typed known searched

/-- The message is answered by what the methods of the literal's type evaluate to. -/
theorem run_candidates_sending :
    Id.run (an.candidates (.sending receiver word) lexical locals) =
      an.sentPins receiver word lexical locals frames := by
  have undefined : ¬ (Ty.single receiver).isUndefined = true := by
    simp [Ty.isUndefined, Ty.single, Ty.members, known]
  rw [candidates_sending, Id.run_bind, typed, if_neg undefined, linkCandidates, callCandidates_eq]
  exact run_resolve_alone rfl (Chain.context_sentSite receiver word lexical locals) plain searched

theorem run_infer_sending :
    Id.run (an.infer (.sending receiver word) lexical locals) =
      an.sentTy receiver word lexical locals frames :=
  congrArg (fun pins => Id.run (chainTy an.typeOf false pins locals))
    (run_candidates_sending plain typed known searched)

end

end

end DuckInfer
