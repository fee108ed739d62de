import DuckInfer.Store.Methods

/-!
Queries as computations that look up constants. Where a property of computations holds of every
lookup and is kept when one computation follows another, it holds of the queries of a store. The
least such property says that a computation is made of lookups and of nothing else.
-/

namespace DuckInfer

/-- A property of computations that the lookups of constants of a store have, and that one
computation after another has if both have it. -/
structure LookupProperty (m : Type → Type) [Monad m] [ConstantLookup m] (store : Store) where
  Holds : {α : Type} → m α → Prop
  holds_pure : ∀ {α : Type} (a : α), Holds (Pure.pure a : m α)
  holds_bind : ∀ {α β : Type} {x : m α} {f : α → m β},
    Holds x → (∀ a, Holds (f a)) → Holds (x >>= f)
  holds_lookup : ∀ (name : String) (gates : List String), Holds (store.lookup name gates : m _)

/-- The computation does nothing but look up constants of a store. -/
inductive MadeOfLookups {m : Type → Type} [Monad m] [ConstantLookup m] (store : Store) :
    {α : Type} → m α → Prop where
  | pure {α : Type} (a : α) : MadeOfLookups store (Pure.pure a : m α)
  | bind {α β : Type} {x : m α} {f : α → m β} :
      MadeOfLookups store x → (∀ a, MadeOfLookups store (f a)) → MadeOfLookups store (x >>= f)
  | lookup (name : String) (gates : List String) :
      MadeOfLookups store (store.lookup name gates : m _)

namespace LookupProperty

/-- The least property of lookups. -/
def least (m : Type → Type) [Monad m] [ConstantLookup m] (store : Store) : LookupProperty m store :=
  ⟨MadeOfLookups store, .pure, .bind, .lookup⟩

variable {m : Type → Type} [Monad m] [ConstantLookup m] {store : Store} {α β : Type}

theorem holds_of_madeOfLookups (p : LookupProperty m store) {x : m α}
    (made : MadeOfLookups store x) : p.Holds x := by
  induction made with
  | pure a => exact p.holds_pure a
  | bind _ _ first next => exact p.holds_bind first next
  | lookup name gates => exact p.holds_lookup name gates

/-! ### Composed computations -/

section

variable {p : LookupProperty m store}

theorem Holds.pure (a : α) : p.Holds (Pure.pure a) :=
  p.holds_pure a

theorem Holds.bind {x : m α} {f : α → m β} (first : p.Holds x) (next : ∀ a, p.Holds (f a)) :
    p.Holds (x >>= f) :=
  p.holds_bind first next

theorem Holds.ite {c : Prop} [Decidable c] {x y : m α} (yes : p.Holds x) (no : p.Holds y) :
    p.Holds (if c then x else y) := by
  split
  · exact yes
  · exact no

theorem Holds.anyM {f : α → m Bool} (each : ∀ x, p.Holds (f x)) (xs : List α) :
    p.Holds (xs.anyM f) := by
  induction xs with
  | nil => exact .pure false
  | cons x xs ih =>
    refine .bind (each x) fun found => ?_
    cases found with
    | true => exact .pure true
    | false => exact ih

theorem Holds.allM {f : α → m Bool} (each : ∀ x, p.Holds (f x)) (xs : List α) :
    p.Holds (xs.allM f) := by
  induction xs with
  | nil => exact .pure true
  | cons x xs ih =>
    refine .bind (each x) fun holds => ?_
    cases holds with
    | true => exact ih
    | false => exact .pure false

variable [LawfulMonad m]

theorem Holds.map {x : m α} (f : α → β) (holds : p.Holds x) : p.Holds (f <$> x) := by
  rw [map_eq_pure_bind]
  exact .bind holds fun a => .pure (f a)

theorem Holds.mapM {f : α → m β} {xs : List α} (each : ∀ x ∈ xs, p.Holds (f x)) :
    p.Holds (xs.mapM f) := by
  induction xs with
  | nil => exact .pure []
  | cons x xs ih =>
    rw [List.mapM_cons]
    exact .bind (each x List.mem_cons_self) fun y =>
      .bind (ih fun x member => each x (List.mem_cons_of_mem _ member)) fun ys => .pure (y :: ys)

end

/-! ### Types and ancestors -/

variable (p : LookupProperty m store)

mutual

theorem holds_member {f : Member → m Ty} (each : ∀ x, p.Holds (f x)) :
    (x : Member) → p.Holds (x.rebuildM f)
  | ⟨name, marked, kind, keys, subs⟩ => by
    rw [Member.rebuildM]
    exact .ite (each _) (.bind (holds_tys each keys) fun _ =>
      .bind (holds_tys each subs) fun _ => each _)

theorem holds_ty {f : Member → m Ty} (each : ∀ x, p.Holds (f x)) :
    (t : Ty) → p.Holds (t.rebuildM f)
  | ⟨first, rest⟩ => by
    rw [Ty.rebuildM]
    exact .bind (holds_member each first) fun _ => .bind (holds_members each rest) fun _ =>
      .pure _

theorem holds_members {f : Member → m Ty} (each : ∀ x, p.Holds (f x)) :
    (xs : List Member) → p.Holds (Member.rebuildListM f xs)
  | [] => .pure []
  | x :: xs => .bind (holds_member each x) fun _ => .bind (holds_members each xs) fun _ => .pure _

theorem holds_tys {f : Member → m Ty} (each : ∀ x, p.Holds (f x)) :
    (ts : List Ty) → p.Holds (Ty.rebuildListM f ts)
  | [] => .pure []
  | t :: ts => .bind (holds_ty each t) fun _ => .bind (holds_tys each ts) fun _ => .pure _

end

theorem holds_qualify (gates : List String) (t : Ty) : p.Holds (store.qualify gates t) := by
  refine p.holds_ty
    (fun x => .ite (.bind (p.holds_lookup x.name gates) fun found => ?_) (.pure _)) t
  cases found <;> exact .pure _

theorem holds_targetOf (edge : Pin) : p.Holds (store.targetOf edge) :=
  .ite (p.holds_lookup _ _) (.pure none)

theorem holds_follow (source : Frame) (edge : Pin) (scope : Scope) :
    p.Holds (store.follow source edge scope) := by
  refine .bind (p.holds_targetOf edge) fun target => ?_
  cases target <;> exact .pure _

theorem holds_superclassOf (frame : Frame) (scope : Scope) :
    p.Holds (store.superclassOf frame scope) := by
  unfold Store.superclassOf
  split
  · exact p.holds_follow frame _ scope
  · exact .pure _

variable [LawfulMonad m]

theorem holds_visibleConstants (space : String) : p.Holds (store.visibleConstants space) :=
  .bind (.bind (.mapM fun edge _ => p.holds_targetOf edge) fun _ => .pure _) fun _ => .pure _

theorem holds_followAll (source : Frame) (kind : EdgeKind) :
    p.Holds (store.followAll source kind) :=
  .bind (.mapM fun edge _ => p.holds_follow source edge _) fun _ => .pure _

theorem holds_expansion (frame : Frame) : p.Holds (store.expansion frame) := by
  unfold Store.expansion
  split
  · exact .bind (p.holds_followAll frame _) fun _ =>
      .bind (p.holds_superclassOf frame _) fun _ =>
        .bind (p.holds_followAll frame _) fun _ => .pure _
  · exact .bind (p.holds_superclassOf frame _) fun _ =>
      .bind (p.holds_followAll frame _) fun _ => .pure _

theorem holds_workOff (pending : List (String × Scope)) (stack : List SearchStep) :
    p.Holds (store.workOff pending stack) := by
  induction pending, stack using Store.workOff.induct with
  | case1 pending =>
    rw [Store.workOff]
    exact .pure []
  | case2 pending frame stack ih =>
    rw [Store.workOff]
    exact .bind ih fun _ => .pure _
  | case3 pending frame stack new ih =>
    rw [Store.workOff, dif_pos new]
    exact .bind (p.holds_expansion frame) ih
  | case4 pending frame stack known ih =>
    rw [Store.workOff, dif_neg known]
    exact ih

theorem holds_search (start : Frame) : p.Holds (store.search start) :=
  p.holds_workOff _ _

theorem holds_methodsNamed (receiver : Member) (name : String) :
    p.Holds (store.methodsNamed receiver name) :=
  .bind (p.holds_search _) fun _ => .pure _

theorem holds_nearestMethods (space : String) (scope : Scope) :
    p.Holds (store.nearestMethods space scope) :=
  .bind (p.holds_search _) fun _ => .pure _

theorem holds_isAncestorOrSelf (super sub : String) : p.Holds (store.isAncestorOrSelf super sub) :=
  .ite (.pure true) (.bind (p.holds_search _) fun _ => .pure _)

end LookupProperty

end DuckInfer
