import DuckInfer.Proofs.Infer.Lookups
import DuckInfer.Proofs.Store.Memory

/-!
Asking again. Lookups of constants may be remembered, so that what is asked first can decide what is
answered later. Main statement: what a steady computation was found to answer it answers again at
any later time, and adds nothing to the memory. Everything that is made of lookups is steady.
-/

namespace DuckInfer

/-- The other memory holds all the answers of the memory. -/
def Memo.Within (memo other : Memo) : Prop :=
  ∀ name gates answer, memo.find? name gates = some answer → other.find? name gates = some answer

/-- A way to run computations in which a lookup that was made once is answered alike from then on.
`Later s t` says that what is known in `s` is still known in `t`. -/
structure SteadyRunner (m : Type → Type) [Monad m] [ConstantLookup m] (σ : Type) extends
    Runner m σ where
  run_pure : ∀ {α : Type} (a : α) (s : σ), run (pure a) s = (a, s)
  Later : σ → σ → Prop
  later_refl : ∀ s, Later s s
  later_trans : ∀ {s t u : σ}, Later s t → Later t u → Later s u
  later_lookup : ∀ (store : Store) (name : String) (gates : List String) (s : σ),
    Later s (run (store.lookup name gates) s).2
  lookup_again : ∀ (store : Store) (name : String) (gates : List String) (s t : σ),
    Later (run (store.lookup name gates) s).2 t →
      run (store.lookup name gates) t = ((run (store.lookup name gates) s).1, t)

namespace SteadyRunner

/-! ### The two ways of lookup -/

/-- Constants are looked up without memory. -/
def plain : SteadyRunner Id Unit :=
  { Runner.plain with
    run_pure := fun _ _ => rfl
    Later := fun _ _ => True
    later_refl := fun _ => trivial
    later_trans := fun _ _ => trivial
    later_lookup := fun _ _ _ _ => trivial
    lookup_again := fun _ _ _ _ _ _ => rfl }

theorem within_lookup (store : Store) (name : String) (gates : List String) (memo : Memo) :
    memo.Within (memo.lookup store name gates).2 := by
  intro other others answer kept
  unfold Memo.lookup
  cases found : memo.find? name gates with
  | some known => exact kept
  | none =>
    show (memo.keep name gates _).find? other others = some answer
    have different : (Memo.key other others == Memo.key name gates) = false := by
      rw [← Bool.not_eq_true, beq_iff_eq]
      intro same
      rw [Memo.find?, same] at kept
      exact absurd (found.symm.trans kept) (by simp)
    rw [Memo.find?_keep, different]
    exact kept

theorem lookup_within (store : Store) (name : String) (gates : List String) {memo later : Memo}
    (within : (memo.lookup store name gates).2.Within later) :
    later.lookup store name gates = ((memo.lookup store name gates).1, later) := by
  have kept : (memo.lookup store name gates).2.find? name gates =
      some (memo.lookup store name gates).1 := by
    unfold Memo.lookup
    cases found : memo.find? name gates with
    | some known => exact found
    | none => simp [Memo.find?_keep]
  rw [Memo.lookup, within name gates _ kept]

/-- Constants are looked up with memory. -/
def remembering : SteadyRunner (StateM Memo) Memo :=
  { Runner.remembering with
    run_pure := fun _ _ => rfl
    Later := Memo.Within
    later_refl := fun _ _ _ _ kept => kept
    later_trans := fun within within' name gates answer kept =>
      within' name gates answer (within name gates answer kept)
    later_lookup := fun store name gates memo => within_lookup store name gates memo
    lookup_again := fun store name gates _ _ within => lookup_within store name gates within }

/-! ### Steady computations -/

/-- Running the computation leads to a later state, and in all states after that it gives the same
answer and changes nothing. -/
structure Steady {m : Type → Type} [Monad m] [ConstantLookup m] {σ α : Type}
    (r : SteadyRunner m σ) (x : m α) : Prop where
  later : ∀ s, r.Later s (r.run x s).2
  again : ∀ s t, r.Later (r.run x s).2 t → r.run x t = ((r.run x s).1, t)

section

variable {m : Type → Type} [Monad m] [ConstantLookup m] {σ α β : Type} {r : SteadyRunner m σ}

theorem Steady.pure (a : α) : r.Steady (pure a) where
  later s := by
    rw [r.run_pure]
    exact r.later_refl s
  again s t _ := by rw [r.run_pure, r.run_pure]

theorem Steady.bind {x : m α} {f : α → m β} (first : r.Steady x) (next : ∀ a, r.Steady (f a)) :
    r.Steady (x >>= f) where
  later s := by
    rw [r.run_bind]
    exact r.later_trans (first.later s) ((next _).later _)
  again s t after := by
    rw [r.run_bind] at after ⊢
    rw [r.run_bind, first.again s t (r.later_trans ((next _).later _) after)]
    exact (next _).again _ t after

theorem Steady.ite {c : Prop} [Decidable c] {x y : m α} (yes : r.Steady x) (no : r.Steady y) :
    r.Steady (if c then x else y) := by
  split
  · exact yes
  · exact no

theorem Steady.lookup (store : Store) (name : String) (gates : List String) :
    r.Steady (store.lookup name gates) :=
  ⟨r.later_lookup store name gates, r.lookup_again store name gates⟩

variable [LawfulMonad m]

theorem Steady.mapM {f : α → m β} {xs : List α} (each : ∀ x ∈ xs, r.Steady (f x)) :
    r.Steady (xs.mapM f) := by
  induction xs with
  | nil => exact .pure []
  | cons x xs ih =>
    rw [List.mapM_cons]
    exact .bind (each x List.mem_cons_self) fun y =>
      .bind (ih fun x member => each x (List.mem_cons_of_mem _ member)) fun ys => .pure (y :: ys)

end

/-! ### What was found -/

/-- The computation was run some time before the state, and its answer was `a`. -/
def Found {m : Type → Type} [Monad m] [ConstantLookup m] {σ α : Type} (r : SteadyRunner m σ) (s : σ)
    (x : m α) (a : α) : Prop :=
  ∃ t, (r.run x t).1 = a ∧ r.Later (r.run x t).2 s

section

variable {m : Type → Type} [Monad m] [ConstantLookup m] {σ α β : Type} {r : SteadyRunner m σ}
  {s t : σ} {x : m α} {a b : α}

theorem found_run (x : m α) (s : σ) : r.Found (r.run x s).2 x (r.run x s).1 :=
  ⟨s, rfl, r.later_refl _⟩

theorem Found.mono (found : r.Found s x a) (later : r.Later s t) : r.Found t x a := by
  obtain ⟨u, answer, before⟩ := found
  exact ⟨u, answer, r.later_trans before later⟩

/-- What was found once is found again, and nothing changes. -/
theorem Steady.found_iff (steady : r.Steady x) : r.Found s x a ↔ r.run x s = (a, s) := by
  constructor
  · rintro ⟨t, rfl, before⟩
    exact steady.again t s before
  · intro again
    refine ⟨s, congrArg Prod.fst again, ?_⟩
    rw [again]
    exact r.later_refl s

theorem Steady.unique (steady : r.Steady x) (found : r.Found s x a) (found' : r.Found s x b) :
    a = b := by
  rw [steady.found_iff] at found found'
  exact congrArg Prod.fst (found.symm.trans found')

theorem Found.of_pure (found : r.Found s (Pure.pure a : m α) b) : a = b := by
  obtain ⟨t, answer, -⟩ := found
  rwa [r.run_pure] at answer

/-- What was found in two steps was found in each of them. -/
theorem Found.of_bind {f : α → m β} {c : β} (next : ∀ a, r.Steady (f a))
    (found : r.Found s (x >>= f) c) : ∃ a, r.Found s x a ∧ r.Found s (f a) c := by
  obtain ⟨t, answer, before⟩ := found
  rw [r.run_bind] at answer before
  exact ⟨(r.run x t).1, ⟨t, rfl, r.later_trans ((next _).later _) before⟩, _, answer, before⟩

/-- Two steps that were found were found one after the other. -/
theorem Found.bind {f : α → m β} {c : β} (steady : r.Steady x) (next : ∀ a, r.Steady (f a))
    (first : r.Found s x a) (second : r.Found s (f a) c) : r.Found s (x >>= f) c := by
  rw [(steady.bind next).found_iff, r.run_bind, steady.found_iff.mp first]
  exact (next a).found_iff.mp second

theorem Found.of_map [LawfulMonad m] {f : α → β} {c : β} (found : r.Found s (f <$> x) c) :
    ∃ a, r.Found s x a ∧ f a = c := by
  rw [map_eq_pure_bind] at found
  obtain ⟨a, found, last⟩ := found.of_bind fun _ => .pure _
  exact ⟨a, found, last.of_pure⟩

/-- What was found by going through a list was found for each element. -/
theorem Found.of_mapM [LawfulMonad m] {f : α → m β} {xs : List α} {ys : List β}
    (each : ∀ x, r.Steady (f x)) (found : r.Found s (xs.mapM f) ys) :
    List.Forall₂ (fun x y => r.Found s (f x) y) xs ys := by
  induction xs generalizing ys with
  | nil =>
    obtain rfl := found.of_pure
    exact .nil
  | cons x xs ih =>
    rw [List.mapM_cons] at found
    obtain ⟨y, first, found⟩ := found.of_bind fun y =>
      .bind (.mapM fun x _ => each x) fun ys => .pure (y :: ys)
    obtain ⟨rest, later, whole⟩ := found.of_bind fun _ => .pure _
    obtain rfl := whole.of_pure
    exact .cons first (ih later)

end

/-! ### Queries -/

/-- Steadiness as a property that lookups have. -/
def lookups {m : Type → Type} [Monad m] [ConstantLookup m] {σ : Type} (r : SteadyRunner m σ)
    (store : Store) : LookupProperty m store :=
  ⟨r.Steady, .pure, .bind, .lookup store⟩

section

variable {m : Type → Type} [Monad m] [ConstantLookup m] {σ : Type} (r : SteadyRunner m σ)

theorem steady_members {f : Member → m Ty} (each : ∀ x, r.Steady (f x)) (xs : List Member) :
    r.Steady (Member.rebuildListM f xs) :=
  (r.lookups .empty).holds_members each xs

theorem steady_tys {f : Member → m Ty} (each : ∀ x, r.Steady (f x)) (ts : List Ty) :
    r.Steady (Ty.rebuildListM f ts) :=
  (r.lookups .empty).holds_tys each ts

theorem steady_qualify (store : Store) (gates : List String) (t : Ty) :
    r.Steady (store.qualify gates t) :=
  (r.lookups store).holds_qualify gates t

variable [LawfulMonad m]

theorem steady_methodsNamed (store : Store) (receiver : Member) (name : String) :
    r.Steady (store.methodsNamed receiver name) :=
  (r.lookups store).holds_methodsNamed receiver name

omit [LawfulMonad m] in
variable {r} in
/-- The methods of a name that were found are those of the frames that were found. -/
theorem found_methodsNamed {s : σ} {store : Store} {receiver : Member} {name : String}
    {stack : List Pin} (found : r.Found s (store.methodsNamed receiver name) stack) :
    ∃ frames, r.Found s (store.receiverAncestors receiver) frames ∧
      stack = frames.flatMap (store.frameMethods name) := by
  obtain ⟨frames, searched, listed⟩ := found.of_bind fun _ => .pure _
  exact ⟨frames, searched, listed.of_pure.symm⟩

variable {r} in
/-- Methods need no further lookups once the frames were found. -/
theorem found_methodsNamed_of_found {s : σ} {store : Store} {receiver : Member} {name : String}
    {frames : List Frame} (searched : r.Found s (store.receiverAncestors receiver) frames) :
    r.Found s (store.methodsNamed receiver name) (frames.flatMap (store.frameMethods name)) := by
  have steady : r.Steady (store.receiverAncestors receiver) := (r.lookups store).holds_search _
  rw [(r.steady_methodsNamed store receiver name).found_iff]
  unfold Store.methodsNamed
  rw [r.run_bind, steady.found_iff.mp searched, r.run_pure]

theorem steady_accepts (store : Store) (expected actual : Ty) :
    r.Steady (Overload.accepts store expected actual) :=
  (r.lookups store).holds_accepts expected actual

theorem steady_wrongArgument? (store : Store) (gates : List String) (signature : Signature)
    (index : Nat) (actual : Ty) :
    r.Steady (Overload.wrongArgument? store gates signature index actual) :=
  (r.lookups store).holds_wrongArgument? gates signature index actual

theorem steady_firstWrong? (store : Store) (gates : List String) (signature : Signature)
    (index : Nat) (args : List Ty) :
    r.Steady (Overload.firstWrong? store gates signature index args) :=
  (r.lookups store).holds_firstWrong? gates signature index args

theorem steady_mismatch? (store : Store) (pin : Pin) (signature : Signature) (args : List Ty) :
    r.Steady (Overload.mismatch? store pin signature args) :=
  (r.lookups store).holds_mismatch? pin signature args

theorem steady_selectFrom (store : Store) (pin : Pin) (withBlock : Bool) (args : List Ty)
    (outcome : OverloadOutcome) (signatures : List Signature) :
    r.Steady (Overload.selectFrom store pin withBlock args outcome signatures) :=
  (r.lookups store).holds_selectFrom pin withBlock args outcome signatures

theorem steady_select? (store : Store) (pin : Pin) (withBlock : Bool) (args : List Ty) :
    r.Steady (Overload.select? store pin withBlock args) :=
  (r.lookups store).holds_select? pin withBlock args

/-! ### Calls and chains -/

section

variable {site : CallSite m} (store : Store) (cx : LinkSite) (context : Ty)
  (block : ∀ scope, r.Steady (site.blockTy scope))
include block

theorem steady_knownBlockTy (signature : Signature) :
    r.Steady (site.knownBlockTy store cx signature context) :=
  (r.lookups store).holds_knownBlockTy cx context block signature

theorem steady_answerFrom (args : List Ty) (pin : Pin) (last : Option (Signature × Ty))
    (signatures : List Signature) :
    r.Steady (site.answerFrom store cx context args pin last signatures) :=
  (r.lookups store).holds_answerFrom cx context block args pin last signatures

theorem steady_inferPin (args : List Ty) (pin : Pin) :
    r.Steady (site.inferPin store cx context args pin) :=
  (r.lookups store).holds_inferPin cx context block args pin

variable (arguments : r.Steady site.argTys)
include arguments

theorem steady_inferPins (pins : List Pin) :
    r.Steady (site.inferPins store cx context pins) :=
  (r.lookups store).holds_inferPins cx context block arguments pins

theorem steady_resolve : r.Steady (site.resolve store cx) :=
  (r.lookups store).holds_resolve cx block arguments

end

section

variable {typeOf : Pin → List Pin → m Ty} (each : ∀ pin locals, r.Steady (typeOf pin locals))
include each

theorem steady_unionOfPins (pins locals : List Pin) : r.Steady (unionOfPins typeOf pins locals) :=
  (r.lookups .empty).holds_unionOfPins each pins locals

theorem steady_receiverTy (nullable : Bool) (pins locals : List Pin) :
    r.Steady (receiverTy typeOf nullable pins locals) :=
  (r.lookups .empty).holds_receiverTy each nullable pins locals

theorem steady_chainTy (nullable : Bool) (pins locals : List Pin) :
    r.Steady (chainTy typeOf nullable pins locals) :=
  (r.lookups .empty).holds_chainTy each nullable pins locals

end

theorem steady_inferEach {infer : Chain → m Ty} (each : ∀ chain, r.Steady (infer chain))
    (chains : List Chain) : r.Steady (inferEach infer chains) :=
  (r.lookups .empty).holds_inferEach each chains

end

end SteadyRunner

end DuckInfer
