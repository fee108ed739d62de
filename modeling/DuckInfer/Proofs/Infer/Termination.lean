import DuckInfer.Proofs.Infer.Circles
import DuckInfer.Proofs.Infer.Recursion

/-!
Inference ends. Main statement: whatever is asked, only queries that precede it are made; the
analyzers' answers are the only ones that fit the recursion; they are found within finitely many
nested queries; and locals that are assigned to each other in a ring have no known type.
-/

namespace DuckInfer

/-! ### Programs that make smaller queries -/

section

variable {m : Type → Type} [Monad m] {p : Nat × Query} {α : Type} {e : Answers m → m α}

/-- Answers to queries that come later do not matter. -/
theorem CallsBelow.congr (below : CallsBelow p e) {calls calls' : Answers m}
    (same : ∀ budget q, Precedes (budget, q) p → calls budget q = calls' budget q) :
    e calls = e calls' := by
  induction below with
  | none x => rfl
  | one budget q precedes => exact same budget q precedes
  | bind _ _ ih ih' =>
    simp only [ih, ih']

/-- A way to run computations from a state, one after the other. -/
structure Runner (m : Type → Type) [Monad m] (σ : Type) where
  run : {α : Type} → m α → σ → α × σ
  run_bind : ∀ {α β : Type} (x : m α) (f : α → m β) (s : σ),
    run (x >>= f) s = run (f (run x s).1) (run x s).2

/-- Constants are looked up without memory. -/
def Runner.plain : Runner Id Unit :=
  ⟨fun x s => (x, s), fun _ _ _ => rfl⟩

/-- Constants are looked up with memory. -/
def Runner.remembering : Runner (StateM Memo) Memo :=
  ⟨fun x memo => x.run memo, fun _ _ _ => rfl⟩

/-- From each state only finitely many queries are made. -/
theorem CallsBelow.finite {σ : Type} (runner : Runner m σ) (below : CallsBelow p e)
    (calls : Answers m) (s : σ) :
    ∃ asked : List ((Nat × Query) × σ), (∀ a ∈ asked, Precedes a.1 p) ∧
      ∀ calls' : Answers m,
        (∀ a ∈ asked, runner.run (calls' a.1.1 a.1.2) a.2 = runner.run (calls a.1.1 a.1.2) a.2) →
        runner.run (e calls') s = runner.run (e calls) s := by
  induction below generalizing s with
  | none x => exact ⟨[], by simp, fun _ _ => rfl⟩
  | one budget q precedes =>
    exact ⟨[((budget, q), s)], by simpa using precedes,
      fun calls' same => same _ List.mem_cons_self⟩
  | @bind _ _ e f _ _ ih ih' =>
    obtain ⟨first, firstBelow, firstSame⟩ := ih s
    obtain ⟨more, moreBelow, moreSame⟩ :=
      ih' (runner.run (e calls) s).1 (runner.run (e calls) s).2
    refine ⟨first ++ more, List.forall_mem_append.mpr ⟨firstBelow, moreBelow⟩,
      fun calls' same => ?_⟩
    obtain ⟨same, same'⟩ := List.forall_mem_append.mp same
    rw [runner.run_bind, runner.run_bind, firstSame calls' same, moreSame calls' same']

end

/-! ### The analyzers -/

section

variable {m : Type → Type} [Monad m] [ConstantLookup m]

/-- The recursion cut off: queries nested deeper than `depth` are answered by `beyond`. -/
def Analyzer.nested (store : Store) (beyond : Answers m) : Nat → Answers m
  | 0 => beyond
  | depth + 1 => fun budget q => q.answer store (Analyzer.nested store beyond depth) budget

variable [LawfulMonad m] (store : Store)

/-- Answers that fit the recursion are those of the analyzers. -/
theorem Analyzer.answers_unique {calls : Answers m}
    (fits : ∀ budget q, q.answer store calls budget = calls budget q) (p : Nat × Query) :
    calls p.1 p.2 = Analyzer.answers store p.1 p.2 := by
  induction p using wellFounded_precedes.induction with
  | _ p ih =>
    rw [← fits, ← Analyzer.answers_eq]
    exact (callsBelow_answer store p.1 p.2).congr fun budget q precedes => ih (budget, q) precedes

/-- From each state an answer is found within some depth, whatever stands in for deeper queries. -/
theorem Analyzer.exists_depth {σ : Type} (runner : Runner m σ) (p : Nat × Query) (s : σ) :
    ∃ depth, ∀ more ≥ depth, ∀ beyond : Answers m,
      runner.run (Analyzer.nested store beyond more p.1 p.2) s =
        runner.run (Analyzer.answers store p.1 p.2) s := by
  induction p using wellFounded_precedes.induction generalizing s with
  | _ p ih =>
    obtain ⟨asked, below, same⟩ :=
      (callsBelow_answer store p.1 p.2).finite runner (Analyzer.answers store) s
    -- the queries that are really made are finitely many, so one depth is enough for all of them
    have depths : ∃ depth, ∀ a ∈ asked, ∀ more ≥ depth, ∀ beyond : Answers m,
        runner.run (Analyzer.nested store beyond more a.1.1 a.1.2) a.2 =
          runner.run (Analyzer.answers store a.1.1 a.1.2) a.2 := by
      clear same
      induction asked with
      | nil => exact ⟨0, by simp⟩
      | cons a asked ihAsked =>
        obtain ⟨precedes, below⟩ := List.forall_mem_cons.mp below
        obtain ⟨depth, reached⟩ := ih a.1 precedes a.2
        obtain ⟨depth', reached'⟩ := ihAsked below
        refine ⟨max depth depth', List.forall_mem_cons.mpr ⟨fun more deep => ?_, ?_⟩⟩
        · exact reached more (by omega)
        · exact fun a listed more deep => reached' a listed more (by omega)
    obtain ⟨depth, reached⟩ := depths
    refine ⟨depth + 1, fun more deep beyond => ?_⟩
    obtain ⟨more, rfl⟩ : ∃ k, more = k + 1 := ⟨more - 1, by omega⟩
    rw [← Analyzer.answers_eq]
    exact same _ fun a listed => reached a listed more (by omega) beyond

/-- Inference is a recursion that ends for every store, budget and query: only queries that precede
the one asked are made, no answers but the analyzers' fit the recursion, and they are found within
some depth. Locals in a ring have no known type, whatever the budget. -/
theorem Analyzer.terminates {σ : Type} (runner : Runner m σ) :
    WellFounded Precedes ∧
    (∀ budget q, CallsBelow (budget, q) fun calls : Answers m => q.answer store calls budget) ∧
    (∀ calls : Answers m, (∀ budget q, q.answer store calls budget = calls budget q) ↔
      calls = Analyzer.answers store) ∧
    (∀ budget q s, ∃ depth, ∀ more ≥ depth, ∀ beyond : Answers m,
      runner.run (Analyzer.nested store beyond more budget q) s =
        runner.run (Analyzer.answers store budget q) s) ∧
    ∀ {n : Nat} {locals : List Pin} {ring : Fin (n + 1) → Pin}, IsRing locals ring →
      ∀ budget i, Analyzer.typeOf (m := m) ⟨store, budget⟩ (ring i) locals = pure .undefined ∧
        ∀ chain : Chain, chain.IsWord (ring i).name → ∀ lexical,
          Analyzer.infer (m := m) ⟨store, budget⟩ chain lexical locals = pure .undefined := by
  refine ⟨wellFounded_precedes, callsBelow_answer store, fun calls => ⟨fun fits => ?_, ?_⟩,
    fun budget q s => Analyzer.exists_depth store runner (budget, q) s, ?_⟩
  · funext budget q
    exact Analyzer.answers_unique store fits (budget, q)
  · rintro rfl
    exact Analyzer.answers_eq store
  · intro n locals ring isRing budget i
    have unknown := isRing.circular.typeWithin_undefined (m := m) store budget
    refine ⟨unknown (ring i) (isRing.mem i) ⟨i, rfl⟩, fun chain isWord lexical => ?_⟩
    exact isRing.circular.inferWith_undefined store unknown ⟨i, rfl⟩ isWord lexical

end

/-- The locals `a = b` and `b = a`. -/
def Pin.mutual : Fin 2 → Pin
  | 0 => .make "a" none (.variable .localVar ⟨none, some (.word "b"), none, false⟩)
  | 1 => .make "b" none (.variable .localVar ⟨none, some (.word "a"), none, false⟩)

theorem Analyzer.terminates_mutual :
    IsRing [Pin.mutual 0, Pin.mutual 1] Pin.mutual ∧
      Analyzer.infer ⟨.empty, 3⟩ (.word "a") .root [Pin.mutual 0, Pin.mutual 1] =
        (pure .undefined : StateM Memo Ty) ∧
      Analyzer.infer ⟨.empty, 3⟩ (.word "b") .root [Pin.mutual 0, Pin.mutual 1] =
        (pure .undefined : Id Ty) := by
  have isRing : IsRing [Pin.mutual 0, Pin.mutual 1] Pin.mutual :=
    { word := by decide
      mem := by
        intro i
        match i with
        | 0 => exact List.mem_cons_self
        | 1 => exact List.mem_cons_of_mem _ List.mem_cons_self
      only := by
        intro pin member i same
        have either : pin = Pin.mutual 0 ∨ pin = Pin.mutual 1 := by simpa using member
        rcases either with rfl | rfl
        · match i with
          | 0 => rfl
          | 1 => exact absurd same (by decide)
        · match i with
          | 0 => exact absurd same (by decide)
          | 1 => rfl
      assigned := by
        intro i
        match i with
        | 0 => exact ⟨.word "b", ⟨⟨none, false, rfl⟩, rfl, rfl⟩, none, rfl⟩
        | 1 => exact ⟨.word "a", ⟨⟨none, false, rfl⟩, rfl, rfl⟩, none, rfl⟩ }
  obtain ⟨-, -, -, -, unknown⟩ := Analyzer.terminates .empty Runner.remembering
  obtain ⟨-, -, -, -, unknown'⟩ := Analyzer.terminates .empty Runner.plain
  exact ⟨isRing, (unknown isRing 3 0).2 (.word "a") ⟨none, rfl⟩ .root,
    (unknown' isRing 3 1).2 (.word "b") ⟨none, rfl⟩ .root⟩

end DuckInfer
