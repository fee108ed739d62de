import DuckInfer.Infer.Candidates

/-!
Resolution with a budget: how many assignments and block receivers may be followed, one inside the
other, while one expression is resolved.
-/

namespace DuckInfer

/-- The store, and how many assignments and block receivers may be followed. -/
structure Analyzer where
  store : Store
  budget : Nat

namespace Analyzer

/-- The budget where nothing else is asked for. -/
def defaultBudget : Nat :=
  8

section

variable {m : Type → Type} [Monad m] [ConstantLookup m]

/-- The type that a pin evaluates to, with a budget to follow other chains. -/
def typeWithin (store : Store) : Nat → Pin → List Pin → m Ty
  | 0, pin, locals => typeOfWith store none pin locals
  | budget + 1, pin, locals =>
    typeOfWith store
      (some
        { candidates := fun chain lexical locals =>
            candidatesWith store (typeWithin store budget) chain lexical locals
          infer := fun chain lexical locals =>
            inferWith store (typeWithin store budget) chain lexical locals })
      pin locals

/-- The type that a pin evaluates to. -/
def typeOf (r : Analyzer) (pin : Pin) (locals : List Pin) : m Ty :=
  typeWithin r.store r.budget pin locals

/-- What a chain may refer to. -/
def candidates (r : Analyzer) (chain : Chain) (lexical : Pin) (locals : List Pin) : m (List Pin) :=
  candidatesWith r.store r.typeOf chain lexical locals

/-- The type of a chain. -/
def infer (r : Analyzer) (chain : Chain) (lexical : Pin) (locals : List Pin) : m Ty :=
  inferWith r.store r.typeOf chain lexical locals

/-- The union of what several pins evaluate to. -/
def inferPins (r : Analyzer) (pins locals : List Pin) : m Ty :=
  unionOfPins r.typeOf pins locals

end

end Analyzer

end DuckInfer
