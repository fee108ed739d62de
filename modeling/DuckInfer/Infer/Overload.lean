import DuckInfer.Store.Methods

/-!
Choosing among the overloads of a method. An overload fits a call if it takes the number of
arguments and the block, and if no argument is known to be of a wrong type.
-/

namespace DuckInfer

/-- An argument that its parameter does not take. -/
structure WrongArgument where
  index : Nat
  expected : Ty
  actual : Ty

/-- How a call fits the overloads of a method. -/
inductive OverloadOutcome where
  /-- an overload fits -/
  | matched (signature : Signature)
  /-- no overload takes as many arguments, or the block -/
  | arity
  /-- the first overload that takes as many arguments does not take one of them -/
  | argument (mismatch : WrongArgument)

namespace Overload

/-- The overloads of a method, those that take a block first. -/
def ordered (pin : Pin) : List Signature :=
  pin.signatures.filter Signature.takesBlock ++ pin.signatures.filter (!·.takesBlock)

variable {m : Type → Type} [Monad m] [ConstantLookup m]

/-- A member of an argument's type is named by a member of the parameter's type or descends from
it. -/
def acceptsMember (store : Store) (param arg : Member) : m Bool :=
  if param.name == arg.name then return true else store.isAncestorOrSelf param.space arg.space

/-- Every member of an argument's type is accepted by some member of the parameter's type. -/
def accepts (store : Store) (expected actual : Ty) : m Bool :=
  actual.members.allM fun arg =>
    expected.members.anyM fun param => acceptsMember store param arg

/-- What is wrong with one argument. Nothing known on either side is never wrong. -/
def wrongArgument? (store : Store) (gates : List String) (signature : Signature) (index : Nat)
    (actual : Ty) : m (Option WrongArgument) := do
  match signature.paramFor? index with
  | none => return some ⟨index, .undefined, actual⟩
  | some param =>
    if param.ty.isUndefined || param.ty.isGeneric || actual.isUndefined then return none
    else
      let expected ← store.qualify gates param.ty
      if ← accepts store expected actual then return none
      else return some ⟨index, expected, actual⟩

/-- The first wrong argument, of those from a place on. -/
def firstWrong? (store : Store) (gates : List String) (signature : Signature) (index : Nat) :
    List Ty → m (Option WrongArgument)
  | [] => return none
  | actual :: args => do
    match ← wrongArgument? store gates signature index actual with
    | some mismatch => return some mismatch
    | none => firstWrong? store gates signature (index + 1) args

/-- The first wrong argument of a call. -/
def mismatch? (store : Store) (pin : Pin) (signature : Signature) (args : List Ty) :
    m (Option WrongArgument) :=
  firstWrong? store pin.gates signature 0 args

/-- The outcome for several overloads, given the one for those before. -/
def selectFrom (store : Store) (pin : Pin) (withBlock : Bool) (args : List Ty)
    (outcome : OverloadOutcome) : List Signature → m OverloadOutcome
  | [] => return outcome
  | signature :: signatures => do
    if signature.accepts args.length withBlock then
      match ← mismatch? store pin signature args with
      | none => return .matched signature
      | some mismatch =>
        let outcome := match outcome with
          | .arity => .argument mismatch
          | outcome => outcome
        selectFrom store pin withBlock args outcome signatures
    else selectFrom store pin withBlock args outcome signatures

/-- How a call fits a method; a method without overloads gives no answer. -/
def select? (store : Store) (pin : Pin) (withBlock : Bool) (args : List Ty) :
    m (Option OverloadOutcome) :=
  match ordered pin with
  | [] => return none
  | signatures => some <$> selectFrom store pin withBlock args .arity signatures

end Overload

end DuckInfer
