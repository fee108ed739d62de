import DuckInfer.Ty.Unify

/-!
Signatures: one overload of a callable, with generic names, parameters, a return type and possibly
the signature of a block. The block shares the generic names of the callable.
-/

namespace DuckInfer

/-- How a parameter is declared. -/
inductive ParamForm where
  /-- `x` -/
  | required
  /-- `x = 1` -/
  | optional
  /-- `*x` -/
  | rest
  /-- `x:` -/
  | keyRequired
  /-- `x: 1` -/
  | keyOptional
  /-- `**x` -/
  | keyRest
  /-- `&x` -/
  | block
  deriving DecidableEq, Repr

structure Parameter where
  name : String
  form : ParamForm
  ty : Ty
  deriving BEq

namespace Parameter

/-- Arguments land in the parameter by their place. -/
def isPositional (p : Parameter) : Bool :=
  match p.form with
  | .required | .optional | .rest => true
  | _ => false

def text (p : Parameter) : String :=
  match p.form with
  | .required => p.ty.tag ++ " " ++ p.name
  | .optional => "?" ++ p.ty.tag ++ " " ++ p.name
  | .rest => "*" ++ p.ty.tag ++ " " ++ p.name
  | .keyRequired => p.name ++ ": " ++ p.ty.tag
  | .keyOptional => "?" ++ p.name ++ ": " ++ p.ty.tag
  | .keyRest => "**" ++ p.ty.tag ++ " " ++ p.name
  | .block => "&" ++ p.ty.tag ++ " " ++ p.name

/-- Changes the type of a parameter. -/
def mapTy (f : Ty → Ty) (p : Parameter) : Parameter :=
  { p with ty := f p.ty }

end Parameter

/-- One overload of a callable. -/
structure Signature where
  generics : List String
  params : List Parameter
  returns : Ty
  block : Option Signature

namespace Signature

/-- A signature without parameters. -/
def returning (t : Ty) : Signature :=
  ⟨[], [], t, none⟩

/-- Written form of a signature. Block parameters are shown by the block only. -/
def text : Signature → String
  | ⟨generics, params, returns, block⟩ =>
    (if generics.isEmpty then "" else "[" ++ ", ".intercalate generics ++ "] ") ++
      "(" ++ ", ".intercalate ((params.filter (·.form != .block)).map Parameter.text) ++ ")" ++
      (match block with
        | none => ""
        | some block => " \x7b " ++ block.text ++ " \x7d") ++
      " -> " ++ returns.tag
termination_by structural s => s

/-- The signatures are equal, with types compared by tag. -/
def same : Signature → Signature → Bool
  | ⟨generics, params, returns, block⟩, other =>
    generics == other.generics && params == other.params && returns == other.returns &&
      match block, other.block with
      | none, none => true
      | some block, some other => block.same other
      | _, _ => false
termination_by structural s => s

instance : BEq Signature := ⟨Signature.same⟩

/-! ### Arity -/

def takesBlock (s : Signature) : Bool :=
  s.block.isSome

/-- The callable takes any number of arguments. -/
def isVariadic (s : Signature) : Bool :=
  s.params.any (·.form == .rest)

/-- Number of arguments that a call must pass. -/
def minArgs (s : Signature) : Nat :=
  s.params.countP (·.form == .required)

/-- Number of arguments that a call may pass beyond the required ones. -/
def extraArgs (s : Signature) : Nat :=
  s.params.countP (·.form == .optional)

/-- The parameters that arguments land in by their place. -/
def positional (s : Signature) : List Parameter :=
  s.params.filter Parameter.isPositional

/-- A call with `argc` arguments fits. A declared block has to be passed, and a block may be passed
to a callable that declares none. -/
def accepts (s : Signature) (argc : Nat) (withBlock : Bool) : Bool :=
  if s.takesBlock && !withBlock then false
  else if argc < s.minArgs then false
  else s.isVariadic || argc ≤ s.minArgs + s.extraArgs

/-- The parameter that the argument at a place lands in. -/
def paramFor? (s : Signature) (index : Nat) : Option Parameter :=
  match s.positional[index]?.filter (·.form != .rest) with
  | some p => some p
  | none => s.positional.find? (·.form == .rest)

/-- The type of a parameter of the block; nothing is known beyond the declared ones. -/
def blockParamTy (s : Signature) (index : Nat) : Ty :=
  match s.block.bind (·.params[index]?) with
  | some p => p.ty
  | none => .undefined

/-! ### Changing types -/

/-- Changes every type, those of the block included. -/
def mapTys (f : Ty → Ty) : Signature → Signature
  | ⟨generics, params, returns, block⟩ =>
    ⟨generics, params.map (Parameter.mapTy f), f returns,
      match block with
      | none => none
      | some block => some (block.mapTys f)⟩
termination_by structural s => s

/-- Replaces the placeholders that are left by `undefined`. -/
def eraseGenerics (s : Signature) : Signature :=
  s.mapTys Ty.erasePlaceholders

/-- Replaces bound placeholders by what they are bound to. -/
def substitute (s : Signature) (b : Bindings) : Signature :=
  s.mapTys (Ty.substitute b)

/-- Replaces `self` by a receiver. -/
def selfTo (s : Signature) (receiver : Ty) : Signature :=
  s.mapTys fun t => t.selfTo receiver

/-- A placeholder stands somewhere in the signature. -/
def isGeneric : Signature → Bool
  | ⟨_, params, returns, block⟩ =>
    returns.isGeneric || params.any (·.ty.isGeneric) ||
      match block with
      | none => false
      | some block => block.isGeneric
termination_by structural s => s

/-! ### Completing generics -/

/-- What is known about a call: the types of the arguments, the type wanted from it, and the same
for the block that it passes. -/
structure CallTypes where
  args : Option (List Ty)
  returns : Option Ty
  blockArgs : Option (List Ty)
  blockReturns : Option Ty

namespace CallTypes

/-- What is known about the call of the block. -/
def forBlock (c : CallTypes) : CallTypes :=
  ⟨c.blockArgs, c.blockReturns, none, none⟩

end CallTypes

/-- Matches parameters against the arguments at the same places. -/
def unifyParams (generics : List String) : List Parameter → List Ty → Bindings →
    List Parameter × Bindings
  | [], _, b => ([], b)
  | p :: ps, args, b =>
    let (t, b) := p.ty.unify generics args.head? b
    let (ps, b) := unifyParams generics ps args.tail b
    ({ p with ty := t } :: ps, b)

/-- Matches parameters, return type and block with what is known about the call, binding the given
generics. -/
def unifyWith (generics : List String) : Signature → CallTypes → Bindings → Signature × Bindings
  | ⟨own, params, returns, block⟩, call, b =>
    let (params, b) := unifyParams generics params (call.args.getD []) b
    let (returns, b) := returns.unify generics call.returns b
    match block with
    | none => (⟨own, params, returns, none⟩, b)
    | some block =>
      let (block, b) := block.unifyWith generics call.forBlock b
      (⟨own, params, returns, some block⟩, b)
termination_by structural s => s

/-- One pass of matching. -/
def unify (s : Signature) (call : CallTypes) (b : Bindings) : Signature × Bindings :=
  s.unifyWith s.generics call b

/-- Passes of matching until the bindings stay the same, but at most `passes`. -/
def unifyPasses (s : Signature) (call : CallTypes) : Nat → Signature × Bindings →
    Signature × Bindings
  | 0, last => last
  | passes + 1, (_, b) =>
    let (next, b') := s.unify call b
    if b' == b then (next, b') else unifyPasses s call passes (next, b')

/-- Matches until nothing new is bound: each pass binds one more generic, or is the last. What is
still free after that is erased. -/
def resolve (s : Signature) (call : CallTypes) (b : Bindings) : Signature × Bindings :=
  let (last, b) := s.unifyPasses call (s.generics.length + 1) (s, b)
  ((last.substitute b).eraseGenerics, b)

end Signature

end DuckInfer
