import DuckInfer.Source.Span
import DuckInfer.Ty.Basic

/-!
Expressions as chains: `Foo::Bar.new(1).baz { |x| x }` is the list of the constant `Foo::Bar`, the
call of `new` and the call of `baz`. Each link stands for a message to the value of the links before
it.
-/

namespace DuckInfer

mutual

/-- An expression. -/
structure Chain where
  links : List Link
  location : Option Location
  /-- somewhere in the chain a message is sent only to a value that is not `nil` -/
  nullable : Bool

/-- One step of an expression. -/
inductive Link where
  /-- `Foo::Bar` or `::Foo`; the empty name is the root namespace -/
  | constant (name : String)
  /-- a method call, or a bare word that may be a local variable -/
  | call (call : Call)
  /-- `[a, b]` -/
  | array (items : List Chain)
  /-- `{ k => v }` -/
  | hash (entries : List ChainPair)
  /-- a literal of a known type -/
  | literal (ty : Ty)
  /-- `&:name`, passed as a block -/
  | blockSymbol (name : String)
  /-- `self` -/
  | receiver
  /-- a variable with a sign in front, or one known to be a variable -/
  | variable (kind : VariableKind) (name : String)
  /-- an expression of no known form -/
  | unknown

structure Call where
  word : String
  location : Option Location
  arguments : List Chain
  block : Option Chain

/-- An entry of a hash literal. -/
structure ChainPair where
  key : Chain
  value : Chain

end

namespace Call

/-- The argument is `&:name`, or a chain that starts with it. -/
def isBlockPass (argument : Chain) : Bool :=
  match argument.links with
  | .blockSymbol _ :: _ => true
  | _ => false

/-- A call whose last argument becomes the block if it starts with `&:name`. -/
def make (word : String) (location : Option Location) (arguments : List Chain)
    (block : Option Chain) : Call :=
  match arguments.getLast? with
  | some last =>
    if isBlockPass last then ⟨word, location, arguments.dropLast, some last⟩
    else ⟨word, location, arguments, block⟩
  | none => ⟨word, location, arguments, block⟩

/-- A call of a method without arguments, or a variable of that name. -/
def bare (word : String) : Call :=
  ⟨word, none, [], none⟩

def passesBlock (c : Call) : Bool :=
  c.block.isSome

/-- The method named by a block that is just `&:name`. -/
def passedSymbol? (c : Call) : Option String :=
  match c.block with
  | some ⟨[.blockSymbol name], _, _⟩ => some name
  | _ => none

end Call

/-- The word of a link that has one. -/
def Link.word? : Link → Option String
  | .constant name => some name
  | .blockSymbol name => some name
  | .call c => some c.word
  | .variable _ name => some name
  | _ => none

namespace Chain

/-- A chain of links. -/
def ofLinks (links : List Link) : Chain :=
  ⟨links, none, false⟩

/-- A chain of one bare word. -/
def word (name : String) : Chain :=
  ofLinks [.call (.bare name)]

/-- A chain of one literal. -/
def literal (t : Ty) : Chain :=
  ofLinks [.literal t]

/-- The chain with one more link. -/
def push (c : Chain) (link : Link) : Chain :=
  { c with links := c.links ++ [link] }

def last? (c : Chain) : Option Link :=
  c.links.getLast?

/-- The chain without its last link. -/
def base (c : Chain) : Chain :=
  { c with links := c.links.dropLast }

/-- A lone constant. -/
def isConstant (c : Chain) : Bool :=
  match c.links with
  | [.constant _] => true
  | _ => false

/-- The link has no known form. -/
def isUnknownLink : Link → Bool
  | .unknown => true
  | _ => false

/-- The chain is empty or has a link of no known form. -/
def isUndefined (c : Chain) : Bool :=
  c.links.isEmpty || c.links.any isUnknownLink

end Chain

/-! ### Written form -/

mutual

/-- Written form of a chain. -/
def Chain.text : Chain → String
  | ⟨links, _, nullable⟩ => (if nullable then "&." else ".").intercalate (Link.texts links)

def Link.text : Link → String
  | .constant name => if name.isEmpty then "<root>" else name
  | .call c => c.text
  | .array items => "[" ++ ", ".intercalate (Chain.texts items) ++ "]"
  | .hash entries => "\x7b" ++ ", ".intercalate (ChainPair.texts entries) ++ "\x7d"
  | .literal ty => "<" ++ ty.tag ++ ">"
  | .blockSymbol name => "&:" ++ name
  | .receiver => "self"
  | .variable _ name => name
  | .unknown => "<undefined>"

def Call.text : Call → String
  | ⟨word, _, arguments, block⟩ =>
    word ++
      (match arguments with
        | [] => ""
        | argument :: more =>
          "(" ++ ", ".intercalate (argument.text :: Chain.texts more) ++ ")") ++
      (match block with
        | none => ""
        | some block => " \x7b " ++ block.text ++ " \x7d")

def ChainPair.text : ChainPair → String
  | ⟨key, value⟩ => key.text ++ " => " ++ value.text

def Link.texts : List Link → List String
  | [] => []
  | link :: links => link.text :: Link.texts links

def Chain.texts : List Chain → List String
  | [] => []
  | chain :: chains => chain.text :: Chain.texts chains

def ChainPair.texts : List ChainPair → List String
  | [] => []
  | entry :: entries => entry.text :: ChainPair.texts entries

end

/-! ### Comparison -/

mutual

/-- The chains are equal, with types compared by tag. -/
def Chain.same : Chain → Chain → Bool
  | ⟨links, location, nullable⟩, other =>
    Link.sameAll links other.links && location == other.location && nullable == other.nullable
termination_by structural x => x

def Link.same : Link → Link → Bool
  | .constant name, .constant other => name == other
  | .call c, .call other => c.same other
  | .array items, .array others => Chain.sameAll items others
  | .hash entries, .hash others => ChainPair.sameAll entries others
  | .literal ty, .literal other => ty == other
  | .blockSymbol name, .blockSymbol other => name == other
  | .receiver, .receiver => true
  | .variable kind name, .variable otherKind other => kind == otherKind && name == other
  | .unknown, .unknown => true
  | _, _ => false
termination_by structural x => x

def Call.same : Call → Call → Bool
  | ⟨word, location, arguments, block⟩, other =>
    word == other.word && location == other.location &&
      Chain.sameAll arguments other.arguments &&
      Chain.sameBlock block other.block
termination_by structural x => x

def ChainPair.same : ChainPair → ChainPair → Bool
  | ⟨key, value⟩, other => key.same other.key && value.same other.value
termination_by structural x => x

def Chain.sameBlock : Option Chain → Option Chain → Bool
  | none, none => true
  | some block, some other => block.same other
  | _, _ => false
termination_by structural x => x

def Link.sameAll : List Link → List Link → Bool
  | [], [] => true
  | link :: links, other :: others => link.same other && Link.sameAll links others
  | _, _ => false
termination_by structural x => x

def Chain.sameAll : List Chain → List Chain → Bool
  | [], [] => true
  | chain :: chains, other :: others => chain.same other && Chain.sameAll chains others
  | _, _ => false
termination_by structural x => x

def ChainPair.sameAll : List ChainPair → List ChainPair → Bool
  | [], [] => true
  | entry :: entries, other :: others => entry.same other && ChainPair.sameAll entries others
  | _, _ => false
termination_by structural x => x

end

instance : BEq Chain := ⟨Chain.same⟩

end DuckInfer
