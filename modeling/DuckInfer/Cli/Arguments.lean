/-!
The arguments of a command line. An option starts with `--`, and its value follows it behind `=` or
as the next argument. All arguments behind a bare `--` are words, whatever they look like. There are
no options with one `-`, and a text that looks like one is no word either, except for `-` alone.
-/

namespace DuckInfer.Cli

/-- One argument by its look. -/
inductive Argument where
  /-- `--` -/
  | rest
  /-- `--name` or `--name=value` -/
  | option (name : String) (value : Option String)
  /-- `-` with more behind it -/
  | dashed
  | word (text : String)

/-- The name of an option and the value behind `=`. -/
def splitOption (text : List Char) : Argument :=
  match text.dropWhile (· != '=') with
  | [] => .option (String.ofList text) none
  | _ :: value => .option (String.ofList (text.takeWhile (· != '='))) (some (String.ofList value))

def Argument.ofText (text : String) : Argument :=
  match text.toList with
  | ['-', '-'] => .rest
  | '-' :: '-' :: name => splitOption name
  | '-' :: _ :: _ => .dashed
  | _ => .word text

/-- What may stand at one level of a command line. -/
structure Level where
  /-- options with a value -/
  valued : List String
  /-- options without one -/
  flags : List String
  /-- words belong to the level; otherwise the first word ends it -/
  takesWords : Bool

/-- The arguments of one level. -/
structure Given where
  values : List (String × String)
  flags : List String
  words : List String
  /-- what follows the level -/
  rest : List String

namespace Given

/-- A level with words and nothing else. -/
def ofWords (words : List String) : Given :=
  ⟨[], [], words, []⟩

/-- A level that is empty before its end. -/
def ofRest (rest : List String) : Given :=
  ⟨[], [], [], rest⟩

def addValue (name value : String) (g : Given) : Given :=
  { g with values := (name, value) :: g.values }

def addFlag (name : String) (g : Given) : Given :=
  { g with flags := name :: g.flags }

def addWord (word : String) (g : Given) : Given :=
  { g with words := word :: g.words }

/-- The values of an option, in order. -/
def valuesOf (g : Given) (name : String) : List String :=
  (g.values.filter (·.1 == name)).map Prod.snd

/-- The value of an option that may be given once. -/
def value? (g : Given) (name : String) : Option (Option String) :=
  match g.valuesOf name with
  | [] => some none
  | [value] => some (some value)
  | _ => none

/-- Whether an option without a value is given; it may be given once. -/
def flag? (g : Given) (name : String) : Option Bool :=
  match g.flags.filter (· == name) with
  | [] => some false
  | [_] => some true
  | _ => none

end Given

/-- Reads the arguments of a level. It fails on an option that the level does not have, on an option
that lacks its value, and on a value for an option that takes none. -/
def Level.read? (level : Level) : List String → Option Given
  | [] => some (.ofWords [])
  | text :: rest =>
    match Argument.ofText text with
    | .rest => if level.takesWords then some (.ofWords rest) else none
    | .dashed => none
    | .word word =>
      if level.takesWords then (level.read? rest).map (·.addWord word)
      else some (.ofRest (text :: rest))
    | .option name (some value) =>
      if level.valued.contains name then (level.read? rest).map (·.addValue name value) else none
    | .option name none =>
      if level.flags.contains name then (level.read? rest).map (·.addFlag name)
      else if level.valued.contains name then
        match rest with
        | [] => none
        | value :: rest =>
          match Argument.ofText value with
          | .word value => (level.read? rest).map (·.addValue name value)
          | _ => none
      else none

end DuckInfer.Cli
