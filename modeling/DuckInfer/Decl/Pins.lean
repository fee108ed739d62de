import DuckInfer.Decl.Format

/-!
The pins that a declaration file declares. A namespace is nested in another one that the file
declares under the outer part of its path; any other namespace is declared at the top level. Outer
namespaces come first, whatever their order in the file.
-/

namespace DuckInfer.Decl

/-- Why a declaration file cannot be used. -/
inductive FileFailure where
  | unreadable (path : String)
  | malformed (path : String)
  /-- a text in the file should be a type -/
  | badType (path context text : String)

def FileFailure.message : FileFailure → String
  | .unreadable path => "failed to read declaration file " ++ path
  | .malformed path => "invalid declaration file " ++ path
  | .badType path context _ => "bad type in " ++ path ++ " (" ++ context ++ ")"

/-- Reads a type in a file. -/
def readTy (file context text : String) : Except FileFailure Ty :=
  match Ty.ofTag? text with
  | some t => .ok t
  | none => .error (.badType file context text)

def readOptTy (file context : String) : Option String → Except FileFailure Ty
  | some text => readTy file context text
  | none => .ok .undefined

/-! ### Namespaces -/

/-- The namespaces declared so far, by path. -/
abbrev Spaces := List (String × Pin)

/-- The namespace that members of a path belong to. One that the file does not declare stands for
itself and is not a pin of the file. -/
def Spaces.closure (spaces : Spaces) (path : String) : Pin :=
  if path.isEmpty then .root
  else (spaces.lookup path).getD (.make path (some .root) (.space false []))

/-- The namespace around a declared one, and the name in it. -/
def Spaces.place (spaces : Spaces) (path : String) : Pin × String :=
  match Path.splitLast? path with
  | some (outer, name) =>
    if (spaces.lookup outer).isSome then (spaces.closure outer, name) else (.root, path)
  | none => (.root, path)

def spacePin (spaces : Spaces) (d : SpaceEntry) : Pin :=
  let (closure, name) := spaces.place (Path.unrooted d.name)
  { Pin.make name (some closure) (.space d.isModule d.generics) with comments := d.comments }

/-- The edges of a namespace as they are written. -/
def edgeTexts (d : SpaceEntry) : List (EdgeKind × String) :=
  (d.superclass.toList.map fun text => (.superclass, text)) ++
    (d.includes.map fun text => (.includes, text)) ++
    (d.prepends.map fun text => (.prepends, text)) ++
    (d.extendedBy.map fun text => (.extends, text))

/-- The pin of an edge. Its name is absolute if all names in the written type are. -/
def edgePin (file path : String) (pin : Pin) (kind : EdgeKind) (text : String) :
    Except FileFailure Pin := do
  let t ← readTy file (kind.text ++ " of " ++ path) text
  let name := if t.first.isAbsolute then "::" ++ t.first.name else t.first.name
  return .edge pin kind name t.first.subs

/-- The pins of a namespace: its own, then those of its edges. -/
def spacePins (file : String) (d : SpaceEntry) (pin : Pin) : Except FileFailure (List Pin) := do
  let edges ← (edgeTexts d).mapM fun (kind, text) =>
    edgePin file (Path.unrooted d.name) pin kind text
  return pin :: edges

/-- The pins of several namespaces, and all namespaces declared by then. -/
def spacesPins (file : String) : Spaces → List SpaceEntry → Except FileFailure (Spaces × List Pin)
  | spaces, [] => .ok (spaces, [])
  | spaces, d :: ds => do
    let pin := spacePin spaces d
    let pins ← spacePins file d pin
    let (spaces, more) ← spacesPins file ((pin.path, pin) :: spaces) ds
    return (spaces, pins ++ more)

/-- Namespaces in the order in which they are declared: by the number of `::` in the written name,
and in the order of the file otherwise. -/
def outerFirst (ds : List SpaceEntry) : List SpaceEntry :=
  ds.mergeSort fun a b =>
    Text.separatorCount a.name.toList ≤ Text.separatorCount b.name.toList

/-! ### Members -/

def parameter (file owner : String) (d : ParamEntry) : Except FileFailure Parameter := do
  let t ← readOptTy file ("parameter " ++ d.name ++ " of " ++ owner) d.ty
  return ⟨d.name, d.form, t⟩

def signature (file owner : String) : SignatureEntry → Except FileFailure Signature
  | ⟨generics, params, returns, block⟩ => do
    let params ← params.mapM (parameter file owner)
    let returns ← readOptTy file ("return type of " ++ owner) returns
    let block ← match block with
      | none => pure none
      | some block => some <$> signature file owner block
    return ⟨generics, params, returns, block⟩
termination_by structural d => d

def methodPin (file : String) (spaces : Spaces) (d : MethodEntry) : Except FileFailure Pin := do
  let signatures ← d.signatures.mapM (signature file (d.space ++ "#" ++ d.name))
  let closure := spaces.closure (Path.unrooted d.space)
  return { Pin.make d.name (some closure) (.method d.scope d.visibility signatures) with
    comments := d.comments }

def constantPin (file : String) (spaces : Spaces) (d : ConstantEntry) : Except FileFailure Pin := do
  let ty ← match d.ty with
    | some text => some <$> readTy file ("constant " ++ d.name) text
    | none => pure none
  let closure := spaces.closure (Path.unrooted d.space)
  return { Pin.make d.name (some closure) (.constant (.ofTy ty)) with comments := d.comments }

/-- The pin of overriding documentation. -/
def overridePin (file : String) (d : OverrideEntry) : Except FileFailure Pin := do
  let t ← readTy file ("override of " ++ d.method) d.returns
  return .edge .root .overrides d.method [t]

def filePins (file : String) (d : File) : Except FileFailure (List Pin) := do
  let (spaces, spacePins) ← spacesPins file [] (outerFirst d.spaces)
  let methods ← d.methods.mapM (methodPin file spaces)
  let constants ← d.constants.mapM (constantPin file spaces)
  let overrides ← d.overrides.mapM (overridePin file)
  return spacePins ++ methods ++ constants ++ overrides

/-- The pins that a source declares under the name of its file. -/
def pinsOfSource (file source : String) : Except FileFailure (List Pin) :=
  match File.ofText? source with
  | some d => filePins file d
  | none => .error (.malformed file)

end DuckInfer.Decl
