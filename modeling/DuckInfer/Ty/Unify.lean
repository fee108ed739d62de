import DuckInfer.Ty.Bindings

/-!
Matching a declared type against a type of the same shape. A placeholder is bound to what stands at
its place in the other type. The first binding of a name wins; later matches only fill names that
are still free.
-/

namespace DuckInfer

namespace Unify

/-- The member that a declared member is matched with: the one of the same name, else the first. -/
def counterpart (name : String) (context : Ty) : Member :=
  (context.members.find? fun m => m.name == name).getD context.first

/-- What the parameters of a declared member are matched with. A list of one parameter is matched
with the union of all parameters of the other list. -/
def slotContexts (kind : BracketStyle) (declared context : List Ty) : List Ty :=
  if declared.length == 1 && kind == .list && context.length > 1 then [Ty.unionAll context]
  else context

/-- Binds a generic to a type, unless it is bound already or nothing is known about the type. -/
def bind (name : String) (context : Option Ty) (b : Bindings) : Bindings :=
  match context with
  | none => b
  | some t => if t.isUndefined || b.contains name then b else (b.insert name t).refresh

end Unify

mutual

/-- Matches a declared member against a type: the member with bound placeholders replaced, and the
bindings afterwards. -/
def Member.unify (generics : List String) : Member → Option Ty → Bindings → Ty × Bindings
  | ⟨name, marked, kind, keys, subs⟩, context, b =>
    let self : Member := ⟨name, marked, kind, keys, subs⟩
    match self.placeholderName? with
    | some generic =>
      if generics.contains generic then
        let b := Unify.bind generic context b
        ((b.find? generic).getD (.single self), b)
      else (.single self, b)
    | none =>
      if keys.any Ty.isGeneric || subs.any Ty.isGeneric then
        let other := context.map (Unify.counterpart name)
        let keyContexts := (other.map fun m => Unify.slotContexts kind keys m.keys).getD []
        let subContexts := (other.map fun m => Unify.slotContexts kind subs m.subs).getD []
        let (keys, b) := Ty.unifyList generics keys keyContexts b
        let (subs, b) := Ty.unifyList generics subs subContexts b
        (.single (.make name marked kind keys subs), b)
      else (.single self, b)

/-- Matches every member of a declared type against the whole other type. -/
def Ty.unify (generics : List String) : Ty → Option Ty → Bindings → Ty × Bindings
  | ⟨first, rest⟩, context, b =>
    if Ty.isGeneric ⟨first, rest⟩ then
      let (first, b) := first.unify generics context b
      let (rest, b) := Member.unifyList generics rest context b
      (Ty.unionAll (first :: rest), b)
    else (⟨first, rest⟩, b)

def Member.unifyList (generics : List String) :
    List Member → Option Ty → Bindings → List Ty × Bindings
  | [], _, b => ([], b)
  | m :: ms, context, b =>
    let (t, b) := m.unify generics context b
    let (ts, b) := Member.unifyList generics ms context b
    (t :: ts, b)

/-- Matches declared parameters against the parameters at the same places, as far as there are
any. -/
def Ty.unifyList (generics : List String) : List Ty → List Ty → Bindings → List Ty × Bindings
  | [], _, b => ([], b)
  | t :: ts, contexts, b =>
    let (t, b) := t.unify generics contexts.head? b
    let (ts, b) := Ty.unifyList generics ts contexts.tail b
    (t :: ts, b)

end

/-- What the parameters of a receiver bind the generics of its namespace to: those of `Hash` to the
keys and the values, a single one to the union of the values, others place by place. -/
def Bindings.ofReceiver (generics : List String) (receiver : Member) : Bindings :=
  let values : List Ty :=
    match receiver.kind with
    | .none => []
    | .hash => [receiver.keyTy, receiver.valueTy]
    | .list | .fixed => if generics.length == 1 then [receiver.valueTy] else receiver.subs
  .ofList ((generics.zip values).filter fun (_, t) => !t.isUndefined)

end DuckInfer
