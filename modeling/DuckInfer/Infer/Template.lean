import DuckInfer.Store.Basic
import DuckInfer.Text.Replace

/-!
Return types from documentation templates. In the body of a template `$1`, `$2`, … stand for the
namespaces of the arguments; the body with these filled in is read as documentation.
-/

namespace DuckInfer.Template

/-- The mark of the argument at a place. -/
def mark (index : Nat) : List Char :=
  '$' :: (toString (index + 1)).toList

/-- Fills in the arguments from a place on, the last one first, so that `$1` is not taken for the
beginning of `$10`. -/
def fillFrom (body : List Char) (index : Nat) : List Ty → List Char
  | [] => body
  | arg :: args =>
    Text.replaceAll (mark index) arg.space.toList (fillFrom body (index + 1) args)

/-- A body with the arguments filled in. -/
def fill (body : String) (args : List Ty) : String :=
  String.ofList (fillFrom body.toList 0 args)

/-- The return type that a body states for some arguments. -/
def expand (body : String) (args : List Ty) : Ty :=
  (Doc.DocComment.ofText (fill body args)).returnTy

/-- The bodies of the templates that a pin defines, then of those that it applies by name. -/
def bodies (store : Store) (pin : Pin) : List String :=
  pin.templates.map Doc.Directive.body ++
    (pin.templateReferences.filterMap store.template?).map Doc.Directive.body

/-- The first known type that the templates of a pin state for some arguments. -/
def returnTy (store : Store) (pin : Pin) (args : List Ty) : Ty :=
  match ((bodies store pin).map fun body => expand body args).find? (!·.isUndefined) with
  | some t => t
  | none => .undefined

end DuckInfer.Template
