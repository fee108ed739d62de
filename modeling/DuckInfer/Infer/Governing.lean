import DuckInfer.Pin.Basic

/-!
Which of the variables of a name govern it at a position. Each step narrows the choice, but not to
nothing: to the pins present at the position, then to those declared right in the scope that asks,
then to those derived from the flow of control.
-/

namespace DuckInfer

/-- The pin has a range, and the position lies in it. -/
def Pin.coversPosition (pin : Pin) (position : Option Position) : Bool :=
  match position, pin.extent? with
  | some p, some range => range.contains p
  | _, _ => false

/-- The pin is declared right in the given scope. -/
def Pin.declaredIn (pin scope : Pin) : Bool :=
  match pin.closure with
  | some closure => closure.path == scope.path && closure.location == scope.location
  | none => false

/-- The elements that satisfy `p`, or all if there are none. -/
def preferring {α : Type} (p : α → Bool) (xs : List α) : List α :=
  if xs.any p then xs.filter p else xs

/-- The variables of a name that govern it at a position. -/
def governingPins (locals : List Pin) (name : String) (scope : Pin) (position : Option Position) :
    List Pin :=
  let named := locals.filter (·.name == name)
  let present := named.filter (·.coversPosition position)
  if present.isEmpty then named
  else
    let here := present.filter (·.declaredIn scope)
    if here.isEmpty then present else preferring Pin.isDerived here

end DuckInfer
