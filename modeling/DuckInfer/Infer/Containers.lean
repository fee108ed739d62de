import DuckInfer.Ty.Basic

/-!
Types of array and hash literals. If nothing is known about one of the elements, nothing is known
about the others either.
-/

namespace DuckInfer

/-- The type of an array literal: a list if all elements have one type, else a tuple. -/
def arrayTy : List Ty → Ty
  | [] => .absolute "Array"
  | t :: ts =>
    if (t :: ts).any Ty.isUndefined then .absolute "Array"
    else if ts.all (· == t) then .single (.make "Array" true .list [] [t])
    else .single (.make "Array" true .fixed [] (t :: ts))

/-- The type of a hash literal: the union of the keys and the union of the values. -/
def hashTy (keys values : List Ty) : Ty :=
  if keys.isEmpty || keys.any Ty.isUndefined || values.any Ty.isUndefined then .absolute "Hash"
  else .single (.make "Hash" true .hash [.unionAll keys] [.unionAll values])

end DuckInfer
