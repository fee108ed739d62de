import DuckInfer.Store.Methods

/-!
A store that changes over time, with the answers of the constant lookups made since its last change.
-/

namespace DuckInfer

/-- A store and the answers of earlier lookups in it. -/
structure Library where
  store : Store
  memo : Memo

namespace Library

/-- A library in which nothing was looked up yet. -/
def ofStore (store : Store) : Library :=
  ⟨store, .empty⟩

/-- Replaces the pins of a key and forgets all answers. -/
def update (lib : Library) (key : String) (pins : List Pin) : Library :=
  .ofStore (lib.store.update key pins)

/-- Removes the group of a key, if there is one, and then forgets all answers. Says whether there
was one. -/
def remove (lib : Library) (key : String) : Bool × Library :=
  if (lib.store.group? key).isSome then (true, .ofStore (lib.store.remove key)) else (false, lib)

/-- Runs a query with memory. -/
def ask {α : Type} (lib : Library) (q : StateM Memo α) : α × Library :=
  let (answer, memo) := q.run lib.memo
  (answer, { lib with memo })

end Library

end DuckInfer
