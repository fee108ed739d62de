import DuckInfer.Store.Basic

/-!
Published stores, one for each workspace. A snapshot is replaced only when the checksum of what it
was built from has changed.
-/

namespace DuckInfer

/-- A store with the checksum of what it was built from. -/
structure Snapshot where
  checksum : Nat
  store : Store

/-- What a snapshot holds. -/
def Snapshot.text (s : Snapshot) : String :=
  "Snapshot \x7b checksum: " ++ toString s.checksum ++ ", pins: " ++ toString s.store.size ++
    " \x7d"

/-- The published snapshot of each key. -/
structure PublishedStores where
  published : List (String × Snapshot)

namespace PublishedStores

def empty : PublishedStores :=
  ⟨[]⟩

/-- The published snapshot of a key. -/
def published? (cache : PublishedStores) (key : String) : Option Snapshot :=
  cache.published.lookup key

/-- The published snapshot of a key, if it was built from the same. -/
def fresh? (cache : PublishedStores) (key : String) (checksum : Nat) : Option Snapshot :=
  (cache.published? key).filter (·.checksum == checksum)

/-- Takes the snapshot of a key back. -/
def erase (cache : PublishedStores) (key : String) : PublishedStores :=
  ⟨cache.published.filter (·.1 != key)⟩

/-- Publishes a snapshot in place of an older one. -/
def publish (cache : PublishedStores) (key : String) (snapshot : Snapshot) : PublishedStores :=
  ⟨(key, snapshot) :: (cache.erase key).published⟩

/-- The snapshot of a key for a checksum. `build` is asked for a store only if the published
snapshot is missing or stale, and is told which one that is. -/
def obtain (cache : PublishedStores) (key : String) (checksum : Nat)
    (build : Option Snapshot → Store) : Snapshot × PublishedStores :=
  match cache.fresh? key checksum with
  | some snapshot => (snapshot, cache)
  | none =>
    let snapshot : Snapshot := ⟨checksum, build (cache.published? key)⟩
    (snapshot, cache.publish key snapshot)

/-- Takes the snapshot of a key back and says whether there was one. -/
def withdraw (cache : PublishedStores) (key : String) : Bool × PublishedStores :=
  ((cache.published? key).isSome, cache.erase key)

def size (cache : PublishedStores) : Nat :=
  cache.published.length

end PublishedStores

end DuckInfer
