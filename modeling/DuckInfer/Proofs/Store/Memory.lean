import DuckInfer.Proofs.Store.History
import DuckInfer.Store.Library

/-!
Constant lookup with memory. A change forgets all answers, and between two changes the first lookup
of each memory key decides the answers of the later ones. Main statement: after any history of
changes and lookups, a lookup answers as the store does for the gates of the first lookup since the
last change that was kept under the same key. So answers are those of the store as long as gates are
written apart; gates that are written alike share an answer that need not be right for both.
-/

namespace DuckInfer

/-! ### Keys -/

/-- Gates that no other gates are written like: there are some, and none has a bar in it. -/
def PlainGates (gates : List String) : Prop :=
  gates ≠ [] ∧ ∀ gate ∈ gates, '|' ∉ gate.toList

theorem PlainGates.eq_of_intercalate {gates others : List String} (plain : PlainGates gates)
    (plain' : PlainGates others)
    (same : "|".intercalate gates = "|".intercalate others) : gates = others := by
  have cut : ∀ {gates : List String}, PlainGates gates →
      ("|".intercalate gates).toList.splitOn '|' = gates.map String.toList := by
    intro gates plain
    rw [String.toList_intercalate]
    refine List.splitOn_intercalate _ (fun part member => ?_) (by simpa using plain.1)
    obtain ⟨gate, listed, rfl⟩ := List.mem_map.mp member
    exact plain.2 gate listed
  have parts : gates.map String.toList = others.map String.toList := by
    rw [← cut plain, ← cut plain', same]
  exact List.map_injective_iff.mpr (fun _ _ => String.toList_inj.mp) parts

namespace Memo

theorem name_eq_of_key {name other : String} {gates others : List String}
    (same : key name gates = key other others) : name = other :=
  congrArg Prod.fst same

theorem gates_eq_of_key {name other : String} {gates others : List String}
    (plain : PlainGates gates) (plain' : PlainGates others)
    (same : key name gates = key other others) : gates = others :=
  plain.eq_of_intercalate plain' (congrArg Prod.snd same)

theorem find?_keep (memo : Memo) (name other : String) (gates others : List String)
    (answer : Option String) :
    (memo.keep name gates answer).find? other others =
      if key other others == key name gates then some answer else memo.find? other others := by
  unfold find? keep
  rw [List.lookup_cons]
  cases key other others == key name gates <;> rfl

end Memo

namespace Library

/-! ### Histories -/

/-- What is asked of a library. -/
inductive Request where
  | update (key : String) (pins : List Pin)
  | remove (key : String)
  | resolve (name : String) (gates : List String)
  | dereference (edge : Pin)

/-- The constant that a name means in some gates. -/
def resolve (lib : Library) (name : String) (gates : List String) : Option String × Library :=
  lib.ask (lib.store.lookup name gates)

/-- The path that a reference points at. -/
def dereference (lib : Library) (edge : Pin) : Option String × Library :=
  lib.ask (lib.store.targetOf edge)

/-- The library after a request. -/
def serve (lib : Library) : Request → Library
  | .update key pins => lib.update key pins
  | .remove key => (lib.remove key).2
  | .resolve name gates => (lib.resolve name gates).2
  | .dereference edge => (lib.dereference edge).2

/-- The library after several requests, one after the other, that begin with an empty store. -/
def afterRequests (requests : List Request) : Library :=
  requests.foldl serve (.ofStore .empty)

/-- The change that a request makes. -/
def Request.change? : Request → Option Store.Change
  | .update key pins => some (.update key pins)
  | .remove key => some (.remove key)
  | .resolve _ _ | .dereference _ => none

/-- The lookups since the last change, after one more request to a store. -/
def noteLookups (store : Store) (asked : List (String × List String)) :
    Request → List (String × List String)
  | .update _ _ => []
  | .remove key => if (store.group? key).isSome then [] else asked
  | .resolve name gates => asked ++ [(name, gates)]
  | .dereference edge =>
    if edge.edgeKind?.isSome then asked ++ [(edge.name, edge.targetGates)] else asked

/-- The lookups since the last change, oldest first, after requests that begin with a store. -/
def lookupsFrom (store : Store) (asked : List (String × List String)) :
    List Request → List (String × List String)
  | [] => asked
  | request :: requests =>
    lookupsFrom (request.change?.elim store store.change) (noteLookups store asked request) requests

/-- The lookups since the last change, oldest first. -/
def lookupsSinceChange (requests : List Request) : List (String × List String) :=
  lookupsFrom .empty [] requests

/-- The first lookup that is kept under the key of another one. -/
def firstAlike? (asked : List (String × List String)) (name : String) (gates : List String) :
    Option (String × List String) :=
  asked.find? fun lookup => Memo.key lookup.1 lookup.2 == Memo.key name gates

/-- The gates that decide the answer of a lookup. -/
def decidingGates (asked : List (String × List String)) (name : String) (gates : List String) :
    List String :=
  ((firstAlike? asked name gates).map Prod.snd).getD gates

/-! ### What is remembered -/

/-- The memory holds the answers of these lookups, for each key that of the first one. -/
def Remembers (lib : Library) (asked : List (String × List String)) : Prop :=
  ∀ name gates, lib.memo.find? name gates =
    (firstAlike? asked name gates).map fun lookup => lib.store.resolve? lookup.1 lookup.2

theorem remembers_ofStore (store : Store) : (ofStore store).Remembers [] :=
  fun _ _ => rfl

theorem resolve_store (lib : Library) (name : String) (gates : List String) :
    (lib.resolve name gates).2.store = lib.store :=
  rfl

theorem resolve_eq (lib : Library) (name : String) (gates : List String) :
    lib.resolve name gates =
      match lib.memo.find? name gates with
      | some answer => (answer, lib)
      | none => (lib.store.resolve? name gates,
          ⟨lib.store, lib.memo.keep name gates (lib.store.resolve? name gates)⟩) := by
  show (let (answer, memo) := Memo.lookup lib.store name gates lib.memo; (answer, _)) = _
  unfold Memo.lookup
  cases lib.memo.find? name gates <;> rfl

theorem dereference_eq (lib : Library) (edge : Pin) :
    lib.dereference edge =
      if edge.edgeKind?.isSome then lib.resolve edge.name edge.targetGates else (none, lib) := by
  unfold dereference Store.targetOf
  split <;> rfl

theorem firstAlike?_append (asked : List (String × List String)) (lookup : String × List String)
    (name : String) (gates : List String) :
    firstAlike? (asked ++ [lookup]) name gates =
      (firstAlike? asked name gates).or
        (if Memo.key lookup.1 lookup.2 == Memo.key name gates then some lookup else none) := by
  unfold firstAlike?
  rw [List.find?_append, List.find?_singleton]

/-- A lookup answers as the first one of its key did. -/
theorem Remembers.answer {lib : Library} {asked : List (String × List String)}
    (remembers : lib.Remembers asked) (name : String) (gates : List String) :
    (lib.resolve name gates).1 = lib.store.resolve? name (decidingGates asked name gates) := by
  rw [resolve_eq, remembers name gates, decidingGates]
  cases first : firstAlike? asked name gates with
  | none => rfl
  | some lookup =>
    have same := List.find?_some first
    rw [beq_iff_eq] at same
    simp only [Option.map_some, Option.getD_some, Memo.name_eq_of_key same]

theorem Remembers.resolve {lib : Library} {asked : List (String × List String)}
    (remembers : lib.Remembers asked) (name : String) (gates : List String) :
    (lib.resolve name gates).2.Remembers (asked ++ [(name, gates)]) := by
  intro other others
  rw [resolve_store, firstAlike?_append, resolve_eq, remembers name gates]
  have before := remembers other others
  cases first : firstAlike? asked name gates with
  | some lookup =>
    -- the key was in use, so the new lookup comes too late to be the first of any key
    simp only [Option.map_some, before]
    split
    · rename_i same
      rw [beq_iff_eq] at same
      have used : firstAlike? asked other others = some lookup := by
        unfold firstAlike? at first ⊢
        rwa [← same]
      rw [used]
      rfl
    · rw [Option.or_none]
  | none =>
    simp only [Option.map_none, Memo.find?_keep, before]
    by_cases same : Memo.key other others = Memo.key name gates
    · have unused : firstAlike? asked other others = none := by
        unfold firstAlike? at first ⊢
        rwa [same]
      simp [same, unused]
    · simp [same, Ne.symm same]

theorem Remembers.serve {lib : Library} {asked : List (String × List String)}
    (remembers : lib.Remembers asked) (request : Request) :
    (lib.serve request).store = request.change?.elim lib.store lib.store.change ∧
      (lib.serve request).Remembers (noteLookups lib.store asked request) := by
  cases request with
  | update key pins => exact ⟨rfl, remembers_ofStore _⟩
  | remove key =>
    cases found : lib.store.group? key with
    | none =>
      simp only [Library.serve, Library.remove, noteLookups, found, Option.isSome_none,
        Bool.false_eq_true, if_false]
      exact ⟨(Store.remove_absent found).symm, remembers⟩
    | some old =>
      simp only [Library.serve, Library.remove, noteLookups, found, Option.isSome_some, if_true]
      exact ⟨rfl, remembers_ofStore _⟩
  | resolve name gates => exact ⟨rfl, remembers.resolve name gates⟩
  | dereference edge =>
    simp only [Library.serve, noteLookups, dereference_eq]
    split
    · exact ⟨rfl, remembers.resolve edge.name edge.targetGates⟩
    · exact ⟨rfl, remembers⟩

theorem Remembers.serveAll (requests : List Request) :
    ∀ {lib : Library} {asked : List (String × List String)}, lib.Remembers asked →
      (requests.foldl Library.serve lib).store =
          (requests.filterMap Request.change?).foldl Store.change lib.store ∧
        (requests.foldl Library.serve lib).Remembers (lookupsFrom lib.store asked requests) := by
  induction requests with
  | nil => exact fun remembers => ⟨rfl, remembers⟩
  | cons request requests ih =>
    intro lib asked remembers
    obtain ⟨store, next⟩ := remembers.serve request
    obtain ⟨stores, all⟩ := ih next
    rw [List.foldl_cons, lookupsFrom, ← store]
    refine ⟨?_, all⟩
    rw [stores, store]
    cases changes : request.change? with
    | none => rw [List.filterMap_cons_none changes]; rfl
    | some change => rw [List.filterMap_cons_some changes]; rfl

theorem store_afterRequests (requests : List Request) :
    (afterRequests requests).store = Store.afterChanges (requests.filterMap Request.change?) :=
  (Remembers.serveAll requests (remembers_ofStore .empty)).1

theorem remembers_afterRequests (requests : List Request) :
    (afterRequests requests).Remembers (lookupsSinceChange requests) :=
  (Remembers.serveAll requests (remembers_ofStore .empty)).2

/-- Among plain gates, only the same gates are written alike. -/
theorem decidingGates_of_plain {asked : List (String × List String)} {name : String}
    {gates : List String} (plain : PlainGates gates)
    (others : ∀ lookup ∈ asked, PlainGates lookup.2) : decidingGates asked name gates = gates := by
  unfold decidingGates
  cases first : firstAlike? asked name gates with
  | none => rfl
  | some lookup =>
    have same := List.find?_some first
    rw [beq_iff_eq] at same
    exact Memo.gates_eq_of_key (others lookup (List.mem_of_find?_eq_some first)) plain same

/-- After any history, a lookup answers as the store does at that moment for the gates of the first
lookup of its key since the last change. This is the right answer exactly if the store answers the
same for both gates, and always while only plain gates are asked for. -/
theorem resolve_afterRequests (requests : List Request) (name : String) (gates : List String) :
    (afterRequests requests).store = Store.afterChanges (requests.filterMap Request.change?) ∧
      ((afterRequests requests).resolve name gates).1 =
        (afterRequests requests).store.resolve? name
          (decidingGates (lookupsSinceChange requests) name gates) ∧
      (PlainGates gates → (∀ lookup ∈ lookupsSinceChange requests, PlainGates lookup.2) →
        ((afterRequests requests).resolve name gates).1 =
          (afterRequests requests).store.resolve? name gates) := by
  have answer := (remembers_afterRequests requests).answer name gates
  refine ⟨store_afterRequests requests, answer, fun plain others => ?_⟩
  rw [answer, decidingGates_of_plain plain others]

section SharedAnswer

/-- `Foo` is looked up in vain, in a module and in the root, before a file declares it. -/
def fooDeclaredLater : List Request :=
  [.update "a.rb" [.root, .make "Outer" (some .root) (.space true [])],
    .resolve "Foo" ["Outer", ""], .update "b.rb" [.make "Foo" (some .root) (.space false [])],
    .resolve "Foo" ["Outer"]]

/-- The answer from before the change is forgotten, and the lookup in the module alone keeps its own
answer. -/
theorem resolve_fooDeclaredLater :
    (PlainGates ["Outer", ""] ∧
      ∀ lookup ∈ lookupsSinceChange fooDeclaredLater, PlainGates lookup.2) ∧
      ((afterRequests fooDeclaredLater).resolve "Foo" ["Outer", ""]).1 =
        (afterRequests fooDeclaredLater).store.resolve? "Foo" ["Outer", ""] ∧
      (afterRequests fooDeclaredLater).store.resolve? "Foo" ["Outer", ""] = some "Foo" := by
  have plain : PlainGates ["Outer", ""] := ⟨by simp, by decide +kernel⟩
  have others : ∀ lookup ∈ lookupsSinceChange fooDeclaredLater, PlainGates lookup.2 := by
    have asked : lookupsSinceChange fooDeclaredLater = [("Foo", ["Outer"])] := by decide +kernel
    rw [asked]
    intro lookup member
    rw [List.mem_singleton.mp member]
    exact ⟨by simp, by decide +kernel⟩
  exact ⟨⟨plain, others⟩,
    (resolve_afterRequests fooDeclaredLater "Foo" ["Outer", ""]).2.2 plain others,
    by decide +kernel⟩

/-- A store with a class `Foo`, which is then looked up without any gate. -/
def fooWithoutGates : List Request :=
  [.update "a.rb" [.root, .make "Foo" (some .root) (.space false [])], .resolve "Foo" []]

/-- No gate and the root gate are written alike, so the root is not searched for `Foo`. -/
theorem resolve_ne_of_sharedKey :
    ¬ ∀ (requests : List Request) (name : String) (gates : List String),
      ((afterRequests requests).resolve name gates).1 =
        (afterRequests requests).store.resolve? name gates := by
  intro claimed
  have same := claimed fooWithoutGates "Foo" [""]
  have answer : ((afterRequests fooWithoutGates).resolve "Foo" [""]).1 = none := by decide +kernel
  have right : (afterRequests fooWithoutGates).store.resolve? "Foo" [""] = some "Foo" := by
    decide +kernel
  rw [answer, right] at same
  exact absurd same (by simp)

end SharedAnswer

end Library

end DuckInfer
