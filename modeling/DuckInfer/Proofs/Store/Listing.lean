import DuckInfer.Proofs.Store.History
import DuckInfer.Store.NameLookup

/-!
Listing the constants of a namespace against looking one of them up. The listing takes the members
of the namespace and of its mixins, found by owner; the lookup asks for the joined path, found by
path. Main statement: a lookup of a simple name finds the path of the first listed pin that ends in
it, as long as the mixins of the namespace mean the same with and without a mixin hop.
-/

namespace DuckInfer

/-! ### Cutting and joining paths -/

namespace Text

theorem splitLast?_cons_of_some {c : Char} {rest outer last : List Char}
    (cut : splitLast? rest = some (outer, last)) :
    splitLast? (c :: rest) = some (c :: outer, last) := by
  unfold splitLast?
  rw [cut]

theorem splitLast?_colons {last : List Char} (uncut : splitLast? (':' :: last) = none) :
    splitLast? (':' :: ':' :: last) = some ([], last) := by
  rw [splitLast?, uncut]

/-- Where no two colons stand in front, a path is cut where the rest is. -/
theorem splitLast?_cons_of_apart {c : Char} {rest : List Char}
    (apart : ∀ last, c = ':' → rest = ':' :: last → False) :
    splitLast? (c :: rest) = (splitLast? rest).map fun (outer, last) => (c :: outer, last) := by
  rw [splitLast?]
  · cases splitLast? rest <;> rfl
  · exact apart

theorem splitLast?_separator {last : List Char} (uncut : splitLast? (':' :: last) = none)
    (outer : List Char) : splitLast? (outer ++ ':' :: ':' :: last) = some (outer, last) := by
  induction outer with
  | nil => exact splitLast?_colons uncut
  | cons c outer ih => exact splitLast?_cons_of_some ih

theorem append_of_splitLast? {path outer last : List Char}
    (cut : splitLast? path = some (outer, last)) : path = outer ++ ':' :: ':' :: last := by
  induction path generalizing outer with
  | nil => simp [splitLast?] at cut
  | cons c rest ih =>
    unfold splitLast? at cut
    split at cut
    case h_1 inner innerLast found =>
      obtain ⟨rfl, rfl⟩ := Prod.mk.inj (Option.some.inj cut)
      rw [ih found, List.cons_append]
    case h_2 =>
      split at cut
      · obtain ⟨rfl, rfl⟩ := Prod.mk.inj (Option.some.inj cut)
        rfl
      · simp at cut

theorem segments_of_uncut {path : List Char} (uncut : splitLast? path = none) :
    segments path = [path] := by
  fun_induction segments path with
  | case1 => rfl
  | case2 rest ih =>
    cases inner : splitLast? (':' :: rest) with
    | some parts => simp [splitLast?_cons_of_some inner] at uncut
    | none => simp [splitLast?_colons inner] at uncut
  | case3 c rest apart none ih =>
    rw [splitLast?_cons_of_apart apart, Option.map_eq_none_iff] at uncut
    simp [ih uncut] at none
  | case4 c rest apart segment others cut ih =>
    rw [splitLast?_cons_of_apart apart, Option.map_eq_none_iff] at uncut
    obtain ⟨rfl, rfl⟩ := List.cons.inj (cut.symm.trans (ih uncut))
    rfl

end Text

namespace Path

/-- A simple name: it is not empty, holds no `::` and does not start with a colon. -/
structure IsSegment (name : String) : Prop where
  nonempty : name ≠ ""
  uncut : Text.splitLast? name.toList = none
  bare : name.toList.head? ≠ some ':'

instance (name : String) : Decidable (IsSegment name) :=
  decidable_of_iff
    (name ≠ "" ∧ Text.splitLast? name.toList = none ∧ name.toList.head? ≠ some ':')
    ⟨fun ⟨nonempty, uncut, bare⟩ => ⟨nonempty, uncut, bare⟩,
      fun ⟨nonempty, uncut, bare⟩ => ⟨nonempty, uncut, bare⟩⟩

/-- What stands behind the last `::` of a path. -/
def lastSegment (path : String) : String :=
  match splitLast? path with
  | some (_, last) => last
  | none => path

theorem join_of_nonempty {outer : String} (inside : outer ≠ "") (name : String) :
    join outer name = outer ++ "::" ++ name := by
  simp [join, inside]

theorem join_root (name : String) : join "" name = name :=
  rfl

theorem IsSegment.splitLast?_eq {name : String} (simple : IsSegment name) :
    splitLast? name = none := by
  simp [splitLast?, simple.uncut]

theorem IsSegment.splitLast?_join {outer name : String} (simple : IsSegment name)
    (inside : outer ≠ "") : splitLast? (join outer name) = some (outer, name) := by
  have uncut : Text.splitLast? (':' :: name.toList) = none := by
    refine (Text.splitLast?_cons_of_apart ?_).trans (by rw [simple.uncut]; rfl)
    intro last _ colon
    exact simple.bare (by rw [colon]; rfl)
  have text : (join outer name).toList = outer.toList ++ ':' :: ':' :: name.toList := by
    simp [join_of_nonempty inside]
  simp [splitLast?, text, Text.splitLast?_separator uncut]

theorem IsSegment.lastSegment_join {name : String} (simple : IsSegment name) (outer : String) :
    lastSegment (join outer name) = name := by
  by_cases root : outer = ""
  · rw [root, join_root, lastSegment, simple.splitLast?_eq]
  · rw [lastSegment, simple.splitLast?_join root]

theorem IsSegment.outerPath_join {name : String} (simple : IsSegment name) (outer : String) :
    Pin.outerPath (join outer name) = outer := by
  by_cases root : outer = ""
  · rw [root, join_root, Pin.outerPath, simple.splitLast?_eq]
  · rw [Pin.outerPath, simple.splitLast?_join root]

theorem toList_of_splitLast? {path outer last : String}
    (cut : splitLast? path = some (outer, last)) :
    path.toList = outer.toList ++ ':' :: ':' :: last.toList := by
  obtain ⟨⟨outerText, lastText⟩, found, same⟩ := Option.map_eq_some_iff.mp cut
  obtain ⟨rfl, rfl⟩ := Prod.mk.inj same
  simpa using Text.append_of_splitLast? found

/-- Only a path with `::` in front is cut off from the root. -/
theorem outer_ne_root {path outer last : String} (unrooted : stripRoot? path = none)
    (cut : splitLast? path = some (outer, last)) : outer ≠ "" := by
  rintro rfl
  simp [stripRoot?, toList_of_splitLast? cut] at unrooted

/-- A path without `::` in front is put together again from its outer path and its last segment. -/
theorem join_outerPath {path : String} (unrooted : stripRoot? path = none) :
    join (Pin.outerPath path) (lastSegment path) = path := by
  cases cut : splitLast? path with
  | none => rw [Pin.outerPath, lastSegment, cut, join_root]
  | some parts =>
    obtain ⟨outer, last⟩ := parts
    rw [Pin.outerPath, lastSegment, cut, join_of_nonempty (outer_ne_root unrooted cut)]
    apply String.toList_inj.mp
    simp [toList_of_splitLast? cut]

theorem IsSegment.segments_eq {name : String} (simple : IsSegment name) :
    segments name = [name] := by
  simp [segments, Text.segments_of_uncut simple.uncut]

theorem IsSegment.stripRoot?_eq {name : String} (simple : IsSegment name) :
    stripRoot? name = none := by
  unfold stripRoot?
  split
  · rename_i rest rooted
    exact absurd (by rw [rooted]; rfl) simple.bare
  · rfl

end Path

/-- Which elements come first of their keys does not matter for the first key that passes a
test. -/
theorem find?_distinctFrom {α : Type} (key : α → String) (test : String → Bool) (xs : List α) :
    ∀ seen : List String, (∀ k ∈ seen, test k = false) →
      (distinctFrom key seen xs).find? (fun x => test (key x)) =
        xs.find? fun x => test (key x) := by
  induction xs with
  | nil => intro seen _; rfl
  | cons x xs ih =>
    intro seen failing
    unfold distinctFrom
    split
    · rename_i known
      have fails := failing (key x) (List.contains_iff_mem.mp known)
      rw [ih seen failing, List.find?_cons, fails]
    · rw [List.find?_cons, List.find?_cons]
      cases passes : test (key x) with
      | true => rfl
      | false => exact ih _ (by simp [passes]; exact failing)

theorem find?_distinctOn {α : Type} (key : α → String) (test : String → Bool) (xs : List α) :
    (distinctOn key xs).find? (fun x => test (key x)) = xs.find? fun x => test (key x) :=
  find?_distinctFrom key test xs [] (by simp)

namespace Store

open DuckInfer.Path (IsSegment lastSegment)

/-! ### Members by owner and by path -/

/-- Constants are declared under simple names, and no namespace has a path with `::` in front. -/
def SimplyNamed (store : Store) : Prop :=
  ∀ pin ∈ store.everyPin,
    (pin.isConstant → IsSegment pin.name) ∧ (pin.isSpace → Path.stripRoot? pin.path = none)

instance (store : Store) : Decidable store.SimplyNamed :=
  inferInstanceAs (Decidable (∀ pin ∈ store.everyPin, _))

theorem path_of_isConstant {pin : Pin} (constant : pin.isConstant) :
    pin.path = Path.join pin.space pin.name ∧ pin.owner? = some pin.space := by
  obtain ⟨name, closure, location, comments, kind, proxyTy⟩ := pin
  cases kind with
  | constant data => cases closure <;> exact ⟨rfl, rfl⟩
  | _ => simp [Pin.isConstant] at constant

theorem owner_of_isSpace {pin : Pin} (space : pin.isSpace) :
    pin.owner? = if pin.path.isEmpty then none else some (Pin.outerPath pin.path) := by
  unfold Pin.owner?
  cases kind : pin.kind with
  | space => rfl
  | _ => simp [Pin.isSpace, kind] at space

/-- A pin that declares a constant or a namespace is a member under a simple name exactly if its
path is the joined one. -/
theorem listed_iff_path {pin : Pin} {name : String} (simple : IsSegment name)
    (constant : pin.isConstant → IsSegment pin.name)
    (rooted : pin.isSpace → Path.stripRoot? pin.path = none)
    (declares : pin.isConstant || pin.isSpace) (space : String) :
    pin.owner? = some space ∧ lastSegment pin.path = name ↔ pin.path = Path.join space name := by
  rcases Bool.or_eq_true _ _ ▸ declares with isConstant | isSpace
  · obtain ⟨path, owner⟩ := path_of_isConstant isConstant
    have own := constant isConstant
    rw [path, owner, own.lastSegment_join]
    constructor
    · rintro ⟨same, rfl⟩
      rw [Option.some.inj same]
    · intro joined
      have outer := congrArg Pin.outerPath joined
      have last := congrArg lastSegment joined
      rw [own.outerPath_join, simple.outerPath_join] at outer
      rw [own.lastSegment_join, simple.lastSegment_join] at last
      exact ⟨by rw [outer], last⟩
  · rw [owner_of_isSpace isSpace]
    constructor
    · rintro ⟨owner, rfl⟩
      split at owner
      · simp at owner
      · rw [← Option.some.inj owner, Path.join_outerPath (rooted isSpace)]
    · intro joined
      have nonempty : pin.path ≠ "" := by
        intro root
        have last := simple.lastSegment_join space
        rw [← joined, root] at last
        exact simple.nonempty last.symm
      rw [if_neg (by simpa using nonempty), joined, simple.outerPath_join, simple.lastSegment_join]
      exact ⟨rfl, rfl⟩

theorem mem_constantsOf {store : Store} (coherent : store.Coherent) {pin : Pin} {space : String} :
    pin ∈ store.constantsOf space ↔
      pin ∈ store.everyPin ∧ pin.owner? = some space ∧ (pin.isConstant || pin.isSpace) = true := by
  rw [coherent.constantsOf]
  simp

theorem hasConstant_iff {store : Store} (coherent : store.Coherent) {path : String} :
    store.hasConstant path = true ↔
      ∃ pin ∈ store.everyPin, pin.path = path ∧ (pin.isConstant || pin.isSpace) = true := by
  rw [hasConstant, coherent.anyAt, List.any_eq_true]
  simp [or_comm]

/-- The first member of a simple name, found by owner, is what is found by the joined path. -/
theorem find?_constantsOf {store : Store} (coherent : store.Coherent) (named : store.SimplyNamed)
    {name : String} (simple : IsSegment name) (space : String) :
    ((store.constantsOf space).find? fun pin => lastSegment pin.path == name).map Pin.path =
      store.directConstant? space name := by
  have listed {pin : Pin} (known : pin ∈ store.everyPin)
      (declares : (pin.isConstant || pin.isSpace) = true) :=
    listed_iff_path simple (named pin known).1 (named pin known).2 declares space
  cases found : (store.constantsOf space).find? fun pin => lastSegment pin.path == name with
  | some pin =>
    have inside := List.mem_of_find?_eq_some found
    obtain ⟨known, owner, declares⟩ := (mem_constantsOf coherent).mp inside
    have last : lastSegment pin.path = name := by simpa using List.find?_some found
    have path := (listed known declares).mp ⟨owner, last⟩
    have declared := (hasConstant_iff coherent).mpr ⟨pin, known, path, declares⟩
    simp [directConstant?, declared, path]
  | none =>
    have missing : ¬ store.hasConstant (Path.join space name) = true := by
      intro declared
      obtain ⟨pin, known, path, declares⟩ := (hasConstant_iff coherent).mp declared
      obtain ⟨owner, last⟩ := (listed known declares).mpr path
      have member := (mem_constantsOf coherent).mpr ⟨known, owner, declares⟩
      exact List.find?_eq_none.mp found pin member (by simpa using last)
    simp [directConstant?, missing]

/-! ### The listing of a namespace -/

/-- The constants of a namespace, then those of some others. -/
def listingWith (store : Store) (space : String) (targets : List String) : List Pin :=
  distinctOn Pin.path (store.constantsOf space ++ targets.flatMap store.constantsOf)

theorem run_visibleConstants (store : Store) (space : String) :
    Id.run (store.visibleConstants space) =
      store.listingWith space (Id.run (store.targetsOf (store.edgesFrom space mixinEdges))) :=
  rfl

theorem find?_listingWith {store : Store} (coherent : store.Coherent) (named : store.SimplyNamed)
    {name : String} (simple : IsSegment name) (space : String) (targets : List String) :
    ((store.listingWith space targets).find? fun pin => lastSegment pin.path == name).map Pin.path =
      (store.directConstant? space name).or
        (targets.findSome? fun target => store.directConstant? target name) := by
  have others : ((targets.flatMap store.constantsOf).find? fun pin =>
      lastSegment pin.path == name).map Pin.path =
        targets.findSome? fun target => store.directConstant? target name := by
    rw [List.find?_flatMap, List.map_findSome?]
    refine congrArg (List.findSome? · targets) (funext fun target => ?_)
    exact find?_constantsOf coherent named simple target
  rw [listingWith, find?_distinctOn Pin.path (fun path => lastSegment path == name),
    List.find?_append, Option.map_or, find?_constantsOf coherent named simple, others]

theorem resolve?_simple {name : String} (simple : IsSegment name) (store : Store) (gate : String) :
    store.resolve? name [gate] =
      (store.directConstant? gate name).or
        ((store.mixinsOf gate).findSome? fun target => store.directConstant? target name) := by
  have filled : name.isEmpty = false := by simpa using simple.nonempty
  simp only [resolve?, resolveWith?, simple.stripRoot?_eq, filled, simple.segments_eq,
    List.foldl_nil, List.findSome?_singleton]
  unfold constantInGate?
  cases store.directConstant? gate name <;> rfl

/-- After any changes, a lookup of a simple name in a namespace finds the path of the first listed
pin that ends in it, and nothing if no listed pin does. The mixins of the namespace have to be the
same whether or not their names are looked up with a mixin hop. -/
theorem resolve?_eq_find?_visibleConstants (changes : List Change) (space name : String)
    (simple : IsSegment name) (named : (afterChanges changes).SimplyNamed)
    (direct : (afterChanges changes).mixinsOf space =
      Id.run ((afterChanges changes).targetsOf
        ((afterChanges changes).edgesFrom space mixinEdges))) :
    (afterChanges changes).resolve? name [space] =
      ((Id.run ((afterChanges changes).visibleConstants space)).find? fun pin =>
        lastSegment pin.path == name).map Pin.path := by
  rw [run_visibleConstants, ← direct, resolve?_simple simple,
    find?_listingWith (coherent_afterChanges changes) named simple]

section Mixins

/-- Module `Outer` with a module `Inner`, which holds a constant `LIMIT`. -/
def innerLimit : List Pin :=
  let outer : Pin := .make "Outer" (some .root) (.space true [])
  let inner : Pin := .make "Inner" (some outer) (.space true [])
  [.root, outer, inner, .make "LIMIT" (some inner) (.constant (.ofTy none))]

/-- Class `Named` includes some modules. -/
def including (names : List String) : List Change :=
  let named : Pin := .make "Named" (some .root) (.space false [])
  [.update "core" innerLimit,
    .update "a.rb" (named :: names.map fun name => .edge named .includes name [])]

/-- `Outer::Inner` names the module by itself, so its constant is listed and found. -/
theorem resolve?_eq_find?_visibleConstants_inner :
    let store := afterChanges (including ["Outer::Inner"])
    (IsSegment "LIMIT" ∧ store.SimplyNamed ∧
      store.mixinsOf "Named" = Id.run (store.targetsOf (store.edgesFrom "Named" mixinEdges))) ∧
      store.resolve? "LIMIT" ["Named"] = some "Outer::Inner::LIMIT" ∧
      store.resolve? "LIMIT" ["Named"] =
        ((Id.run (store.visibleConstants "Named")).find? fun pin =>
          lastSegment pin.path == "LIMIT").map Pin.path := by
  intro store
  have simple : IsSegment "LIMIT" := by decide +kernel
  have named : store.SimplyNamed := by decide +kernel
  have direct : store.mixinsOf "Named" =
      Id.run (store.targetsOf (store.edgesFrom "Named" mixinEdges)) := by decide +kernel
  exact ⟨⟨simple, named, direct⟩, by decide +kernel,
    resolve?_eq_find?_visibleConstants _ "Named" "LIMIT" simple named direct⟩

/-- `Inner` means a module only through `Outer`, which is included too. So the constant of `Inner`
is listed but not found, although all names are simple. -/
theorem resolve?_ne_find?_visibleConstants :
    ¬ ∀ (changes : List Change) (space name : String), IsSegment name →
      (afterChanges changes).SimplyNamed →
      (afterChanges changes).resolve? name [space] =
        ((Id.run ((afterChanges changes).visibleConstants space)).find? fun pin =>
          lastSegment pin.path == name).map Pin.path := by
  intro claimed
  let store := afterChanges (including ["Outer", "Inner"])
  have same := claimed (including ["Outer", "Inner"]) "Named" "LIMIT" (by decide +kernel)
    (by decide +kernel)
  have found : store.resolve? "LIMIT" ["Named"] = none := by decide +kernel
  have listed : ((Id.run (store.visibleConstants "Named")).find? fun pin =>
      lastSegment pin.path == "LIMIT").map Pin.path = some "Outer::Inner::LIMIT" := by
    decide +kernel
  rw [found, listed] at same
  exact absurd same (by simp)

end Mixins

end Store

end DuckInfer
