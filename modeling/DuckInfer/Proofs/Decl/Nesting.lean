import DuckInfer.Proofs.Decl.Edges

/-!
The nesting of the namespaces of a declaration file. A namespace can be nested in one that was
declared before, and the written names are sorted by their number of `::`, those in front included.
Main statement: whatever the order of the file, each namespace stands within the one that the file
declares under its outer path, exactly if some declaration of the outer path has no more `::` in
front of its name than the inner one.
-/

namespace DuckInfer

/-! ### Separators -/

namespace Text

variable {path outer last : List Char}

/-- Number of `::` in front. -/
def rootCount : List Char → Nat
  | ':' :: ':' :: rest => rootCount rest + 1
  | _ => 0

theorem segments_ne_nil (path : List Char) : segments path ≠ [] := by
  fun_cases segments path <;> simp

theorem separatorCount_rooted (path : List Char) :
    separatorCount (':' :: ':' :: path) = separatorCount path + 1 := by
  have filled := List.length_pos_iff.mpr (segments_ne_nil path)
  rw [separatorCount, segments, separatorCount, List.length_cons]
  omega

theorem separatorCount_cons_of_apart {c : Char} {rest : List Char}
    (apart : ∀ last, c = ':' → rest = ':' :: last → False) :
    separatorCount (c :: rest) = separatorCount rest := by
  rw [separatorCount, segments, separatorCount]
  · cases cut : segments rest with
    | nil => exact absurd cut (segments_ne_nil rest)
    | cons segment others => rfl
  · exact apart

theorem separatorCount_of_uncut (uncut : splitLast? path = none) : separatorCount path = 0 := by
  rw [separatorCount, segments_of_uncut uncut]
  rfl

theorem separatorCount_eq (path : List Char) :
    separatorCount path = rootCount path + separatorCount (dropRoots path) := by
  fun_induction dropRoots path with
  | case1 rest ih =>
    rw [separatorCount_rooted, ih, rootCount]
    omega
  | case2 path bare =>
    rw [rootCount, Nat.zero_add]
    exact bare

/-- The outer path of a path has one separator less. -/
theorem separatorCount_of_splitLast? (cut : splitLast? path = some (outer, last)) :
    separatorCount path = separatorCount outer + 1 := by
  fun_induction segments path generalizing outer with
  | case1 => simp [splitLast?] at cut
  | case2 rest ih =>
    rw [separatorCount_rooted]
    cases inner : splitLast? rest with
    | some parts =>
      rw [splitLast?_cons_of_some (splitLast?_cons_of_some inner)] at cut
      obtain ⟨rfl, rfl⟩ := Prod.mk.inj (Option.some.inj cut)
      rw [separatorCount_rooted, ih inner]
    | none =>
      rw [separatorCount_of_uncut inner]
      cases colon : splitLast? (':' :: rest) with
      | none =>
        rw [splitLast?_colons colon] at cut
        obtain ⟨rfl, rfl⟩ := Prod.mk.inj (Option.some.inj cut)
        rfl
      | some parts =>
        -- three colons in a row: the last two are cut off, and one stays
        obtain ⟨tail, rfl⟩ : ∃ tail, rest = ':' :: tail := by
          by_contra bare
          rw [splitLast?_cons_of_apart fun tail _ same => bare ⟨tail, same⟩, inner] at colon
          simp at colon
        rw [splitLast?_cons_of_some (splitLast?_colons inner)] at cut
        obtain ⟨rfl, rfl⟩ := Prod.mk.inj (Option.some.inj cut)
        rfl
  | case3 c rest apart none ih => exact absurd none (segments_ne_nil rest)
  | case4 c rest apart segment others found ih =>
    rw [splitLast?_cons_of_apart apart] at cut
    obtain ⟨⟨inner, innerLast⟩, cutRest, same⟩ := Option.map_eq_some_iff.mp cut
    obtain ⟨rfl, rfl⟩ := Prod.mk.inj same
    rw [separatorCount_cons_of_apart apart, ih cutRest, separatorCount_cons_of_apart]
    rintro tail rfl rfl
    exact apart _ rfl (append_of_splitLast? cutRest)

end Text

namespace Path

variable {path outer : String}

/-- The outer path of a path with more than one segment. -/
def outer? (path : String) : Option String :=
  (splitLast? path).map Prod.fst

theorem outer?_eq_some_iff :
    outer? path = some outer ↔ ∃ last, splitLast? path = some (outer, last) := by
  simp [outer?]

theorem outer?_ne_root (unrooted : stripRoot? path = none) (inside : outer? path = some outer) :
    outer ≠ "" := by
  obtain ⟨last, cut⟩ := outer?_eq_some_iff.mp inside
  exact outer_ne_root unrooted cut

theorem length_of_outer? (inside : outer? path = some outer) :
    outer.toList.length < path.toList.length := by
  obtain ⟨last, cut⟩ := outer?_eq_some_iff.mp inside
  rw [toList_of_splitLast? cut, List.length_append, List.length_cons]
  omega

theorem separatorCount_of_outer? (inside : outer? path = some outer) :
    Text.separatorCount path.toList = Text.separatorCount outer.toList + 1 := by
  obtain ⟨last, cut⟩ := outer?_eq_some_iff.mp inside
  obtain ⟨⟨outerText, lastText⟩, found, same⟩ := Option.map_eq_some_iff.mp cut
  obtain ⟨rfl, rfl⟩ := Prod.mk.inj same
  simpa using Text.separatorCount_of_splitLast? found

end Path

/-! ### Places -/

namespace Pin

variable {a b : Pin}

/-- A pin without the pins around it, with its path and its gates. -/
def outline (pin : Pin) : Pin × String × List String :=
  ({ pin with closure := none }, pin.path, pin.gates)

/-- What is declared in either pin has the same path and the same gates. -/
structure SamePlace (a b : Pin) : Prop where
  path : a.path = b.path
  space : a.space = b.space
  gates : a.gates = b.gates

theorem SamePlace.symm (same : a.SamePlace b) : b.SamePlace a :=
  ⟨same.path.symm, same.space.symm, same.gates.symm⟩

theorem SamePlace.outline_within (same : a.SamePlace b) (pin : Pin) :
    { pin with closure := some a }.outline = { pin with closure := some b }.outline := by
  obtain ⟨name, closure, location, comments, kind, proxyTy⟩ := pin
  have path : Pin.path ⟨name, some a, location, comments, kind, proxyTy⟩ =
      Pin.path ⟨name, some b, location, comments, kind, proxyTy⟩ := by
    cases kind <;> simp only [Pin.path, same.path, same.space]
  have gates : Pin.gates ⟨name, some a, location, comments, kind, proxyTy⟩ =
      Pin.gates ⟨name, some b, location, comments, kind, proxyTy⟩ := by
    cases kind <;> simp only [Pin.gates, same.gates, same.space]
  simp only [outline, path, gates]

/-- Namespaces with the same outline are the same place. -/
theorem samePlace_of_outline (spaceA : a.isSpace) (spaceB : b.isSpace)
    (same : a.outline = b.outline) : a.SamePlace b := by
  obtain ⟨-, path, gates⟩ : _ ∧ a.path = b.path ∧ a.gates = b.gates := by
    simpa only [outline, Prod.mk.injEq] using same
  refine ⟨path, ?_, gates⟩
  rw [space_of_isSpace spaceA, space_of_isSpace spaceB, path]

end Pin

namespace Decl

/-- The path under which a namespace is declared. -/
def SpaceEntry.path (e : SpaceEntry) : String :=
  Path.unrooted e.name

/-- Number of `::` in front of the written name. -/
def SpaceEntry.rootCount (e : SpaceEntry) : Nat :=
  Text.rootCount e.name.toList

/-- The number of `::` by which declarations are sorted. -/
theorem SpaceEntry.separatorCount_name (e : SpaceEntry) :
    Text.separatorCount e.name.toList = e.rootCount + Text.separatorCount e.path.toList := by
  rw [Text.separatorCount_eq, path, Path.unrooted, String.toList_ofList]
  rfl

/-- The scopes of a namespace among declared paths: its own path, then those of the namespace that
is declared under its outer path. -/
def nestedGates (declared : List String) (path : String) : List String :=
  path :: match _ : Path.outer? path with
    | some outer => if outer ∈ declared then nestedGates declared outer else [""]
    | none => [""]
termination_by path.toList.length
decreasing_by exact Path.length_of_outer? ‹_›

section Scopes

variable {declared : List String} {path outer : String}

theorem nestedGates_of_top (top : Path.outer? path = none) :
    nestedGates declared path = [path, ""] := by
  rw [nestedGates]
  split <;> simp_all

theorem nestedGates_of_inside (inside : Path.outer? path = some outer) :
    nestedGates declared path =
      path :: if outer ∈ declared then nestedGates declared outer else [""] := by
  rw [nestedGates]
  split <;> simp_all

end Scopes

/-! ### Namespaces declared by a turn -/

theorem spacePin_eq (spaces : Spaces) (e : SpaceEntry) :
    spacePin spaces e =
      { { Pin.make (spaces.place e.path).2 none (.space e.isModule e.generics) with
          comments := e.comments } with closure := some (spaces.place e.path).1 } := by
  rw [spacePin, SpaceEntry.path]
  cases spaces.place (Path.unrooted e.name)
  rfl

theorem gates_spacePin (spaces : Spaces) (e : SpaceEntry) :
    (spacePin spaces e).gates = (spacePin spaces e).path :: (spaces.place e.path).1.gates := by
  rw [spacePin_eq]
  cases spaces.place e.path
  rfl

theorem Spaces.closure_of_lookup {spaces : Spaces} {path : String} {pin : Pin}
    (inside : path ≠ "") (found : spaces.lookup path = some pin) : spaces.closure path = pin := by
  rw [closure, if_neg (by simpa using inside), found, Option.getD_some]

/-- Each namespace stands under its path, with the scopes that it has among the declared paths. -/
structure Spaces.Settled (declared : List String) (spaces : Spaces) : Prop where
  filed : spaces.Filed
  gates : ∀ entry ∈ spaces, entry.2.gates = nestedGates declared entry.1

/-- The outer path is known by now if it is declared at all. -/
def Spaces.Ready (declared : List String) (spaces : Spaces) (path : String) : Prop :=
  ∀ outer, Path.outer? path = some outer → ((spaces.lookup outer).isSome ↔ outer ∈ declared)

namespace Spaces

variable {spaces spaces' : Spaces} {declared : List String} {path outer : String}
  {pin : Pin} {e : SpaceEntry}

theorem place_of_top (top : Path.outer? path = none) : spaces.place path = (.root, path) := by
  rw [place, Option.map_eq_none_iff.mp top]

theorem place_of_unknown (inside : Path.outer? path = some outer)
    (unknown : ¬ (spaces.lookup outer).isSome) : spaces.place path = (.root, path) := by
  obtain ⟨last, cut⟩ := Path.outer?_eq_some_iff.mp inside
  rw [place, cut]
  exact if_neg unknown

theorem place_of_known (inside : Path.outer? path = some outer)
    (known : (spaces.lookup outer).isSome) :
    spaces.place path = (spaces.closure outer, Path.lastSegment path) := by
  obtain ⟨last, cut⟩ := Path.outer?_eq_some_iff.mp inside
  rw [place, Path.lastSegment, cut]
  exact if_pos known

theorem Settled.gates_lookup (settled : spaces.Settled declared)
    (found : spaces.lookup path = some pin) : pin.gates = nestedGates declared path := by
  obtain ⟨before, after, rfl, -⟩ := List.lookup_eq_some_iff.mp found
  exact settled.gates (path, pin) (by simp)

theorem Settled.path_lookup (settled : spaces.Settled declared)
    (found : spaces.lookup path = some pin) : pin.isSpace ∧ pin.path = path := by
  obtain ⟨before, after, rfl, -⟩ := List.lookup_eq_some_iff.mp found
  exact settled.filed (path, pin) (by simp)

/-- Where the same paths are known, the members of a path have the same place. -/
theorem Settled.samePlace_closure (settled : spaces.Settled declared)
    (settled' : spaces'.Settled declared)
    (known : (spaces.lookup path).isSome ↔ (spaces'.lookup path).isSome) :
    (spaces.closure path).SamePlace (spaces'.closure path) := by
  by_cases root : path = ""
  · subst root
    exact ⟨rfl, rfl, rfl⟩
  cases found : spaces.lookup path with
  | none =>
    have found' : spaces'.lookup path = none :=
      Option.not_isSome_iff_eq_none.mp (mt known.mpr (by rw [found]; simp))
    rw [closure, closure, found, found']
    exact ⟨rfl, rfl, rfl⟩
  | some pin =>
    obtain ⟨pin', found'⟩ := Option.isSome_iff_exists.mp (known.mp (by rw [found]; rfl))
    obtain ⟨space, here⟩ := settled.path_lookup found
    obtain ⟨space', here'⟩ := settled'.path_lookup found'
    rw [closure_of_lookup root found, closure_of_lookup root found']
    refine ⟨here.trans here'.symm, ?_, ?_⟩
    · rw [Pin.space_of_isSpace space, Pin.space_of_isSpace space', here, here']
    · rw [settled.gates_lookup found, settled'.gates_lookup found']

theorem Settled.outline_spacePin (settled : spaces.Settled declared)
    (settled' : spaces'.Settled declared) (ready : spaces.Ready declared e.path)
    (ready' : spaces'.Ready declared e.path) :
    (spacePin spaces e).outline = (spacePin spaces' e).outline := by
  have same : (spaces.place e.path).2 = (spaces'.place e.path).2 ∧
      (spaces.place e.path).1.SamePlace (spaces'.place e.path).1 := by
    cases inside : Path.outer? e.path with
    | none =>
      rw [place_of_top inside, place_of_top inside]
      exact ⟨rfl, rfl, rfl, rfl⟩
    | some outer =>
      have known := (ready outer inside).trans (ready' outer inside).symm
      by_cases found : (spaces.lookup outer).isSome
      · rw [place_of_known inside found, place_of_known inside (known.mp found)]
        exact ⟨rfl, settled.samePlace_closure settled' known⟩
      · rw [place_of_unknown inside found, place_of_unknown inside (mt known.mpr found)]
        exact ⟨rfl, rfl, rfl, rfl⟩
  rw [spacePin_eq, spacePin_eq, same.1]
  exact same.2.outline_within _

theorem Settled.gates_spacePin (settled : spaces.Settled declared)
    (ready : spaces.Ready declared e.path) :
    (spacePin spaces e).gates = nestedGates declared e.path := by
  have path : (spacePin spaces e).path = e.path := settled.filed.path_spacePin e
  rw [Decl.gates_spacePin, path]
  cases inside : Path.outer? e.path with
  | none =>
    rw [place_of_top inside, nestedGates_of_top inside]
    rfl
  | some outer =>
    have filled := Path.outer?_ne_root (Path.stripRoot?_unrooted e.name) inside
    rw [nestedGates_of_inside inside]
    by_cases found : (spaces.lookup outer).isSome
    · obtain ⟨pin, here⟩ := Option.isSome_iff_exists.mp found
      rw [place_of_known inside found, if_pos ((ready outer inside).mp found),
        closure_of_lookup filled here, settled.gates_lookup here]
    · rw [place_of_unknown inside found, if_neg (mt (ready outer inside).mpr found)]
      rfl

/-- The namespaces known after one more declaration. -/
def add (spaces : Spaces) (e : SpaceEntry) : Spaces :=
  ((spacePin spaces e).path, spacePin spaces e) :: spaces

theorem Settled.add (settled : spaces.Settled declared) (ready : spaces.Ready declared e.path) :
    (spaces.add e).Settled declared where
  filed := settled.filed.cons (isSpace_spacePin spaces e)
  gates := by
    refine List.forall_mem_cons.mpr ⟨?_, settled.gates⟩
    rw [settled.gates_spacePin ready, settled.filed.path_spacePin e]
    rfl

end Spaces

/-! ### A run over all namespaces -/

/-- The namespaces known after several declarations. -/
def declareAll (ds : List SpaceEntry) : Spaces :=
  ds.foldl Spaces.add []

/-- Each declaration with the pin that it gets by its turn. -/
def placements : Spaces → List SpaceEntry → List (SpaceEntry × Pin)
  | _, [] => []
  | spaces, e :: ds => (e, spacePin spaces e) :: placements (spaces.add e) ds

section Runs

variable {spaces : Spaces} {ds before after : List SpaceEntry} {e : SpaceEntry} {pin : Pin}
  {declared : List String} {path : String}

theorem declareAll_concat (ds : List SpaceEntry) (e : SpaceEntry) :
    declareAll (ds ++ [e]) = (declareAll ds).add e := by
  simp [declareAll]

/-- Placing the namespaces does not depend on what is read from their edges. -/
theorem spacesPins_eq (file : String) (spaces : Spaces) (ds : List SpaceEntry) :
    spacesPins file spaces ds =
      (fun own => (ds.foldl Spaces.add spaces, own.flatten)) <$>
        (placements spaces ds).mapM fun p => spacePins file p.1 p.2 := by
  induction ds generalizing spaces with
  | nil => rfl
  | cons e ds ih =>
    rw [spacesPins, placements, List.mapM_cons]
    cases spacePins file e (spacePin spaces e) with
    | error failure => rfl
    | ok own =>
      show (spacesPins file (spaces.add e) ds >>= _) = _
      rw [ih]
      cases (placements (spaces.add e) ds).mapM fun p => spacePins file p.1 p.2 <;> rfl

theorem map_fst_placements (spaces : Spaces) (ds : List SpaceEntry) :
    (placements spaces ds).map Prod.fst = ds := by
  induction ds generalizing spaces with
  | nil => rfl
  | cons e ds ih => rw [placements, List.map_cons, ih]

theorem exists_placement (spaces : Spaces) (listed : e ∈ ds) :
    ∃ pin, (e, pin) ∈ placements spaces ds := by
  rw [← map_fst_placements spaces ds] at listed
  obtain ⟨⟨_, pin⟩, placed, rfl⟩ := List.mem_map.mp listed
  exact ⟨pin, placed⟩

/-- A declaration gets its pin among the namespaces that are declared before. -/
theorem mem_placements : (e, pin) ∈ placements spaces ds ↔
    ∃ before after, ds = before ++ e :: after ∧
      pin = spacePin (before.foldl Spaces.add spaces) e := by
  induction ds generalizing spaces with
  | nil => simp [placements]
  | cons d ds ih =>
    rw [placements, List.mem_cons, ih]
    constructor
    · rintro (same | ⟨before, after, rfl, rfl⟩)
      · obtain ⟨rfl, rfl⟩ := Prod.mk.inj same
        exact ⟨[], ds, rfl, rfl⟩
      · exact ⟨d :: before, after, rfl, rfl⟩
    · rintro ⟨before, after, split, rfl⟩
      cases before with
      | nil =>
        obtain ⟨rfl, rfl⟩ := List.cons.inj split
        exact .inl rfl
      | cons first before =>
        obtain ⟨rfl, rfl⟩ := List.cons.inj split
        exact .inr ⟨before, after, rfl, rfl⟩

theorem filed_declareAll (ds : List SpaceEntry) : (declareAll ds).Filed := by
  induction ds using List.reverseRecOn with
  | nil => exact fun entry member => absurd member List.not_mem_nil
  | append_singleton ds e ih =>
    rw [declareAll_concat]
    exact ih.cons (isSpace_spacePin _ e)

theorem isSome_lookup_declareAll :
    ((declareAll ds).lookup path).isSome ↔ path ∈ ds.map SpaceEntry.path := by
  induction ds using List.reverseRecOn with
  | nil => simp [declareAll]
  | append_singleton ds e ih =>
    have here : (spacePin (declareAll ds) e).path = e.path := (filed_declareAll ds).path_spacePin e
    rw [declareAll_concat, Spaces.add, here, List.lookup_cons]
    by_cases same : path = e.path
    · simp [same]
    · rw [beq_false_of_ne same]
      simpa [same] using ih

theorem path_of_placement (placed : (e, pin) ∈ placements [] ds) :
    e ∈ ds ∧ pin.isSpace ∧ pin.path = e.path := by
  obtain ⟨before, after, split, rfl⟩ := mem_placements.mp placed
  exact ⟨by simp [split], isSpace_spacePin _ e, (filed_declareAll before).path_spacePin e⟩

/-- An outer path that is declared at all is declared before each inner one. -/
def Punctual (ds : List SpaceEntry) : Prop :=
  ∀ before e after, ds = before ++ e :: after → ∀ outer ∈ ds,
    Path.outer? e.path = some outer.path → outer.path ∈ before.map SpaceEntry.path

variable (all : ∀ path, path ∈ ds.map SpaceEntry.path ↔ path ∈ declared)
include all

theorem ready_declareAll (path : String) : (declareAll ds).Ready declared path :=
  fun outer _ => isSome_lookup_declareAll.trans (all outer)

theorem Punctual.ready (punctual : Punctual ds) (split : ds = before ++ e :: after) :
    (declareAll before).Ready declared e.path := by
  intro outer inside
  rw [isSome_lookup_declareAll, ← all]
  constructor
  · intro known
    rw [split, List.map_append]
    exact List.mem_append_left _ known
  · intro known
    obtain ⟨other, listed, rfl⟩ := List.mem_map.mp known
    exact punctual before e after split other listed inside

theorem Punctual.settled (punctual : Punctual ds) (split : ds = before ++ after) :
    (declareAll before).Settled declared := by
  induction before using List.reverseRecOn generalizing after with
  | nil =>
    exact ⟨filed_declareAll [], fun entry member => absurd member List.not_mem_nil⟩
  | append_singleton before e ih =>
    rw [List.append_assoc, List.singleton_append] at split
    rw [declareAll_concat]
    exact (ih split).add (punctual.ready all split)

/-- By its turn, a namespace gets the place and the outline that it would have with all of them
declared. -/
theorem Punctual.placement_alike (punctual : Punctual ds) {full : Spaces}
    (settled : full.Settled declared) (ready : ∀ path, full.Ready declared path)
    (placed : (e, pin) ∈ placements [] ds) :
    pin.SamePlace (spacePin full e) ∧ pin.outline = (spacePin full e).outline := by
  obtain ⟨before, after, split, same⟩ := mem_placements.mp placed
  have outline : pin.outline = (spacePin full e).outline := by
    rw [same]
    exact (punctual.settled all split).outline_spacePin settled (punctual.ready all split)
      (ready e.path)
  have space : pin.isSpace := same ▸ isSpace_spacePin _ e
  exact ⟨Pin.samePlace_of_outline space (isSpace_spacePin _ e) outline, outline⟩

theorem Punctual.gates_placement (punctual : Punctual ds) (placed : (e, pin) ∈ placements [] ds) :
    pin.gates = nestedGates declared e.path := by
  obtain ⟨before, after, split, rfl⟩ := mem_placements.mp placed
  exact (punctual.settled all split).gates_spacePin (punctual.ready all split)

end Runs

/-! ### Readings of a list -/

section Readings

variable {ε α β γ : Type} {f g : α → Except ε β} {xs xs' : List α} {ys : List β}

theorem mapM_eq_ok_iff : xs.mapM f = .ok ys ↔ List.Forall₂ (fun x y => f x = .ok y) xs ys := by
  induction xs generalizing ys with
  | nil =>
    rw [List.mapM_nil, List.forall₂_nil_left_iff]
    constructor
    · intro done
      cases done
      rfl
    · rintro rfl
      rfl
  | cons x xs ih =>
    rw [List.mapM_cons, List.forall₂_cons_left_iff]
    constructor
    · intro done
      obtain ⟨y, read, done⟩ := exists_of_bind_eq_ok done
      obtain ⟨more, rest, done⟩ := exists_of_bind_eq_ok done
      cases done
      exact ⟨y, more, read, ih.mp rest, rfl⟩
    · rintro ⟨y, more, read, rest, rfl⟩
      rw [read, ih.mpr rest]
      rfl

theorem exists_of_mem_mapM (done : xs.mapM f = .ok ys) {y : β} (member : y ∈ ys) :
    ∃ x ∈ xs, f x = .ok y := by
  induction mapM_eq_ok_iff.mp done with
  | nil => exact absurd member List.not_mem_nil
  | cons read rest ih =>
    rcases List.mem_cons.mp member with rfl | later
    · exact ⟨_, List.mem_cons_self, read⟩
    · obtain ⟨x, listed, read'⟩ := ih (mapM_eq_ok_iff.mpr rest) later
      exact ⟨x, List.mem_cons_of_mem _ listed, read'⟩

theorem exists_mapM_eq_ok (each : ∀ x ∈ xs, ∃ y, f x = .ok y) : ∃ ys, xs.mapM f = .ok ys := by
  induction xs with
  | nil => exact ⟨[], rfl⟩
  | cons x xs ih =>
    obtain ⟨⟨y, read⟩, rest⟩ := List.forall_mem_cons.mp each
    obtain ⟨ys, read'⟩ := ih rest
    exact ⟨y :: ys, by rw [List.mapM_cons, read, read']; rfl⟩

/-- Readings that look alike one by one look alike as a whole. -/
theorem mapM_alike (view : β → γ)
    (alike : ∀ x ∈ xs, ∀ y, f x = .ok y → ∃ z, g x = .ok z ∧ view z = view y)
    (done : xs.mapM f = .ok ys) : ∃ zs, xs.mapM g = .ok zs ∧ zs.map view = ys.map view := by
  simp only [mapM_eq_ok_iff] at done ⊢
  induction done with
  | nil => exact ⟨[], .nil, rfl⟩
  | cons read rest ih =>
    obtain ⟨z, read', same⟩ := alike _ List.mem_cons_self _ read
    obtain ⟨zs, rest', sameRest⟩ := ih fun x listed => alike x (List.mem_cons_of_mem _ listed)
    exact ⟨z :: zs, .cons read' rest', congrArg₂ List.cons same sameRest⟩

theorem mapM_perm (perm : xs'.Perm xs) (done : xs.mapM f = .ok ys) :
    ∃ ys', xs'.mapM f = .ok ys' ∧ ys'.Perm ys := by
  obtain ⟨ys', read, same⟩ := List.perm_comp_forall₂ perm (mapM_eq_ok_iff.mp done)
  exact ⟨ys', mapM_eq_ok_iff.mpr read, same⟩

end Readings

/-! ### Pins of one declaration at a place -/

section Members

variable {file : String} {e : SpaceEntry} {a b : Pin} {own : List Pin}
  {spaces spaces' : Spaces}

theorem edgePin_alike (same : a.SamePlace b) {path text : String} {kind : EdgeKind} {edge : Pin}
    (read : edgePin file path a kind text = .ok edge) :
    ∃ edge', edgePin file path b kind text = .ok edge' ∧ edge'.outline = edge.outline := by
  unfold edgePin at read
  obtain ⟨t, spelled, read⟩ := exists_of_bind_eq_ok read
  cases read
  refine ⟨_, by rw [edgePin, spelled]; rfl, ?_⟩
  exact (same.outline_within (.make _ none _)).symm

theorem spacePins_eq (file : String) (e : SpaceEntry) (pin : Pin) :
    spacePins file e pin = (fun edges => pin :: edges) <$>
      (edgeTexts e).mapM fun edge => edgePin file e.path pin edge.1 edge.2 := by
  show ((edgeTexts e).mapM fun edge => edgePin file e.path pin edge.1 edge.2) >>= _ = _
  cases (edgeTexts e).mapM fun edge => edgePin file e.path pin edge.1 edge.2 <;> rfl

theorem spacePins_alike (same : a.SamePlace b) (outline : a.outline = b.outline)
    (read : spacePins file e a = .ok own) :
    ∃ own', spacePins file e b = .ok own' ∧ own'.map Pin.outline = own.map Pin.outline := by
  unfold spacePins at read
  obtain ⟨edges, edgesRead, read⟩ := exists_of_bind_eq_ok read
  cases read
  obtain ⟨edges', edgesRead', sameEdges⟩ :=
    mapM_alike Pin.outline (fun _ _ _ read => edgePin_alike same read) edgesRead
  refine ⟨b :: edges', by rw [spacePins, edgesRead']; rfl, ?_⟩
  rw [List.map_cons, List.map_cons, outline, sameEdges]

theorem methodPin_alike {d : MethodEntry} {pin : Pin}
    (same : ∀ path, (spaces.closure path).SamePlace (spaces'.closure path))
    (read : methodPin file spaces d = .ok pin) :
    ∃ pin', methodPin file spaces' d = .ok pin' ∧ pin'.outline = pin.outline := by
  unfold methodPin at read
  obtain ⟨signatures, signaturesRead, read⟩ := exists_of_bind_eq_ok read
  cases read
  refine ⟨_, by rw [methodPin, signaturesRead]; rfl, ?_⟩
  exact ((same _).outline_within
    { Pin.make d.name none (.method d.scope d.visibility signatures) with
      comments := d.comments }).symm

/-- What is written about the type of a constant. -/
def constantTy (file : String) (d : ConstantEntry) : Except FileFailure (Option Ty) :=
  match d.ty with
  | some text => some <$> readTy file ("constant " ++ d.name) text
  | none => .ok none

theorem constantPin_eq (file : String) (spaces : Spaces) (d : ConstantEntry) :
    constantPin file spaces d = (fun ty =>
      { { Pin.make d.name none (.constant (.ofTy ty)) with comments := d.comments } with
        closure := some (spaces.closure (Path.unrooted d.space)) }) <$> constantTy file d := by
  unfold constantPin constantTy
  cases d.ty with
  | none => rfl
  | some text =>
    show (some <$> readTy file _ text >>= _) = _ <$> some <$> readTy file _ text
    cases readTy file _ text <;> rfl

theorem constantPin_alike {d : ConstantEntry} {pin : Pin}
    (same : ∀ path, (spaces.closure path).SamePlace (spaces'.closure path))
    (read : constantPin file spaces d = .ok pin) :
    ∃ pin', constantPin file spaces' d = .ok pin' ∧ pin'.outline = pin.outline := by
  rw [constantPin_eq] at read
  obtain ⟨ty, tyRead, read⟩ := exists_of_bind_eq_ok read
  cases read
  refine ⟨_, by rw [constantPin_eq, tyRead]; rfl, ?_⟩
  exact ((same _).outline_within
    { Pin.make d.name none (.constant (.ofTy ty)) with comments := d.comments }).symm

end Members

/-! ### Pins of a file in any order -/

section Files

variable {file : String} {d : File} {pins : List Pin}

theorem filePins_eq_ok_iff : filePins file d = .ok pins ↔
    ∃ own methods constants overrides,
      (placements [] (outerFirst d.spaces)).mapM (fun p => spacePins file p.1 p.2) = .ok own ∧
      d.methods.mapM (methodPin file (declareAll (outerFirst d.spaces))) = .ok methods ∧
      d.constants.mapM (constantPin file (declareAll (outerFirst d.spaces))) = .ok constants ∧
      d.overrides.mapM (overridePin file) = .ok overrides ∧
      pins = own.flatten ++ methods ++ constants ++ overrides := by
  unfold filePins
  rw [spacesPins_eq]
  constructor
  · intro read
    obtain ⟨⟨spaces, spacePins⟩, ownRead, read⟩ := exists_of_bind_eq_ok read
    obtain ⟨methods, methodsRead, read⟩ := exists_of_bind_eq_ok read
    obtain ⟨constants, constantsRead, read⟩ := exists_of_bind_eq_ok read
    obtain ⟨overrides, overridesRead, read⟩ := exists_of_bind_eq_ok read
    cases read
    obtain ⟨own, found, same⟩ := exists_of_bind_eq_ok ownRead
    cases same
    exact ⟨own, methods, constants, overrides, found, methodsRead, constantsRead, overridesRead,
      rfl⟩
  · rintro ⟨own, methods, constants, overrides, ownRead, methodsRead, constantsRead,
      overridesRead, rfl⟩
    rw [ownRead]
    show (d.methods.mapM (methodPin file (declareAll _)) >>= _) = _
    rw [methodsRead]
    show (d.constants.mapM (constantPin file (declareAll _)) >>= _) = _
    rw [constantsRead, overridesRead]
    rfl

/-- The namespaces among the pins of a file are the ones that get a place. -/
theorem exists_placement_of_isSpace (read : filePins file d = .ok pins) {pin : Pin}
    (member : pin ∈ pins) (space : pin.isSpace) :
    ∃ e, (e, pin) ∈ placements [] (outerFirst d.spaces) := by
  obtain ⟨own, methods, constants, overrides, ownRead, methodsRead, constantsRead, overridesRead,
    rfl⟩ := filePins_eq_ok_iff.mp read
  simp only [List.mem_append, List.mem_flatten] at member
  obtain ((⟨group, listed, inside⟩ | isMethod) | isConstant) | isOverride := member
  · obtain ⟨⟨e, placed⟩, turn, groupRead⟩ := exists_of_mem_mapM ownRead listed
    unfold spacePins at groupRead
    obtain ⟨edges, edgesRead, groupRead⟩ := exists_of_bind_eq_ok groupRead
    cases groupRead
    rcases List.mem_cons.mp inside with rfl | isEdge
    · exact ⟨e, turn⟩
    · obtain ⟨⟨kind, text⟩, -, edgeRead⟩ := exists_of_mem_mapM edgesRead isEdge
      obtain ⟨t, -, made⟩ := exists_of_bind_eq_ok edgeRead
      cases made
      cases space
  · obtain ⟨m, -, made⟩ := exists_of_mem_mapM methodsRead isMethod
    obtain ⟨signatures, -, made⟩ := exists_of_bind_eq_ok made
    cases made
    cases space
  · obtain ⟨c, -, made⟩ := exists_of_mem_mapM constantsRead isConstant
    rw [constantPin_eq] at made
    obtain ⟨ty, -, made⟩ := exists_of_bind_eq_ok made
    cases made
    cases space
  · obtain ⟨o, -, made⟩ := exists_of_mem_mapM overridesRead isOverride
    obtain ⟨t, -, made⟩ := exists_of_bind_eq_ok made
    cases made
    cases space

theorem exists_group_of_placement (read : filePins file d = .ok pins) {e : SpaceEntry} {pin : Pin}
    (placed : (e, pin) ∈ placements [] (outerFirst d.spaces)) :
    ∃ edges, (edgeTexts e).mapM (fun edge => edgePin file e.path pin edge.1 edge.2) = .ok edges ∧
      ∀ p ∈ pin :: edges, p ∈ pins := by
  obtain ⟨own, methods, constants, overrides, ownRead, -, -, -, rfl⟩ :=
    filePins_eq_ok_iff.mp read
  obtain ⟨group, listed, groupRead⟩ := exists_of_mapM_eq_ok ownRead placed
  unfold spacePins at groupRead
  obtain ⟨edges, edgesRead, groupRead⟩ := exists_of_bind_eq_ok groupRead
  cases groupRead
  refine ⟨edges, edgesRead, fun p member => ?_⟩
  simp only [List.mem_append, List.mem_flatten]
  exact .inl (.inl (.inl ⟨_, listed, member⟩))

theorem mem_of_placement (read : filePins file d = .ok pins) {e : SpaceEntry} {pin : Pin}
    (placed : (e, pin) ∈ placements [] (outerFirst d.spaces)) : pin ∈ pins := by
  obtain ⟨edges, -, inside⟩ := exists_group_of_placement read placed
  exact inside pin List.mem_cons_self

/-- Each namespace whose outer path is declared too stands within it. -/
def Nested (pins : List Pin) : Prop :=
  ∀ inner ∈ pins, inner.isSpace → ∀ outer ∈ pins, outer.isSpace →
    Path.outer? inner.path = some outer.path → inner.gates = inner.path :: outer.gates

theorem Punctual.nested (punctual : Punctual (outerFirst d.spaces))
    (read : filePins file d = .ok pins) : Nested pins := by
  intro inner member space outer outerMember outerSpace inside
  obtain ⟨e, placed⟩ := exists_placement_of_isSpace read member space
  obtain ⟨o, outerPlaced⟩ := exists_placement_of_isSpace read outerMember outerSpace
  obtain ⟨-, -, here⟩ := path_of_placement placed
  obtain ⟨listed, -, there⟩ := path_of_placement outerPlaced
  rw [here, there] at inside
  rw [punctual.gates_placement (fun _ => Iff.rfl) placed, here,
    punctual.gates_placement (fun _ => Iff.rfl) outerPlaced, nestedGates_of_inside inside,
    if_pos (List.mem_map_of_mem listed)]

theorem mapM_placements {β : Type} (read : SpaceEntry → Except FileFailure β) (spaces : Spaces)
    (ds : List SpaceEntry) : (placements spaces ds).mapM (fun p => read p.1) = ds.mapM read := by
  rw [← map_fst_placements spaces ds, List.mapM_map, map_fst_placements]
  rfl

section Known

variable {ds : List SpaceEntry} {declared : List String} {full : Spaces}
  {own : List (List Pin)} (punctual : Punctual ds)
  (all : ∀ path, path ∈ ds.map SpaceEntry.path ↔ path ∈ declared)
  (settled : full.Settled declared) (ready : ∀ path, full.Ready declared path)
include punctual all settled ready

/-- The pins of the namespaces look like those of a run that knows all of them from the start. -/
theorem Punctual.exists_known
    (read : (placements [] ds).mapM (fun p => spacePins file p.1 p.2) = .ok own) :
    ∃ known, ds.mapM (fun e => spacePins file e (spacePin full e)) = .ok known ∧
      known.map (List.map Pin.outline) = own.map (List.map Pin.outline) := by
  rw [← mapM_placements _ []]
  refine mapM_alike (List.map Pin.outline) ?_ read
  rintro ⟨e, pin⟩ placed pins read
  obtain ⟨place, outline⟩ := punctual.placement_alike all settled ready placed
  exact spacePins_alike place outline read

theorem Punctual.exists_of_known {known : List (List Pin)}
    (read : ds.mapM (fun e => spacePins file e (spacePin full e)) = .ok known) :
    ∃ own, (placements [] ds).mapM (fun p => spacePins file p.1 p.2) = .ok own ∧
      own.map (List.map Pin.outline) = known.map (List.map Pin.outline) := by
  rw [← mapM_placements _ []] at read
  refine mapM_alike (List.map Pin.outline) ?_ read
  rintro ⟨e, pin⟩ placed pins read
  obtain ⟨place, outline⟩ := punctual.placement_alike all settled ready placed
  exact spacePins_alike place.symm outline.symm read

end Known

/-- In another order in which every outer path is declared in time, the namespaces and their edges
have the same outlines. -/
theorem Punctual.own_reordered {ds ds' : List SpaceEntry} {own : List (List Pin)}
    (punctual : Punctual ds) (punctual' : Punctual ds') (perm : ds'.Perm ds)
    (read : (placements [] ds).mapM (fun p => spacePins file p.1 p.2) = .ok own) :
    ∃ own', (placements [] ds').mapM (fun p => spacePins file p.1 p.2) = .ok own' ∧
      (own'.flatten.map Pin.outline).Perm (own.flatten.map Pin.outline) := by
  have all : ∀ path, path ∈ ds.map SpaceEntry.path ↔ path ∈ ds.map SpaceEntry.path :=
    fun path => Iff.rfl
  have all' : ∀ path, path ∈ ds'.map SpaceEntry.path ↔ path ∈ ds.map SpaceEntry.path :=
    fun path => (perm.map _).mem_iff
  have settled := punctual.settled all (List.append_nil ds).symm
  have ready := ready_declareAll all
  obtain ⟨known, knownRead, same⟩ := punctual.exists_known all settled ready read
  obtain ⟨known', knownRead', perm'⟩ := mapM_perm perm knownRead
  obtain ⟨own', read', same'⟩ := punctual'.exists_of_known all' settled ready knownRead'
  refine ⟨own', read', ?_⟩
  rw [List.map_flatten, List.map_flatten, same', ← same]
  exact (perm'.map _).flatten

/-- In another order in which every outer path is declared in time, the pins have the same
outlines. -/
theorem Punctual.reordered {spaces : List SpaceEntry}
    (punctual : Punctual (outerFirst d.spaces)) (punctual' : Punctual (outerFirst spaces))
    (perm : spaces.Perm d.spaces) (read : filePins file d = .ok pins) :
    ∃ pins', filePins file { d with spaces := spaces } = .ok pins' ∧
      (pins'.map Pin.outline).Perm (pins.map Pin.outline) := by
  have turns : (outerFirst spaces).Perm (outerFirst d.spaces) :=
    (List.mergeSort_perm _ _).trans (perm.trans (List.mergeSort_perm _ _).symm)
  have all : ∀ path, path ∈ (outerFirst spaces).map SpaceEntry.path ↔
      path ∈ (outerFirst d.spaces).map SpaceEntry.path := fun path => (turns.map _).mem_iff
  have settled := punctual.settled (fun _ => Iff.rfl) (List.append_nil _).symm
  have settled' := punctual'.settled all (List.append_nil _).symm
  have closures : ∀ path, ((declareAll (outerFirst d.spaces)).closure path).SamePlace
      ((declareAll (outerFirst spaces)).closure path) := fun path =>
    settled.samePlace_closure settled'
      (isSome_lookup_declareAll.trans ((all path).symm.trans isSome_lookup_declareAll.symm))
  obtain ⟨own, methods, constants, overrides, ownRead, methodsRead, constantsRead, overridesRead,
    rfl⟩ := filePins_eq_ok_iff.mp read
  obtain ⟨own', ownRead', ownSame⟩ := punctual.own_reordered punctual' turns ownRead
  obtain ⟨methods', methodsRead', methodsSame⟩ :=
    mapM_alike Pin.outline (fun _ _ _ read => methodPin_alike closures read) methodsRead
  obtain ⟨constants', constantsRead', constantsSame⟩ :=
    mapM_alike Pin.outline (fun _ _ _ read => constantPin_alike closures read) constantsRead
  refine ⟨_, filePins_eq_ok_iff.mpr ⟨own', methods', constants', overrides, ownRead',
    methodsRead', constantsRead', overridesRead, rfl⟩, ?_⟩
  simp only [List.map_append, methodsSame, constantsSame]
  exact ((ownSame.append_right _).append_right _).append_right _

end Files

/-! ### Sorting by separators -/

/-- Some declaration of each declared outer path has no more `::` in front of its name than the
inner namespace. -/
def RootsAscend (ds : List SpaceEntry) : Prop :=
  ∀ inner ∈ ds, ∀ outer ∈ ds, Path.outer? inner.path = some outer.path →
    ∃ other ∈ ds, other.path = outer.path ∧ other.rootCount ≤ inner.rootCount

section Sorting

variable {ds ds' : List SpaceEntry}

theorem RootsAscend.perm (ascend : RootsAscend ds) (perm : ds'.Perm ds) : RootsAscend ds' := by
  intro inner listed outer outerListed inside
  obtain ⟨other, otherListed, found⟩ := ascend inner (perm.mem_iff.mp listed) outer
    (perm.mem_iff.mp outerListed) inside
  exact ⟨other, perm.mem_iff.mpr otherListed, found⟩

/-- The order of declaration. -/
def comesFirst (a b : SpaceEntry) : Bool :=
  Text.separatorCount a.name.toList ≤ Text.separatorCount b.name.toList

theorem comesFirst_trans (a b c : SpaceEntry) (first : comesFirst a b) (second : comesFirst b c) :
    comesFirst a c := by
  simp only [comesFirst, decide_eq_true_eq] at *
  omega

theorem comesFirst_total (a b : SpaceEntry) : comesFirst a b || comesFirst b a := by
  simp only [comesFirst, Bool.or_eq_true, decide_eq_true_eq]
  omega

theorem pairwise_outerFirst (ds : List SpaceEntry) :
    (outerFirst ds).Pairwise fun a b =>
      Text.separatorCount a.name.toList ≤ Text.separatorCount b.name.toList :=
  (List.pairwise_mergeSort comesFirst_trans comesFirst_total ds).imp of_decide_eq_true

/-- A namespace that stands first in the file comes before all with as many `::`. -/
theorem outerFirst_cons (e : SpaceEntry) (ds : List SpaceEntry) :
    ∃ before after, outerFirst (e :: ds) = before ++ e :: after ∧ ∀ b ∈ before,
      Text.separatorCount b.name.toList < Text.separatorCount e.name.toList := by
  obtain ⟨before, after, split, -, less⟩ :=
    List.mergeSort_cons comesFirst_trans comesFirst_total e ds
  refine ⟨before, after, split, fun b listed => ?_⟩
  simpa [comesFirst] using less b listed

theorem RootsAscend.punctual (ascend : RootsAscend ds) : Punctual (outerFirst ds) := by
  intro before e after split outer outerListed inside
  have listed : e ∈ outerFirst ds := by simp [split]
  obtain ⟨other, otherListed, same, fewer⟩ := ascend e (List.mem_mergeSort.mp listed) outer
    (List.mem_mergeSort.mp outerListed) inside
  have less : Text.separatorCount other.name.toList < Text.separatorCount e.name.toList := by
    rw [e.separatorCount_name, other.separatorCount_name, same,
      Path.separatorCount_of_outer? inside]
    omega
  have sorted := pairwise_outerFirst ds
  have found : other ∈ outerFirst ds := List.mem_mergeSort.mpr otherListed
  rw [split] at sorted found
  rw [← same]
  rcases List.mem_append.mp found with early | late
  · exact List.mem_map_of_mem early
  · have later := (List.pairwise_append.mp sorted).2.1
    rcases List.mem_cons.mp late with rfl | late
    · omega
    · have := (List.pairwise_cons.mp later).1 other late
      omega

/-- Put first in the file, a namespace with fewer `::` in front than all declarations of its outer
path is not nested. -/
theorem gates_placement_of_fewer {inner outer : SpaceEntry}
    (inside : Path.outer? inner.path = some outer.path)
    (fewer : ∀ other ∈ inner :: ds, other.path = outer.path →
      inner.rootCount < other.rootCount) :
    ∃ pin, (inner, pin) ∈ placements [] (outerFirst (inner :: ds)) ∧ pin.path = inner.path ∧
      pin.gates = [inner.path, ""] := by
  obtain ⟨before, after, split, less⟩ := outerFirst_cons inner ds
  have path : (spacePin (declareAll before) inner).path = inner.path :=
    (filed_declareAll before).path_spacePin inner
  refine ⟨_, mem_placements.mpr ⟨before, after, split, rfl⟩, path, ?_⟩
  have unknown : ¬ ((declareAll before).lookup outer.path).isSome := by
    rw [isSome_lookup_declareAll]
    intro known
    obtain ⟨other, early, same⟩ := List.mem_map.mp known
    have below := less other early
    have listed : other ∈ outerFirst (inner :: ds) := by simp [split, early]
    have above := fewer other (List.mem_mergeSort.mp listed) same
    rw [inner.separatorCount_name, other.separatorCount_name, same,
      Path.separatorCount_of_outer? inside] at below
    omega
  show (spacePin (declareAll before) inner).gates = _
  rw [gates_spacePin, path, Spaces.place_of_unknown inside unknown]
  rfl

end Sorting

/-! ### Nesting in any order -/

/-- In whatever order a file lists its namespaces, it has the same pins with the same paths and
gates, and each namespace stands within the one declared under its outer path. So it is exactly if
some declaration of each outer path has no more `::` in front of its name than the inner one. -/
theorem nested_anyOrder_iff {file : String} {d : File} {pins : List Pin}
    (read : filePins file d = .ok pins) :
    (∀ spaces, spaces.Perm d.spaces →
      ∃ pins', filePins file { d with spaces := spaces } = .ok pins' ∧
        (pins'.map Pin.outline).Perm (pins.map Pin.outline) ∧ Nested pins' ∧
        ∀ e ∈ d.spaces, ∃ pin ∈ pins', pin.isSpace ∧ pin.path = e.path) ↔
      RootsAscend d.spaces := by
  constructor
  · intro always inner listed outer outerListed inside
    by_contra! fewer
    obtain ⟨before, after, split⟩ := List.append_of_mem listed
    have perm : (inner :: (before ++ after)).Perm d.spaces := split ▸ List.perm_middle.symm
    obtain ⟨pins', read', -, nested, pinned⟩ := always _ perm
    obtain ⟨pin, placed, path, gates⟩ := gates_placement_of_fewer inside
      fun other known => fewer other (perm.mem_iff.mp known)
    obtain ⟨outerPin, outerMember, outerSpace, outerPath⟩ := pinned outer outerListed
    have within := nested pin (mem_of_placement read' placed) (path_of_placement placed).2.1
      outerPin outerMember outerSpace (by rw [path, outerPath, inside])
    -- the scopes of the outer namespace start with its path, which is not the root
    obtain ⟨o, outerPlaced⟩ := exists_placement_of_isSpace read' outerMember outerSpace
    obtain ⟨_, _, -, rfl⟩ := mem_placements.mp outerPlaced
    rw [gates, path, gates_spacePin, outerPath] at within
    have root : outer.path = "" := (List.cons.inj (List.cons.inj within).2).1.symm
    exact Path.outer?_ne_root (Path.stripRoot?_unrooted inner.name) inside root
  · intro ascend spaces perm
    have punctual' := (ascend.perm perm).punctual
    obtain ⟨pins', read', same⟩ := ascend.punctual.reordered punctual' perm read
    refine ⟨pins', read', same, punctual'.nested read', fun e declared => ?_⟩
    obtain ⟨pin, placed⟩ := exists_placement []
      (List.mem_mergeSort.mpr (perm.mem_iff.mpr declared) : e ∈ outerFirst spaces)
    exact ⟨pin, mem_of_placement read' placed, (path_of_placement placed).2⟩

section Rooted

instance (ds : List SpaceEntry) : Decidable (RootsAscend ds) :=
  inferInstanceAs (Decidable (∀ inner ∈ ds, ∀ outer ∈ ds,
    Path.outer? inner.path = some outer.path →
      ∃ other ∈ ds, other.path = outer.path ∧ other.rootCount ≤ inner.rootCount))

/-- A class without edges. -/
def namedEntry (name : String) : SpaceEntry :=
  ⟨name, false, none, [], [], [], [], ""⟩

/-- Classes under some names, and a constant in `A::B`. -/
def namedFile (names : List String) : File :=
  ⟨names.map namedEntry, [], [⟨"A::B", "LIMIT", none, ""⟩], []⟩

def limitPin (names : List String) : Pin :=
  .make "LIMIT" (some ((declareAll (names.map namedEntry)).closure "A::B")) (.constant (.ofTy none))

def namedPins (names : List String) : List Pin :=
  (placements [] (names.map namedEntry)).map Prod.snd ++ [limitPin names]

theorem filePins_namedFile (names : List String)
    (sorted : names.Pairwise fun a b =>
      Text.separatorCount a.toList ≤ Text.separatorCount b.toList) :
    filePins "named.toml" (namedFile names) = .ok (namedPins names) := by
  have turns : outerFirst (namedFile names).spaces = names.map namedEntry :=
    List.mergeSort_of_pairwise (List.pairwise_map.mpr (sorted.imp decide_eq_true))
  refine filePins_eq_ok_iff.mpr ⟨(placements [] (names.map namedEntry)).map fun p => [p.2], [],
    [limitPin names], [], ?_, rfl, ?_, rfl, ?_⟩
  · rw [turns, mapM_eq_ok_iff, List.forall₂_map_right_iff, List.forall₂_same]
    rintro ⟨e, pin⟩ placed
    obtain ⟨name, -, rfl⟩ := List.mem_map.mp (path_of_placement placed).1
    rfl
  · rw [turns]
    rfl
  · rw [namedPins, ← List.flatMap_def, List.append_nil, List.append_nil, List.map_eq_flatMap]

/-- A class inside a rooted and an unrooted declaration of the same class. -/
theorem nested_anyOrder_iff_mixed :
    let d := namedFile ["A", "A::B", "::A::B", "A::B::C"]
    ∃ pins, filePins "named.toml" d = .ok pins ∧
      (∀ spaces, spaces.Perm d.spaces →
        ∃ pins', filePins "named.toml" { d with spaces := spaces } = .ok pins' ∧
          (pins'.map Pin.outline).Perm (pins.map Pin.outline) ∧ Nested pins' ∧
          ∀ e ∈ d.spaces, ∃ pin ∈ pins', pin.isSpace ∧ pin.path = e.path) := by
  intro d
  have read := filePins_namedFile ["A", "A::B", "::A::B", "A::B::C"] (by decide)
  exact ⟨_, read, (nested_anyOrder_iff read).mpr (by decide)⟩

example : (namedPins ["A", "A::B", "::A::B", "A::B::C"]).map Pin.gates =
    [["A", ""], ["A::B", "A", ""], ["A::B", "A", ""], ["A::B::C", "A::B", "A", ""],
      ["A::B", "A", ""]] := by
  decide +kernel

instance (pins : List Pin) : Decidable (Nested pins) :=
  inferInstanceAs (Decidable (∀ inner ∈ pins, inner.isSpace → ∀ outer ∈ pins, outer.isSpace →
    Path.outer? inner.path = some outer.path → inner.gates = inner.path :: outer.gates))

/-- The written name `::A` has as many `::` as `A::B`, so that the order of the file decides whether
the second is nested in the first. -/
theorem not_nested_rootedOuter :
    filePins "named.toml" (namedFile ["::A", "A::B"]) = .ok (namedPins ["::A", "A::B"]) ∧
    filePins "named.toml" (namedFile ["A::B", "::A"]) = .ok (namedPins ["A::B", "::A"]) ∧
    (namedPins ["::A", "A::B"]).map (fun pin => (pin.path, pin.gates)) =
      [("A", ["A", ""]), ("A::B", ["A::B", "A", ""]), ("A::B::LIMIT", ["A::B", "A", ""])] ∧
    (namedPins ["A::B", "::A"]).map (fun pin => (pin.path, pin.gates)) =
      [("A::B", ["A::B", ""]), ("A", ["A", ""]), ("A::B::LIMIT", ["A::B", ""])] ∧
    ¬ Nested (namedPins ["A::B", "::A"]) :=
  ⟨filePins_namedFile _ (by decide), filePins_namedFile _ (by decide), by decide +kernel,
    by decide +kernel, by decide +kernel⟩

end Rooted

end Decl

end DuckInfer
