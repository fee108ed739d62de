import DuckInfer.Proofs.Decl.Nesting
import DuckInfer.Proofs.Store.AbsoluteNames
import DuckInfer.Proofs.Ty.Unions

/-!
Edges with an absolute name. Such a name is looked up in the root gate, but an edge only keeps the
`::` in front of its type if all parameters of the type are absolute too. Main statement: the edge
of an absolute name points in every store at what the name means in the root gate exactly if the
parameters are absolute, or if no other gate is looked at.
-/

namespace DuckInfer

/-! ### Names without `::` in front -/

namespace TagGrammar

theorem IsIdent.unrooted {ident : List Char} (isIdent : IsIdent ident) :
    ident ≠ [] ∧ ∀ rest, ident ≠ ':' :: rest := by
  obtain ⟨first, others, rfl, start⟩ := isIdent.head
  refine ⟨List.cons_ne_nil first others, fun rest same => ?_⟩
  obtain ⟨rfl, -⟩ := List.cons.inj same
  exact absurd start (by decide)

/-- The name of a tag is never empty, and its marks are not part of it. -/
theorem IsTagName.unrooted {name : List Char} (isName : IsTagName name) :
    name ≠ [] ∧ ∀ rest, name ≠ ':' :: ':' :: rest := by
  -- of all names, only symbols begin with a colon
  have other : ∀ {c : Char} {tail : List Char}, c ≠ ':' →
      c :: tail ≠ [] ∧ ∀ rest, c :: tail ≠ ':' :: ':' :: rest := by
    intro c tail apart
    exact ⟨List.cons_ne_nil c tail, fun rest same => apart (List.cons.inj same).1⟩
  rcases isName with (⟨ident, -, rfl | rfl⟩ | ⟨ident, isIdent, rfl⟩ |
    ⟨quote, inner, known, -, rfl⟩ | isNumber | ⟨first, others, rfl, isIdent, -⟩) | ⟨op, -, rfl⟩
  · exact other (by decide)
  · exact other (by decide)
  · refine ⟨List.cons_ne_nil _ _, fun rest same => ?_⟩
    exact isIdent.unrooted.2 rest (List.cons.inj same).2
  · exact other (by rcases known with rfl | rfl <;> decide)
  · rcases isNumber with isUnsigned | ⟨number, rfl, -⟩
    · obtain ⟨first, tail, rfl, digit⟩ := isUnsigned.head
      exact other (isDigit_apart digit).2.1
    · exact other (by decide)
  · obtain ⟨c, tail, rfl, start⟩ := isIdent.head
    exact other (isIdentStart_apart start).2.1
  · exact other (by decide)

end TagGrammar

namespace Text

theorem exists_segments_of_unrooted {path : List Char} (filled : path ≠ [])
    (unrooted : ∀ rest, path ≠ ':' :: ':' :: rest) :
    ∃ s others, segments path = s :: others ∧ s ≠ [] := by
  fun_cases segments path with
  | case1 => exact absurd rfl filled
  | case2 rest => exact absurd rfl (unrooted rest)
  | case3 c rest => exact ⟨[c], [], rfl, List.cons_ne_nil c []⟩
  | case4 c rest apart segment others => exact ⟨c :: segment, others, rfl, List.cons_ne_nil _ _⟩

end Text

theorem Path.exists_segments_of_isTagName {name : String}
    (isName : TagGrammar.IsTagName name.toList) :
    ∃ s others, segments name = s :: others ∧ s ≠ "" := by
  obtain ⟨filled, unrooted⟩ := isName.unrooted
  obtain ⟨s, others, cut, inside⟩ := Text.exists_segments_of_unrooted filled unrooted
  refine ⟨.ofList s, others.map .ofList, by rw [segments, cut, List.map_cons], ?_⟩
  exact mt String.ofList_eq_empty_iff.mp inside

/-! ### Stores with shadowing constants -/

namespace Store

/-- A constant about which nothing is known. -/
def shadowPin (path : String) : Pin :=
  .make path (some .root) (.constant (.ofTy none))

/-- Constants under each beginning of a path, in several gates. -/
def shadowPins (gates segments : List String) : List Pin :=
  gates.flatMap fun gate => segments.inits.map fun front => shadowPin (front.foldl Path.join gate)

/-- A store of the pins of one file, and of shadowing constants. -/
def shadowing (key : String) (pins : List Pin) (gates segments : List String) : List Change :=
  [.update key pins, .update (key ++ "+") (shadowPins gates segments)]

variable {key : String} {pins : List Pin} {gates segments : List String}

theorem live_shadowing : (afterChanges (shadowing key pins gates segments)).live =
    [(key, pins), (key ++ "+", shadowPins gates segments)] := by
  have other : key ≠ key ++ "+" := by
    intro same
    simpa using congrArg String.length same
  rw [live_afterChanges]
  exact @liveAfter_updates [(key, pins), (key ++ "+", shadowPins gates segments)]
    (by simpa using other)

theorem pinsOf_shadowing :
    (afterChanges (shadowing key pins gates segments)).pinsOf key = pins := by
  rw [pinsOf_eq, live_shadowing]
  simp

theorem hasConstant_shadowing {gate : String} (known : gate ∈ gates) {front : List String}
    (leads : front <+: segments) :
    (afterChanges (shadowing key pins gates segments)).hasConstant (front.foldl Path.join gate) =
      true := by
  refine (hasConstant_iff (coherent_afterChanges _)).mpr
    ⟨shadowPin (front.foldl Path.join gate), ?_, rfl, rfl⟩
  have listed : shadowPin (front.foldl Path.join gate) ∈ shadowPins gates segments :=
    List.mem_flatMap.mpr ⟨gate, known, List.mem_map_of_mem ((List.mem_inits _ _).mpr leads)⟩
  rw [everyPin_eq, live_shadowing]
  simp [listed]

/-- A shadowed name is found in the first gate. -/
theorem resolve?_shadowing {name s : String} {others : List String}
    (cut : Path.segments name = s :: others) (inside : s ≠ "") {gate : String}
    (known : gate ∈ gates) (more : List String) :
    (afterChanges (shadowing key pins gates (s :: others))).resolve? name (gate :: more) =
      some ((s :: others).foldl Path.join gate) :=
  resolve?_of_declared cut inside fun _ leads _ => hasConstant_shadowing known leads

end Store

/-- Within a namespace, a path is another one than at the top level. -/
theorem Path.foldl_join_ne_root {gate s : String} (inner : gate ≠ "") (inside : s ≠ "")
    (others : List String) :
    (s :: others).foldl join gate ≠ (s :: others).foldl join "" := by
  rw [foldl_join inner, List.foldl_cons, join_root, foldl_join inside, ofSegments_cons_cons]
  intro same
  simpa using congrArg String.length same

/-! ### Gates of edges -/

/-- No gate but the root is looked at. -/
def OnlyRoot (gates : List String) : Prop :=
  gates ≠ [] ∧ ∀ gate ∈ gates, gate = ""

theorem Store.resolve?_of_onlyRoot {store : Store} {gates : List String} (only : OnlyRoot gates)
    (name : String) : store.resolve? name gates = store.resolve? name [""] := by
  have first : ∀ segment, gates.findSome? (fun gate => store.constantInGate? gate segment) =
      [""].findSome? fun gate => store.constantInGate? gate segment := by
    obtain ⟨filled, root⟩ := only
    intro segment
    induction gates with
    | nil => exact absurd rfl filled
    | cons gate gates ih =>
      obtain ⟨rfl, rest⟩ := List.forall_mem_cons.mp root
      cases gates with
      | nil => rfl
      | cons next more =>
        rw [List.findSome?_cons, ih (List.cons_ne_nil next more) rest]
        cases found : store.constantInGate? "" segment <;> simp [found]
  unfold resolve? resolveWith?
  cases Path.stripRoot? name with
  | some absolute => rfl
  | none => simp only [first]

theorem Store.resolve?_noGates {store : Store} {name : String}
    (relative : Path.stripRoot? name = none) : store.resolve? name [] = none := by
  have lost : ∀ segments : List String, segments.foldl
      (fun found segment => found.bind fun gate => store.constantInGate? gate segment) none =
        none := by
    intro segments
    induction segments with
    | nil => rfl
    | cons segment segments ih => exact ih
  simp only [resolve?, resolveWith?, relative, List.findSome?_nil]
  split
  · rfl
  · split
    · rfl
    · exact lost _

theorem Pin.exists_gates_of_isSpace {pin : Pin} (space : pin.isSpace) :
    ∃ outer, pin.gates = pin.path :: outer := by
  obtain ⟨name, closure, location, comments, kind, proxyTy⟩ := pin
  cases kind with
  | space isModule generics =>
    cases closure with
    | none =>
      by_cases root : (Pin.spacePath "" name).isEmpty
      · refine ⟨[], ?_⟩
        simp only [gates, path, root, if_true]
        rw [String.isEmpty_iff.mp root]
      · exact ⟨[""], by simp only [gates, path, root]; rfl⟩
    | some c => exact ⟨c.gates, rfl⟩
  | _ => simp [isSpace] at space

/-- A reference by an absolute name points at what the name means in any gates. -/
theorem Library.Sound.dereference_rooted {lib : Library} (sound : lib.Sound) {edge : Pin}
    {path : String} (known : edge.edgeKind?.isSome) (named : Path.stripRoot? edge.name = some path)
    (gates : List String) : (lib.dereference edge).1 = (lib.resolve edge.name gates).1 := by
  rw [dereference_eq, if_pos known, sound.resolve_rooted named _ [""],
    sound.resolve_rooted named gates [""]]

namespace Decl

open Store

/-- A declared namespace stands at the top level, or in a declared namespace of its outer path. -/
theorem Spaces.Filed.gates_spacePin_cases {spaces : Spaces} (filed : spaces.Filed)
    (e : SpaceEntry) :
    (spacePin spaces e).gates = [e.path, ""] ∨ ∃ outer more, Path.outer? e.path = some outer ∧
      (spacePin spaces e).gates = e.path :: outer :: more := by
  have path : (spacePin spaces e).path = e.path := filed.path_spacePin e
  rw [gates_spacePin, path]
  cases inside : Path.outer? e.path with
  | none =>
    rw [place_of_top inside]
    exact .inl rfl
  | some outer =>
    by_cases known : (spaces.lookup outer).isSome
    · obtain ⟨pin, found⟩ := Option.isSome_iff_exists.mp known
      have filled := Path.outer?_ne_root (Path.stripRoot?_unrooted e.name) inside
      obtain ⟨before, after, rfl, -⟩ := List.lookup_eq_some_iff.mp found
      obtain ⟨space, here⟩ := filed (outer, pin) (by simp)
      obtain ⟨more, gates⟩ := Pin.exists_gates_of_isSpace space
      rw [place_of_known inside known, closure_of_lookup filled found, gates, here]
      exact .inr ⟨outer, more, rfl, rfl⟩
    · rw [place_of_unknown inside known]
      exact .inl rfl

variable {file : String} {d : File} {pins : List Pin} {e : SpaceEntry} {kind : EdgeKind}
  {text : String} {t : Ty} {pin : Pin}

/-- An edge is looked up in the root gate only, in no gate at all, or in another gate first. -/
theorem targetGates_edge_cases (path : pin.path = e.path)
    (gates : pin.gates = [e.path, ""] ∨ ∃ outer more, Path.outer? e.path = some outer ∧
      pin.gates = e.path :: outer :: more) (kind : EdgeKind) (name : String) (values : List Ty) :
    OnlyRoot (Pin.edge pin kind name values).targetGates ∨
      (Pin.edge pin kind name values).targetGates = [] ∨
      ∃ gate more, (Pin.edge pin kind name values).targetGates = gate :: more ∧ gate ≠ "" := by
  have looked : (Pin.edge pin kind name values).targetGates =
      if kind = .superclass then pin.gates.filter (· != e.path) else pin.gates := by
    rw [← path]
    cases kind <;> rfl
  rw [looked]
  rcases gates with top | ⟨outer, more, inside, nested⟩
  · rw [top]
    by_cases root : e.path = ""
    · rw [root]
      split
      · exact .inr (.inl rfl)
      · exact .inl ⟨List.cons_ne_nil _ _, by simp⟩
    · split
      · exact .inl (by simp [OnlyRoot, root])
      · exact .inr (.inr ⟨e.path, [""], rfl, root⟩)
  · have filled := Path.outer?_ne_root (Path.stripRoot?_unrooted e.name) inside
    have shorter := Path.length_of_outer? inside
    have apart : outer ≠ e.path := fun same => absurd shorter (by rw [same]; omega)
    have inner : e.path ≠ "" := by
      intro root
      rw [root] at shorter
      exact absurd shorter (Nat.not_lt_zero _)
    rw [nested]
    split
    · exact .inr (.inr ⟨outer, more.filter (· != e.path), by simp [apart], filled⟩)
    · exact .inr (.inr ⟨e.path, outer :: more, rfl, inner⟩)

/-- A written edge leads from a namespace that was placed by its turn. -/
theorem exists_placed_edge (read : filePins file d = .ok pins) (declared : e ∈ d.spaces)
    (written : (kind, text) ∈ edgeTexts e) (spelled : Ty.ofTag? text = some t) :
    ∃ pin, pin.isSpace ∧ pin.path = e.path ∧
      (pin.gates = [e.path, ""] ∨ ∃ outer more, Path.outer? e.path = some outer ∧
        pin.gates = e.path :: outer :: more) ∧
      .edge pin kind (if t.first.isAbsolute then "::" ++ t.first.name else t.first.name)
        t.first.subs ∈ pins := by
  obtain ⟨pin, placed⟩ := exists_placement []
    (List.mem_mergeSort.mpr declared : e ∈ outerFirst d.spaces)
  obtain ⟨edges, edgesRead, inside⟩ := exists_group_of_placement read placed
  obtain ⟨-, space, path⟩ := path_of_placement placed
  obtain ⟨before, after, -, same⟩ := mem_placements.mp placed
  obtain ⟨edge, member, made⟩ := exists_of_mapM_eq_ok edgesRead written
  simp only [edgePin, readTy, spelled] at made
  cases made
  refine ⟨pin, space, path, ?_, inside _ (List.mem_cons_of_mem _ member)⟩
  rw [same]
  exact (filed_declareAll before).gates_spacePin_cases e

/-- A declared namespace is a constant of the store of its file. -/
theorem hasConstant_of_declared (read : filePins file d = .ok pins) (declared : e ∈ d.spaces)
    (key : String) : (afterChanges [.update key pins]).hasConstant e.path = true := by
  obtain ⟨pin, placed⟩ := exists_placement []
    (List.mem_mergeSort.mpr declared : e ∈ outerFirst d.spaces)
  obtain ⟨-, space, path⟩ := path_of_placement placed
  have live : (afterChanges [.update key pins]).live = [(key, pins)] := live_afterChanges _
  refine (hasConstant_iff (coherent_afterChanges _)).mpr ⟨pin, ?_, path, by simp [space]⟩
  rw [everyPin_eq, live]
  simpa using mem_of_placement read placed

/-- A declared namespace is found in a gate that it stands directly in. -/
theorem resolve?_of_spaceEntry (read : filePins file d = .ok pins) (declared : e ∈ d.spaces)
    {gate s : String} (here : e.path = Path.join gate s) (single : Path.segments s = [s])
    (inside : s ≠ "") (key : String) (more : List String) :
    (afterChanges [.update key pins]).resolve? s (gate :: more) = some (Path.join gate s) := by
  refine resolve?_of_declared single inside fun front leads filled => ?_
  obtain rfl : front = [s] := by simpa [List.prefix_cons_iff, filled] using leads
  rw [List.foldl_cons, List.foldl_nil, ← here]
  exact hasConstant_of_declared read declared key

/-- A relative name in an edge means in every store what it means in the root gate exactly if no
other gate is looked at. -/
theorem relative_edge_iff (key : String) (pins : List Pin) {edge : Pin}
    (known : edge.edgeKind?.isSome) {s : String} {others : List String}
    (cut : Path.segments edge.name = s :: others) (inside : s ≠ "")
    (gates : OnlyRoot edge.targetGates ∨ edge.targetGates = [] ∨
      ∃ gate more, edge.targetGates = gate :: more ∧ gate ≠ "") :
    (∀ changes, (afterChanges changes).pinsOf key = pins →
      (afterChanges changes).dereference? edge =
        (afterChanges changes).resolve? ("::" ++ edge.name) [""]) ↔ OnlyRoot edge.targetGates := by
  have relative := Path.stripRoot?_of_segments cut inside
  constructor
  · intro always
    rcases gates with only | none | ⟨gate, more, first, inner⟩
    · exact only
    · have same := always (shadowing key pins [""] (s :: others)) pinsOf_shadowing
      rw [dereference?_eq known, none, resolve?_noGates relative, resolve?_rooted relative,
        resolve?_shadowing cut inside List.mem_cons_self] at same
      cases same
    · have same := always (shadowing key pins ["", gate] (s :: others)) pinsOf_shadowing
      rw [dereference?_eq known, first, resolve?_rooted relative,
        resolve?_shadowing cut inside (by simp), resolve?_shadowing cut inside (by simp)] at same
      exact absurd (Option.some.inj same) (Path.foldl_join_ne_root inner inside others)
  · intro only changes _
    rw [dereference?_eq known, resolve?_rooted relative, resolve?_of_onlyRoot only]

open Library in
/-- The edge of an absolute name keeps the `::` if all parameters are absolute, and points then at
what the name means in the root gate, in every store and after all queries. Without the `::`, it
does so in every store exactly if it is looked up in the root gate only. -/
theorem dereference_rooted_iff (key : String) (read : filePins file d = .ok pins)
    (declared : e ∈ d.spaces) (written : (kind, text) ∈ edgeTexts e)
    (spelled : Ty.ofTag? text = some t) (rooted : t.first.marked = true) :
    ∃ edge ∈ pins, edge.edgeKind? = some kind ∧ edge.space = e.path ∧
      edge.edgeValues = t.first.subs ∧
      ((∀ u ∈ t.first.params, u.isAbsolute) → edge.name = "::" ++ t.first.name ∧
        ∀ events, ((afterEvents events).dereference edge).1 =
          ((afterEvents events).resolve ("::" ++ t.first.name) [""]).1) ∧
      ((∀ changes, (afterChanges changes).pinsOf key = pins →
          (afterChanges changes).dereference? edge =
            (afterChanges changes).resolve? ("::" ++ t.first.name) [""]) ↔
        (∀ u ∈ t.first.params, u.isAbsolute) ∨ OnlyRoot edge.targetGates) := by
  obtain ⟨pin, space, path, gates, listed⟩ := exists_placed_edge read declared written spelled
  have start : pin.space = e.path := (Pin.space_of_isSpace space).trans path
  refine ⟨_, listed, rfl, start, rfl, ?_⟩
  by_cases absolute : ∀ u ∈ t.first.params, u.isAbsolute
  · have kept : t.first.isAbsolute = true := Member.isAbsolute_iff.mpr ⟨rooted, absolute⟩
    have named : Path.stripRoot? ("::" ++ t.first.name) = some t.first.name :=
      Path.stripRoot?_rooted t.first.name
    rw [if_pos kept]
    refine ⟨fun _ => ⟨rfl, fun events => ?_⟩, iff_of_true (fun changes _ => ?_) (.inl absolute)⟩
    · exact (sound_afterEvents events).dereference_rooted rfl named [""]
    · rw [dereference?_eq rfl]
      exact resolve?_of_rooted named _ [""]
  · have lost : ¬ t.first.isAbsolute = true :=
      fun kept => absolute (Member.isAbsolute_iff.mp kept).2
    rw [if_neg lost]
    obtain ⟨s, others, cut, inside⟩ := Path.exists_segments_of_isTagName
      (wasRead_of_ofTag? spelled t.first List.mem_cons_self).name_fits.1
    have relative := relative_edge_iff key pins rfl cut inside
      (targetGates_edge_cases path gates kind t.first.name t.first.subs)
    exact ⟨fun all => absurd all absolute, relative.trans (by simp [absolute])⟩

section Boxes

def outerEntry (included : String) : SpaceEntry :=
  { namedEntry "Outer" with includes := [included] }

/-- Two classes `Box`, one of them in a class `Outer` with a written include. -/
def boxFile (included : String) : File :=
  ⟨[outerEntry included, namedEntry "Box", namedEntry "Outer::Box"], [], [], []⟩

theorem exists_filePins_boxFile {included : String} (spelled : (Ty.ofTag? included).isSome) :
    ∃ pins, filePins "box.toml" (boxFile included) = .ok pins := by
  obtain ⟨t, spelled⟩ := Option.isSome_iff_exists.mp spelled
  have texts : ∀ e ∈ (boxFile included).spaces, ∀ edge ∈ edgeTexts e, edge.2 = included := by
    simp [boxFile, outerEntry, namedEntry, edgeTexts]
  have each : ∀ p ∈ placements [] (outerFirst (boxFile included).spaces),
      ∃ own, spacePins "box.toml" p.1 p.2 = .ok own := by
    rintro ⟨e, pin⟩ placed
    have listed := List.mem_mergeSort.mp (path_of_placement placed).1
    have read : ∃ edges, (edgeTexts e).mapM (fun edge =>
        edgePin "box.toml" e.path pin edge.1 edge.2) = .ok edges := by
      refine exists_mapM_eq_ok fun edge written => ?_
      simp only [edgePin, readTy, texts e listed edge written, spelled]
      exact ⟨_, rfl⟩
    obtain ⟨edges, edgesRead⟩ := read
    exact ⟨pin :: edges, by rw [spacePins_eq, edgesRead]; rfl⟩
  obtain ⟨own, ownRead⟩ := exists_mapM_eq_ok each
  exact ⟨_, filePins_eq_ok_iff.mpr ⟨own, [], [], [], ownRead, rfl, rfl, rfl, rfl⟩⟩

theorem outer_declared (included : String) :
    outerEntry included ∈ (boxFile included).spaces :=
  List.mem_cons_self

theorem outer_includes (included : String) :
    (.includes, included) ∈ edgeTexts (outerEntry included) :=
  List.mem_cons_self

/-- With an absolute parameter, the edge leads to the outer `Box` whatever else is declared. -/
theorem dereference_rooted_iff_box : ∃ t pins,
    Ty.ofTag? "::Box<::String>" = some t ∧ t.first.marked = true ∧
      filePins "box.toml" (boxFile "::Box<::String>") = .ok pins ∧
      ∃ edge ∈ pins, edge.name = "::Box" ∧ ∀ changes,
        (afterChanges changes).pinsOf "box.toml" = pins →
          (afterChanges changes).dereference? edge =
            (afterChanges changes).resolve? "::Box" [""] := by
  have facts : (Ty.ofTag? "::Box<::String>").map (fun t =>
      (t.first.name, t.first.marked, t.first.params.all Ty.isAbsolute)) =
        some ("Box", true, true) := by decide +kernel
  obtain ⟨t, spelled, same⟩ := Option.map_eq_some_iff.mp facts
  obtain ⟨name, rooted, absolute⟩ : t.first.name = "Box" ∧ t.first.marked = true ∧
    t.first.params.all Ty.isAbsolute = true := by simpa using same
  obtain ⟨pins, read⟩ := exists_filePins_boxFile (Option.isSome_of_eq_some spelled)
  obtain ⟨edge, listed, -, -, -, kept, always⟩ := dereference_rooted_iff "box.toml" read
    (outer_declared _) (outer_includes _) spelled rooted
  rw [name] at kept always
  exact ⟨t, pins, spelled, rooted, read, edge, listed, (kept (List.all_eq_true.mp absolute)).1,
    always.mpr (.inl (List.all_eq_true.mp absolute))⟩

/-- With a relative parameter, the edge leads to the inner `Box`. -/
theorem dereference_rooted_ne_box : ∃ t pins,
    Ty.ofTag? "::Box<String>" = some t ∧ t.first.name = "Box" ∧ t.first.marked = true ∧
      filePins "box.toml" (boxFile "::Box<String>") = .ok pins ∧
      ∃ edge ∈ pins, edge.edgeKind? = some .includes ∧ edge.space = "Outer" ∧
        (afterChanges [.update "box.toml" pins]).dereference? edge = some "Outer::Box" ∧
        (afterChanges [.update "box.toml" pins]).resolve? "::Box" [""] = some "Box" := by
  have facts : (Ty.ofTag? "::Box<String>").map (fun t =>
      (t.first.name, t.first.marked, t.first.isAbsolute)) = some ("Box", true, false) := by
    decide +kernel
  obtain ⟨t, spelled, same⟩ := Option.map_eq_some_iff.mp facts
  obtain ⟨name, rooted, relative⟩ : t.first.name = "Box" ∧ t.first.marked = true ∧
    t.first.isAbsolute = false := by simpa using same
  obtain ⟨pins, read⟩ := exists_filePins_boxFile (Option.isSome_of_eq_some spelled)
  obtain ⟨pin, space, path, gates, listed⟩ :=
    exists_placed_edge read (outer_declared _) (outer_includes _) spelled
  have here : (outerEntry "::Box<String>").path = "Outer" := by decide
  have top : Path.outer? "Outer" = none := by decide
  have looked : (Pin.edge pin .includes "Box" t.first.subs).targetGates = ["Outer", ""] := by
    show pin.gates = _
    simpa [here, top] using gates
  have start : pin.space = "Outer" := (Pin.space_of_isSpace space).trans (path.trans here)
  have outer : namedEntry "Box" ∈ (boxFile "::Box<String>").spaces := by simp [boxFile]
  have inner : namedEntry "Outer::Box" ∈ (boxFile "::Box<String>").spaces := by simp [boxFile]
  have single : Path.segments "Box" = ["Box"] := by decide
  have unrooted : Path.stripRoot? "Box" = none := by decide
  rw [relative, if_neg Bool.false_ne_true, name] at listed
  refine ⟨t, pins, spelled, name, rooted, read, _, listed, rfl, start, ?_, ?_⟩
  · rw [dereference?_eq rfl, looked]
    exact resolve?_of_spaceEntry read inner (by decide) single (by decide) "box.toml" [""]
  · exact (resolve?_rooted unrooted [""]).trans
      (resolve?_of_spaceEntry read outer (by decide) single (by decide) "box.toml" [])

end Boxes

end Decl

end DuckInfer
