import DuckInfer.Decl.Pins
import DuckInfer.Proofs.Store.EdgeFrames
import DuckInfer.Proofs.Store.Listing
import DuckInfer.Proofs.Ty.Reading

/-!
The edges of a declaration file. Every declared namespace becomes a pin with its written path, and
every written edge a reference of this pin that keeps the values of the type. Main statement: the
frame that a written type leads to as an edge binds what the frame of the type itself binds, unless
the type has keys or several values stand for one generic.
-/

namespace DuckInfer

/-! ### Written paths -/

namespace Text

variable {path outer last : List Char}

theorem dropRoots_ne_rooted (path tail : List Char) : dropRoots path ≠ ':' :: ':' :: tail := by
  fun_induction dropRoots path with
  | case1 rest ih => exact ih
  | case2 path bare => exact bare tail

theorem splitLast?_rooted_ne_none (last : List Char) : splitLast? (':' :: ':' :: last) ≠ none := by
  cases inner : splitLast? (':' :: last) with
  | none => simp [splitLast?_colons inner]
  | some parts => simp [splitLast?_cons_of_some inner]

theorem uncut_of_cons {c : Char} {rest : List Char} (uncut : splitLast? (c :: rest) = none) :
    splitLast? rest = none := by
  cases inner : splitLast? rest with
  | none => rfl
  | some parts => simp [splitLast?_cons_of_some inner] at uncut

/-- Behind the last `::` there is no other one. -/
theorem uncut_of_splitLast? (cut : splitLast? path = some (outer, last)) :
    splitLast? last = none := by
  induction path generalizing outer with
  | nil => simp [splitLast?] at cut
  | cons c rest ih =>
    unfold splitLast? at cut
    split at cut
    case h_1 inner innerLast found =>
      obtain ⟨-, rfl⟩ := Prod.mk.inj (Option.some.inj cut)
      exact ih found
    case h_2 uncut =>
      split at cut
      · obtain ⟨-, rfl⟩ := Prod.mk.inj (Option.some.inj cut)
        exact uncut_of_cons uncut
      · simp at cut

end Text

namespace Path

theorem stripRoot?_unrooted (name : String) : stripRoot? (unrooted name) = none := by
  unfold stripRoot? unrooted
  rw [String.toList_ofList]
  split
  · rename_i rooted
    exact absurd rooted (Text.dropRoots_ne_rooted _ _)
  · rfl

theorem stripRoot?_of_splitLast? {path outer last : String}
    (cut : splitLast? path = some (outer, last)) : stripRoot? last = none := by
  obtain ⟨⟨outerText, lastText⟩, found, same⟩ := Option.map_eq_some_iff.mp cut
  obtain ⟨-, rfl⟩ := Prod.mk.inj same
  unfold stripRoot?
  rw [String.toList_ofList]
  split
  · exact absurd (Text.uncut_of_splitLast? found) (Text.splitLast?_rooted_ne_none _)
  · rfl

end Path

theorem Pin.space_of_isSpace {pin : Pin} (space : pin.isSpace) : pin.space = pin.path := by
  obtain ⟨name, closure, location, comments, kind, proxyTy⟩ := pin
  cases kind with
  | space isModule generics => cases closure <;> rfl
  | _ => simp [Pin.isSpace] at space

namespace Decl

/-! ### Declared namespaces -/

/-- Every namespace stands under its path. -/
def Spaces.Filed (spaces : Spaces) : Prop :=
  ∀ entry ∈ spaces, entry.2.isSpace ∧ entry.2.path = entry.1

variable {spaces : Spaces} {file : String} {e : SpaceEntry} {pins : List Pin}

theorem Spaces.Filed.space_lookup (filed : spaces.Filed) {path : String} {pin : Pin}
    (found : spaces.lookup path = some pin) : pin.space = path := by
  obtain ⟨before, after, rfl, -⟩ := List.lookup_eq_some_iff.mp found
  obtain ⟨space, same⟩ := filed (path, pin) (by simp)
  exact (Pin.space_of_isSpace space).trans same

/-- A namespace is found under its written path, wherever it is nested. -/
theorem Spaces.Filed.path_spacePin (filed : spaces.Filed) (e : SpaceEntry) :
    (spacePin spaces e).path = Path.unrooted e.name := by
  have unrooted := Path.stripRoot?_unrooted e.name
  have whole : ∀ place, spaces.place (Path.unrooted e.name) = place →
      (spacePin spaces e).path = Pin.spacePath place.1.space place.2 := by
    intro place placed
    rw [spacePin, placed]
    rfl
  have top : Pin.spacePath Pin.root.space (Path.unrooted e.name) = Path.unrooted e.name := by
    rw [Pin.spacePath, unrooted]
    rfl
  rw [whole _ rfl, Spaces.place]
  cases cut : Path.splitLast? (Path.unrooted e.name) with
  | none => exact top
  | some parts =>
    obtain ⟨outer, last⟩ := parts
    have joined := Path.join_outerPath unrooted
    rw [Pin.outerPath, Path.lastSegment, cut] at joined
    cases found : spaces.lookup outer with
    | none =>
      simp only [found]
      exact top
    | some pin =>
      have around : (spaces.closure outer).space = outer := by
        unfold Spaces.closure
        split
        · rename_i root
          exact (String.isEmpty_iff.mp root).symm
        · rw [found]
          exact filed.space_lookup found
      simp only [found, Option.isSome_some, if_true]
      rw [around, Pin.spacePath, Path.stripRoot?_of_splitLast? cut]
      exact joined

theorem isSpace_spacePin (spaces : Spaces) (e : SpaceEntry) : (spacePin spaces e).isSpace := by
  unfold spacePin
  rfl

theorem Spaces.Filed.cons (filed : spaces.Filed) {pin : Pin} (space : pin.isSpace) :
    Spaces.Filed ((pin.path, pin) :: spaces) :=
  List.forall_mem_cons.mpr ⟨⟨space, rfl⟩, filed⟩

/-! ### Pins of a file -/

theorem exists_of_bind_eq_ok {ε α β : Type} {x : Except ε α} {f : α → Except ε β} {b : β}
    (done : x >>= f = .ok b) : ∃ a, x = .ok a ∧ f a = .ok b := by
  cases x with
  | error failure => cases done
  | ok a => exact ⟨a, rfl, done⟩

theorem exists_of_mapM_eq_ok {ε α β : Type} {f : α → Except ε β} {xs : List α} {ys : List β}
    (done : xs.mapM f = .ok ys) {x : α} (listed : x ∈ xs) : ∃ y ∈ ys, f x = .ok y := by
  induction xs generalizing ys with
  | nil => exact absurd listed List.not_mem_nil
  | cons first xs ih =>
    rw [List.mapM_cons] at done
    obtain ⟨y, read, done⟩ := exists_of_bind_eq_ok done
    obtain ⟨more, rest, done⟩ := exists_of_bind_eq_ok done
    cases done
    rcases List.mem_cons.mp listed with rfl | later
    · exact ⟨y, List.mem_cons_self, read⟩
    · obtain ⟨y, found, read⟩ := ih rest later
      exact ⟨y, List.mem_cons_of_mem _ found, read⟩

/-- Every namespace of a run is declared under its written path. -/
theorem exists_of_spacesPins {ds : List SpaceEntry} {result : Spaces} (filed : spaces.Filed)
    (read : spacesPins file spaces ds = .ok (result, pins)) (listed : e ∈ ds) :
    ∃ pin, pin.isSpace ∧ pin.path = Path.unrooted e.name ∧
      ∃ own, spacePins file e pin = .ok own ∧ ∀ p ∈ own, p ∈ pins := by
  induction ds generalizing spaces result pins with
  | nil => exact absurd listed List.not_mem_nil
  | cons d ds ih =>
    unfold spacesPins at read
    obtain ⟨own, first, read⟩ := exists_of_bind_eq_ok read
    obtain ⟨⟨result', more⟩, rest, read⟩ := exists_of_bind_eq_ok read
    cases read
    rcases List.mem_cons.mp listed with rfl | later
    · exact ⟨_, isSpace_spacePin _ _, filed.path_spacePin e, own, first,
        fun p member => List.mem_append_left _ member⟩
    · have filed' := filed.cons (isSpace_spacePin spaces d)
      obtain ⟨pin, space, path, own', read', inside⟩ := ih filed' rest later
      exact ⟨pin, space, path, own', read',
        fun p member => List.mem_append_right _ (inside p member)⟩

variable {d : File}

theorem exists_of_filePins (read : filePins file d = .ok pins) (declared : e ∈ d.spaces) :
    ∃ pin, pin.isSpace ∧ pin.path = Path.unrooted e.name ∧
      ∃ own, spacePins file e pin = .ok own ∧ ∀ p ∈ own, p ∈ pins := by
  unfold filePins at read
  obtain ⟨⟨spaces, spacePins⟩, spacesRead, read⟩ := exists_of_bind_eq_ok read
  obtain ⟨methods, -, read⟩ := exists_of_bind_eq_ok read
  obtain ⟨constants, -, read⟩ := exists_of_bind_eq_ok read
  obtain ⟨overrides, -, read⟩ := exists_of_bind_eq_ok read
  cases read
  have nothing : Spaces.Filed [] := fun entry member => absurd member List.not_mem_nil
  obtain ⟨pin, space, path, own, ownRead, inside⟩ :=
    exists_of_spacesPins nothing spacesRead (List.mem_mergeSort.mpr declared)
  refine ⟨pin, space, path, own, ownRead, fun p member => ?_⟩
  simp only [List.append_assoc]
  exact List.mem_append_left _ (inside p member)

/-- A written edge is a reference of its namespace and keeps the values of the type. -/
theorem exists_edge_of_filePins (read : filePins file d = .ok pins) (declared : e ∈ d.spaces)
    {kind : EdgeKind} {text : String} (written : (kind, text) ∈ edgeTexts e) {t : Ty}
    (spelled : Ty.ofTag? text = some t) :
    ∃ pin, pin.isSpace ∧ pin.path = Path.unrooted e.name ∧
      .edge pin kind (if t.first.isAbsolute then "::" ++ t.first.name else t.first.name)
        t.first.subs ∈ pins := by
  obtain ⟨pin, space, path, own, ownRead, inside⟩ := exists_of_filePins read declared
  refine ⟨pin, space, path, inside _ ?_⟩
  unfold spacePins at ownRead
  obtain ⟨edges, edgesRead, ownRead⟩ := exists_of_bind_eq_ok ownRead
  cases ownRead
  obtain ⟨edge, member, made⟩ := exists_of_mapM_eq_ok edgesRead written
  simp only [edgePin, readTy, spelled] at made
  cases made
  exact List.mem_cons_of_mem _ member

end Decl

/-! ### Edges of a store -/

namespace Store

variable {store : Store}

theorem mem_everyPin_of_pinsOf {key : String} {pin : Pin} (loaded : pin ∈ store.pinsOf key) :
    pin ∈ store.everyPin := by
  unfold pinsOf at loaded
  split at loaded
  · rename_i g found
    exact List.mem_flatMap.mpr ⟨g, List.mem_of_find?_eq_some found, loaded⟩
  · exact absurd loaded List.not_mem_nil

theorem dereference?_eq {edge : Pin} (known : edge.edgeKind?.isSome) :
    store.dereference? edge = store.resolve? edge.name edge.targetGates := by
  unfold dereference? targetOf
  rw [if_pos known]
  rfl

theorem Coherent.mem_edges (coherent : store.Coherent) {pin : Pin} {kind : EdgeKind}
    (loaded : pin ∈ store.everyPin) (known : pin.edgeKind? = some kind)
    (edge : kind ≠ .overrides) : pin ∈ store.edges pin.space kind := by
  rw [edges, coherent.edgesFrom]
  refine List.mem_filter.mpr ⟨loaded, ?_⟩
  unfold isEdgeFrom
  rw [known]
  cases kind with
  | overrides => exact absurd rfl edge
  | _ => simp

end Store

/-! ### The same type as a receiver -/

theorem Member.receiverFrame_of_instanceLevel {m : Member} (plain : m.scope = .instanceLevel)
    (store : Store) :
    store.receiverFrame m =
      ⟨m.space, .instanceLevel, .ofReceiver (store.genericsOf m.space) m⟩ := by
  have instanced : Store.receiverInstance m = m := by
    unfold Store.receiverInstance
    rw [plain]
  rw [Store.receiverFrame, instanced, plain]

/-- Without keys, a receiver has the same known values at its places as an edge, unless several
values stand for one generic. -/
theorem Member.IsRead.knownAt_valuesFor {m : Member} (read : m.IsRead) (unkeyed : m.kind ≠ .hash)
    {count : Nat} (few : count = 1 → m.subs.length ≤ 1) (place : Nat) :
    knownAt m.subs place = knownAt (m.valuesFor count) place := by
  have row : knownAt m.subs place =
      knownAt (if count == 1 then [m.valueTy] else m.subs) place := by
    split
    · rename_i one
      unfold Member.valueTy
      match subs : m.subs, few (beq_iff_eq.mp one) with
      | [], _ => cases place <;> rfl
      | [u], _ =>
        obtain ⟨inner, rfl⟩ := read.places u (List.mem_append_right _ (by simp [subs]))
        have alone : Ty.unionAll [.single inner] = .single inner :=
          Ty.unionAll_single (t := .single inner) (List.nodup_singleton inner.tag)
        rw [alone]
    · rfl
  unfold Member.valuesFor
  cases kind : m.kind with
  | none => rw [(read.fits.mp kind).2]
  | hash => exact absurd kind unkeyed
  | list => exact row
  | fixed => exact row

namespace Decl

open Store TagGrammar

/-- The frame that a written edge leads to binds the values of the type place by place. It binds the
same as the frame of the type itself exactly if the same known values stand there at the places of
the generics; so it does if the type has no keys and not several values for one generic. -/
theorem bindings_edge_eq_receiver_iff {store : Store} {changes : List Change}
    {file key text : String} {d : File} {e : SpaceEntry} {kind : EdgeKind} {m : Member}
    {generics : List String} (built : afterChanges changes = store)
    (read : filePins file d = .ok (store.pinsOf key)) (declared : e ∈ d.spaces)
    (written : (kind, text) ∈ edgeTexts e)
    (used : kind = .superclass ∨ kind = .includes ∨ kind = .prepends)
    (spelled : Ty.ofTag? text = some (.single m)) (ground : (Ty.single m).isGeneric = false)
    (plain : m.scope = .instanceLevel) (named : store.genericsOf m.space = generics) :
    ∃ edge ∈ store.edges (Path.unrooted e.name) kind,
      edge.name = (if m.isAbsolute then "::" ++ m.name else m.name) ∧ edge.edgeValues = m.subs ∧
      (store.OnlyWay (Path.unrooted e.name) edge m.space →
        ∃ atEdge atReceiver : Frame,
          frameAt (Id.run (store.ancestors (Path.unrooted e.name) .instanceLevel))
            (m.space, .instanceLevel) = some atEdge ∧
          frameAt (Id.run (store.receiverAncestors m)) (m.space, .instanceLevel) =
            some atReceiver ∧
          atEdge.bindings = .ofPlaces generics m.subs ∧
          atReceiver.bindings = .ofReceiver generics m ∧
          (m.kind ≠ .hash → (generics.length = 1 → m.subs.length ≤ 1) →
            atEdge.bindings = atReceiver.bindings) ∧
          (generics.Nodup →
            (atEdge.bindings = atReceiver.bindings ↔ ∀ place < generics.length,
              knownAt m.subs place = knownAt (m.valuesFor generics.length) place))) := by
  subst named
  have coherent : store.Coherent := built ▸ coherent_afterChanges changes
  obtain ⟨pin, space, path, loaded⟩ := exists_edge_of_filePins read declared written spelled
  have listed := coherent.mem_edges (mem_everyPin_of_pinsOf loaded) rfl
    (by rcases used with rfl | rfl | rfl <;> simp)
  have start : ∀ name values, (Pin.edge pin kind name values).space = Path.unrooted e.name :=
    fun _ _ => (Pin.space_of_isSpace space).trans path
  rw [start] at listed
  refine ⟨_, listed, rfl, rfl, fun way => ?_⟩
  have values : ∀ t ∈ m.subs, t.isGeneric = false :=
    fun t sub => isGeneric_params ground t (List.mem_append_right _ sub)
  have atEdge := way.frameAt_ancestors coherent listed used values
  have atReceiver : frameAt (Id.run (store.receiverAncestors m)) (m.space, m.scope) = _ :=
    frameAt_receiverAncestors m
  rw [plain, Member.receiverFrame_of_instanceLevel plain] at atReceiver
  have fits : m.IsRead := isRead_of_ofTag? spelled m List.mem_cons_self
  refine ⟨_, _, atEdge, atReceiver, rfl, rfl, fun unkeyed few => ?_, fun distinct => ?_⟩
  · have same : ∀ place, knownAt m.subs place = _ := fits.knownAt_valuesFor unkeyed few
    exact congrArg Bindings.ofList (Bindings.filter_zip_congr _ fun place _ => same place)
  · rw [Bindings.ofReceiver_eq_ofPlaces]
    exact Bindings.ofPlaces_eq_iff distinct

/-! ### A class with a key and a value -/

def mapEntry : SpaceEntry :=
  ⟨"Map", false, none, [], [], [], ["K", "V"], ""⟩

def tableEntry (superclass : String) : SpaceEntry :=
  ⟨"Table", false, some superclass, [], [], [], [], ""⟩

/-- A class `Map` with two generics, and a class `Table` with a written superclass. -/
def mapFile (superclass : String) : File :=
  ⟨[mapEntry, tableEntry superclass], [], [], []⟩

def mapSpace : Pin :=
  .make "Map" (some .root) (.space false ["K", "V"])

def tableSpace : Pin :=
  .make "Table" (some .root) (.space false [])

def tableEdge (values : List Ty) : Pin :=
  .edge tableSpace .superclass "Map" values

def mapPins (values : List Ty) : List Pin :=
  [mapSpace, tableSpace, tableEdge values]

def mapStore (values : List Ty) : Store :=
  afterChanges [.update "map.toml" (mapPins values)]

theorem spacePin_top {e : SpaceEntry} (unrooted : Path.unrooted e.name = e.name)
    (uncut : Path.splitLast? e.name = none) (spaces : Spaces) :
    spacePin spaces e =
      { Pin.make e.name (some .root) (.space e.isModule e.generics) with
        comments := e.comments } := by
  unfold spacePin Spaces.place
  rw [unrooted, uncut]

theorem filePins_mapFile {text : String} {m : Member} (spelled : Ty.ofTag? text = some (.single m))
    (name : m.name = "Map") (relative : m.isAbsolute = false) :
    filePins "map.toml" (mapFile text) = .ok (mapPins m.subs) := by
  have sorted : outerFirst (mapFile text).spaces = [mapEntry, tableEntry text] := by
    refine List.mergeSort_of_pairwise (List.pairwise_pair.mpr ?_)
    show decide (Text.separatorCount "Map".toList ≤ Text.separatorCount "Table".toList) = true
    decide
  have map : spacePin [] mapEntry = mapSpace := spacePin_top (by decide) (by decide) _
  have table : ∀ spaces, spacePin spaces (tableEntry text) = tableSpace :=
    spacePin_top (e := tableEntry text) (by decide : Path.unrooted "Table" = "Table")
      (by decide : Path.splitLast? "Table" = none)
  have edge : ∀ path, edgePin "map.toml" path tableSpace .superclass text =
      .ok (tableEdge m.subs) := by
    intro path
    simp only [edgePin, readTy, spelled]
    show Except.ok (Pin.edge _ _ (if m.isAbsolute then _ else m.name) _) = _
    rw [name, relative]
    rfl
  have mapOwn : spacePins "map.toml" mapEntry mapSpace = .ok [mapSpace] := rfl
  have tableOwn : spacePins "map.toml" (tableEntry text) tableSpace =
      .ok [tableSpace, tableEdge m.subs] := by
    have edges : edgeTexts (tableEntry text) = [(.superclass, text)] := rfl
    simp only [spacePins, edges, List.mapM_cons, edge]
    rfl
  simp only [filePins, sorted, spacesPins, map, mapOwn, table, tableOwn]
  rfl

theorem live_mapStore (values : List Ty) :
    (mapStore values).live = [("map.toml", mapPins values)] :=
  live_afterChanges _

theorem pinsOf_mapStore (values : List Ty) :
    (mapStore values).pinsOf "map.toml" = mapPins values := by
  rw [pinsOf_eq, live_mapStore]
  rfl

theorem everyPin_mapStore (values : List Ty) : (mapStore values).everyPin = mapPins values := by
  rw [everyPin_eq, live_mapStore]
  rfl

theorem coherent_mapStore (values : List Ty) : (mapStore values).Coherent :=
  coherent_afterChanges _

theorem genericsOf_mapStore (values : List Ty) :
    (mapStore values).genericsOf "Map" = ["K", "V"] := by
  rw [(coherent_mapStore values).genericsOf, everyPin_mapStore]
  rfl

theorem eq_tableEdge {values : List Ty} {source : String} {kind : EdgeKind} {edge : Pin}
    (listed : edge ∈ (mapStore values).edges source kind) : edge = tableEdge values := by
  have known := edgeKind?_of_mem_edges listed
  rw [edges, (coherent_mapStore values).edgesFrom, everyPin_mapStore] at listed
  have loaded := (List.mem_filter.mp listed).1
  simp only [mapPins, List.mem_cons, List.not_mem_nil, or_false] at loaded
  rcases loaded with rfl | rfl | rfl
  · cases known
  · cases known
  · rfl

theorem tableEdge_listed (values : List Ty) :
    tableEdge values ∈ (mapStore values).edges "Table" .superclass := by
  have loaded : tableEdge values ∈ (mapStore values).everyPin := by
    simp [everyPin_mapStore, mapPins]
  have outer : (tableEdge values).space = "Table" := rfl
  have listed := (coherent_mapStore values).mem_edges loaded rfl
    (by decide : EdgeKind.superclass ≠ .overrides)
  rwa [outer] at listed

theorem onlyWay_tableEdge (values : List Ty) :
    (mapStore values).OnlyWay "Table" (tableEdge values) "Map" where
  points := by
    have declared : (mapStore values).hasConstant "Map" = true := by
      rw [hasConstant, (coherent_mapStore values).anyAt, everyPin_mapStore]
      rfl
    have direct : (mapStore values).directConstant? "" "Map" = some "Map" := by
      simp only [directConstant?, Path.join_root, declared, if_true]
    have gates : (tableEdge values).targetGates = [""] := rfl
    have looked : (mapStore values).dereference? (tableEdge values) = _ := dereference?_eq rfl
    have name : (tableEdge values).name = "Map" := rfl
    rw [looked, gates, name, resolve?_simple (by decide : Path.IsSegment "Map"), direct]
    rfl
  first _ := by
    cases found : (mapStore values).edges "Table" .superclass with
    | nil => exact absurd (tableEdge_listed values) (by simp [found])
    | cons edge others =>
      have listed : edge ∈ (mapStore values).edges "Table" .superclass :=
        found ▸ List.mem_cons_self
      exact congrArg some (eq_tableEdge listed)
  apart := by decide
  alone _ _ _ _ listed _ := by rw [eq_tableEdge listed]
  declared source _ _ := by
    unfold defaultSuperclass?
    split_ifs <;> decide

/-- Bindings in written form. -/
def boundTags (b : Bindings) : List (String × String) :=
  b.entries.map fun (name, t) => (name, t.tag)

theorem isName_words : ∀ word ∈ ["Map", "Symbol", "Integer"], IsName word.toList := by
  have ident : ∀ {word : List Char}, IsIdent word → IsName word :=
    fun isIdent => .inr (.inr (.inr (.inr isIdent.isPath)))
  intro word listed
  simp only [List.mem_cons, List.not_mem_nil, or_false] at listed
  rcases listed with rfl | rfl | rfl
  · exact ident ⟨'M', ['a', 'p'], [], by decide⟩
  · exact ident ⟨'S', ['y', 'm', 'b', 'o', 'l'], [], by decide⟩
  · exact ident ⟨'I', ['n', 't', 'e', 'g', 'e', 'r'], [], by decide⟩

theorem words_of_params {m : Member}
    (params : m.params = [.single (.named "Symbol"), .single (.named "Integer")]) :
    ∀ u ∈ m.params, ∃ word : String, IsName word.toList ∧ u = .single (.named word) := by
  rw [params]
  exact List.forall_mem_cons.mpr ⟨⟨_, isName_words "Symbol" (by simp), rfl⟩,
    List.forall_mem_singleton.mpr ⟨_, isName_words "Integer" (by simp), rfl⟩⟩

/-- `Map<Symbol, Integer>` -/
def mapInRow : Member :=
  ⟨"Map", false, .list, [], [.single (.named "Symbol"), .single (.named "Integer")]⟩

theorem ofTag?_mapInRow : Ty.ofTag? "Map<Symbol, Integer>" = some (.single mapInRow) := by
  have text : (Ty.single mapInRow).tag = "Map<Symbol, Integer>" := by decide
  rw [← text]
  exact Ty.ofTag?_of_words (isName_words "Map" (by simp)) (by simp [Member.Fits, mapInRow])
    (by simp [Member.SlotsFit, mapInRow]) (by decide) rfl (words_of_params rfl)

theorem bindings_edge_eq_receiver_iff_mapInRow :
    ∃ atEdge atReceiver : Frame,
      frameAt (Id.run ((mapStore mapInRow.subs).ancestors "Table" .instanceLevel))
        ("Map", .instanceLevel) = some atEdge ∧
      frameAt (Id.run ((mapStore mapInRow.subs).receiverAncestors mapInRow))
        ("Map", .instanceLevel) = some atReceiver ∧
      boundTags atEdge.bindings = [("K", "Symbol"), ("V", "Integer")] ∧
      atEdge.bindings = atReceiver.bindings := by
  have read : filePins "map.toml" (mapFile "Map<Symbol, Integer>") =
      .ok ((mapStore mapInRow.subs).pinsOf "map.toml") :=
    (filePins_mapFile ofTag?_mapInRow rfl rfl).trans (congrArg _ (pinsOf_mapStore _).symm)
  have unrooted : Path.unrooted "Table" = "Table" := by decide
  obtain ⟨edge, listed, -, -, same⟩ := bindings_edge_eq_receiver_iff rfl read
    (List.mem_cons_of_mem _ List.mem_cons_self) (.head _) (.inl rfl) ofTag?_mapInRow (by decide)
    (by decide) (genericsOf_mapStore _)
  obtain rfl := eq_tableEdge listed
  rw [tableEntry, unrooted] at same
  obtain ⟨atEdge, atReceiver, found, found', bound, -, alike, -⟩ :=
    same (onlyWay_tableEdge mapInRow.subs)
  refine ⟨atEdge, atReceiver, found, found', ?_, alike (by decide) (by decide)⟩
  rw [bound]
  decide

/-- `Map{Symbol => Integer}` -/
def mapByKey : Member :=
  ⟨"Map", false, .hash, [.single (.named "Symbol")], [.single (.named "Integer")]⟩

theorem ofTag?_mapByKey : Ty.ofTag? "Map{Symbol => Integer}" = some (.single mapByKey) := by
  have text : (Ty.single mapByKey).tag = "Map{Symbol => Integer}" := by decide
  rw [← text]
  exact Ty.ofTag?_of_words (isName_words "Map" (by simp)) (by simp [Member.Fits, mapByKey])
    (by simp [Member.SlotsFit, mapByKey]) (by decide) rfl (words_of_params rfl)

/-- The key of a type with keys is lost on the way to the edge, and the first generic, which stands
for the key, is bound to the value. -/
theorem bindings_edge_ne_receiver_mapByKey :
    filePins "map.toml" (mapFile "Map{Symbol => Integer}") =
      .ok ((mapStore mapByKey.subs).pinsOf "map.toml") ∧
    Ty.ofTag? "Map{Symbol => Integer}" = some (.single mapByKey) ∧
    (Ty.single mapByKey).isGeneric = false ∧
    ∃ atEdge atReceiver : Frame,
      frameAt (Id.run ((mapStore mapByKey.subs).ancestors "Table" .instanceLevel))
        ("Map", .instanceLevel) = some atEdge ∧
      frameAt (Id.run ((mapStore mapByKey.subs).receiverAncestors mapByKey))
        ("Map", .instanceLevel) = some atReceiver ∧
      boundTags atEdge.bindings = [("K", "Integer")] ∧
      boundTags atReceiver.bindings = [("K", "Symbol"), ("V", "Integer")] ∧
      atEdge.bindings ≠ atReceiver.bindings := by
  have read := filePins_mapFile ofTag?_mapByKey rfl rfl
  have atEdge := (onlyWay_tableEdge mapByKey.subs).frameAt_ancestors (coherent_mapStore _)
    (tableEdge_listed mapByKey.subs) (.inl rfl) (by decide)
  have atReceiver : frameAt (Id.run ((mapStore mapByKey.subs).receiverAncestors mapByKey))
      ("Map", .instanceLevel) = _ := frameAt_receiverAncestors mapByKey
  rw [genericsOf_mapStore] at atEdge
  rw [mapByKey.receiverFrame_of_instanceLevel (by decide), (by rfl : mapByKey.space = "Map"),
    genericsOf_mapStore] at atReceiver
  refine ⟨read, ofTag?_mapByKey, by decide, _, _, atEdge, atReceiver, ?_, ?_, fun same => ?_⟩
  · decide
  · decide
  · exact absurd (congrArg boundTags same) (by decide)

end Decl

end DuckInfer
