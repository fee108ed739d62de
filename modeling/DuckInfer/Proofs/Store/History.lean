import DuckInfer.Proofs.Store.Coherence

/-!
Queries after any history of changes. The groups that are left form a plain list: a replaced group
keeps its place, a new one comes last, and a removed one is gone. Main statement: every query on the
store answers as a scan over the pins of that list does, and as the store built from the list at
once does.
-/

namespace DuckInfer.Store

/-! ### Changes -/

/-- A change of a store. -/
inductive Change where
  | update (key : String) (pins : List Pin)
  | remove (key : String)

/-- Makes a change. -/
def change (store : Store) : Change → Store
  | .update key pins => store.update key pins
  | .remove key => store.remove key

/-- The store after several changes, one after the other, that begin with an empty store. -/
def afterChanges (changes : List Change) : Store :=
  changes.foldl change empty

/-- Makes a change in a plain list of groups. -/
def changeLive (groups : List (String × List Pin)) : Change → List (String × List Pin)
  | .update key pins =>
    if groups.any (·.1 == key) then groups.map fun g => if g.1 == key then (key, pins) else g
    else groups ++ [(key, pins)]
  | .remove key => groups.filter (·.1 != key)

/-- The groups as a plain list. -/
def live (store : Store) : List (String × List Pin) :=
  store.groups.map fun g => (g.key, g.pins)

/-- The groups that are left after several changes, in their order. -/
def liveAfter (changes : List Change) : List (String × List Pin) :=
  changes.foldl changeLive []

/-! ### Answers -/

/-- The answers to all queries. -/
structure Answers where
  keysInOrder : List String
  pinsOf : String → List Pin
  everyPin : List Pin
  size : Nat
  pinsAt : String → List Pin
  hasPin : String → Bool
  spacesAt : String → List Pin
  hasSpace : String → Bool
  hasConstant : String → Bool
  hasModule : String → Bool
  genericsOf : String → List String
  membersOf : String → List Pin
  methodsOf : String → Scope → List Pin
  constantsOf : String → List Pin
  edgesFrom : String → List EdgeKind → List Pin
  edges : String → EdgeKind → List Pin
  overrides : String → List Pin
  allBlocks : List Pin
  template? : String → Option Doc.Directive

/-- The answers of a store, which looks into its indexes. -/
def answers (store : Store) : Answers where
  keysInOrder := store.keysInOrder
  pinsOf := store.pinsOf
  everyPin := store.everyPin
  size := store.size
  pinsAt := store.pinsAt
  hasPin := store.hasPin
  spacesAt := store.spacesAt
  hasSpace := store.hasSpace
  hasConstant := store.hasConstant
  hasModule := store.hasModule
  genericsOf := store.genericsOf
  membersOf := store.membersOf
  methodsOf := store.methodsOf
  constantsOf := store.constantsOf
  edgesFrom := store.edgesFrom
  edges := store.edges
  overrides := store.overrides
  allBlocks := store.allBlocks
  template? := store.template?

/-- The pin is an edge of one of some kinds that starts from a namespace. -/
def isEdgeFrom (space : String) (kinds : List EdgeKind) (pin : Pin) : Bool :=
  match pin.edgeKind? with
  | none | some .overrides => false
  | some kind => pin.space == space && kinds.contains kind

/-- The answers of a scan over all pins of the groups in their order. -/
def scan (groups : List (String × List Pin)) : Answers :=
  let pins := groups.flatMap Prod.snd
  { keysInOrder := groups.map Prod.fst
    pinsOf := fun key => (groups.lookup key).getD []
    everyPin := pins
    size := pins.length
    pinsAt := fun path => pins.filter (·.path == path)
    hasPin := fun path => pins.any (·.path == path)
    spacesAt := fun path => pins.filter fun pin => pin.path == path && pin.isSpace
    hasSpace := fun path => path.isEmpty || pins.any fun pin => pin.path == path && pin.isSpace
    hasConstant := fun path =>
      pins.any fun pin => pin.path == path && (pin.isSpace || pin.isConstant)
    hasModule := fun path => pins.any fun pin => pin.path == path && declaresModule pin
    genericsOf := fun path =>
      ((pins.find? fun pin => pin.path == path && !pin.generics.isEmpty).map Pin.generics).getD []
    membersOf := fun space => pins.filter (·.owner? == some space)
    methodsOf := fun space scope =>
      pins.filter fun pin => pin.owner? == some space && pin.methodLevel? == some scope
    constantsOf := fun space =>
      pins.filter fun pin => pin.owner? == some space && (pin.isConstant || pin.isSpace)
    edgesFrom := fun space kinds => pins.filter (isEdgeFrom space kinds)
    edges := fun space kind => pins.filter (isEdgeFrom space [kind])
    overrides := fun path =>
      pins.filter fun pin => pin.edgeKind? == some .overrides && pin.name == path
    allBlocks := pins.filter Pin.isBlock
    template? := fun name =>
      pins.findSome? fun pin => pin.templates.find? (·.firstWord? == some name) }

/-! ### The plain list follows the store -/

theorem any_live (store : Store) (key : String) :
    store.live.any (·.1 == key) = (store.group? key).isSome := by
  rw [live, group?, List.any_map, Bool.eq_iff_iff]
  simp [List.find?_isSome]

theorem live_update (store : Store) (key : String) (pins : List Pin) :
    (store.update key pins).live = changeLive store.live (.update key pins) := by
  simp only [changeLive, any_live]
  cases found : store.group? key with
  | none => simp [live, (update_absent found pins).1]
  | some old =>
    simp only [live, (update_found found pins).1, setPins, List.map_map, Option.isSome_some,
      if_true]
    refine List.map_congr_left fun g _ => ?_
    by_cases same : g.key = key <;> simp [same]

theorem live_remove (store : Store) (key : String) :
    (store.remove key).live = changeLive store.live (.remove key) := by
  simp only [changeLive]
  cases found : store.group? key with
  | none =>
    rw [remove_absent found]
    refine (List.filter_eq_self.mpr fun group member => ?_).symm
    obtain ⟨g, listed, rfl⟩ := List.mem_map.mp member
    exact bne_iff_ne.mpr (key_ne_of_absent found g listed)
  | some old => simp [live, (remove_found found).1, List.filter_map, Function.comp_def]

theorem live_change (store : Store) (change : Change) :
    (store.change change).live = changeLive store.live change := by
  cases change with
  | update key pins => exact live_update store key pins
  | remove key => exact live_remove store key

theorem Coherent.change {store : Store} (coherent : store.Coherent) (change : Change) :
    (store.change change).Coherent := by
  cases change with
  | update key pins => exact coherent.update key pins
  | remove key => exact coherent.remove key

theorem Coherent.changes {changes : List Change} :
    ∀ {store : Store}, store.Coherent → (changes.foldl Store.change store).Coherent := by
  induction changes with
  | nil => intro store coherent; exact coherent
  | cons change changes ih => intro store coherent; exact ih (coherent.change change)

theorem live_changes (changes : List Change) :
    ∀ store : Store,
      (changes.foldl Store.change store).live = changes.foldl changeLive store.live := by
  induction changes with
  | nil => intro store; rfl
  | cons change changes ih =>
    intro store
    rw [List.foldl_cons, ih, live_change, List.foldl_cons]

/-! ### Buckets answer as scans -/

theorem map_pin_under (index : IndexName) (key : String) (postings : List Posting) :
    (under index key postings).map Posting.pin =
      (postings.map Posting.pin).flatMap fun pin =>
        List.replicate ((pin.keys index).count key) pin := by
  simp [under, List.map_flatMap, List.flatMap_map]

/-- A pin that has a key at most once is found once by it. -/
theorem flatMap_replicate_eq_filter (count : Pin → Nat) (test : Pin → Bool)
    (once : ∀ pin, count pin = if test pin then 1 else 0) (pins : List Pin) :
    (pins.flatMap fun pin => List.replicate (count pin) pin) = pins.filter test := by
  induction pins with
  | nil => rfl
  | cons pin pins ih =>
    rw [List.flatMap_cons, ih, once, List.filter_cons]
    split <;> simp

theorem findSome?_flatMap_replicate {α : Type} (count : Pin → Nat) (f : Pin → Option α)
    (missed : ∀ pin, count pin = 0 → f pin = none) (pins : List Pin) :
    (pins.flatMap fun pin => List.replicate (count pin) pin).findSome? f = pins.findSome? f := by
  induction pins with
  | nil => rfl
  | cons pin pins ih =>
    rw [List.flatMap_cons, List.findSome?_append, ih, List.findSome?_cons]
    cases times : count pin with
    | zero => simp [missed pin times]
    | succ n => cases found : f pin <;> simp [found]

theorem Coherent.bucket {store : Store} (coherent : store.Coherent) (index : IndexName)
    (key : String) :
    (store.indexes.get index).pins key =
      store.everyPin.flatMap fun pin => List.replicate ((pin.keys index).count key) pin := by
  rw [Index.pins, coherent.holds.buckets, map_pin_under, map_pin_postingsOf]
  rfl

theorem Coherent.bucket_eq_filter {store : Store} (coherent : store.Coherent) (index : IndexName)
    (key : String) (test : Pin → Bool)
    (once : ∀ pin, (pin.keys index).count key = if test pin then 1 else 0) :
    (store.indexes.get index).pins key = store.everyPin.filter test := by
  rw [coherent.bucket, flatMap_replicate_eq_filter _ _ once]

theorem Coherent.pinsAt {store : Store} (coherent : store.Coherent) (path : String) :
    store.pinsAt path = store.everyPin.filter (·.path == path) := by
  refine coherent.bucket_eq_filter .paths path _ fun pin => ?_
  simp [Pin.keys, List.count_cons]

theorem Coherent.membersOf {store : Store} (coherent : store.Coherent) (space : String) :
    store.membersOf space = store.everyPin.filter (·.owner? == some space) := by
  refine coherent.bucket_eq_filter .children space _ fun pin => ?_
  cases owner : pin.owner? <;> simp [Pin.keys, owner, List.count_cons]

theorem Coherent.overrides {store : Store} (coherent : store.Coherent) (path : String) :
    store.overrides path =
      store.everyPin.filter fun pin => pin.edgeKind? == some .overrides && pin.name == path := by
  refine coherent.bucket_eq_filter .overrides path _ fun pin => ?_
  by_cases kind : pin.edgeKind? = some .overrides <;> simp [Pin.keys, kind, List.count_cons]

theorem Coherent.edgesFrom {store : Store} (coherent : store.Coherent) (space : String)
    (kinds : List EdgeKind) :
    store.edgesFrom space kinds = store.everyPin.filter (isEdgeFrom space kinds) := by
  have bucket := coherent.bucket_eq_filter .edges space
    (isEdgeFrom space [.superclass, .includes, .prepends, .extends]) (fun pin => by
      cases known : pin.edgeKind? with
      | none => simp [Pin.keys, isEdgeFrom, known]
      | some kind => cases kind <;> simp [Pin.keys, isEdgeFrom, known, List.count_cons])
  show List.filter _ ((store.indexes.get .edges).pins space) = _
  rw [bucket, List.filter_filter]
  refine List.filter_congr fun pin _ => ?_
  unfold isEdgeFrom
  cases pin.edgeKind? with
  | none => rfl
  | some kind => cases kind <;> simp [Bool.and_comm]

theorem Coherent.template? {store : Store} (coherent : store.Coherent) (name : String) :
    store.template? name =
      store.everyPin.findSome? fun pin => pin.templates.find? (·.firstWord? == some name) := by
  show List.findSome? _ ((store.indexes.get .templates).pins name) = _
  rw [coherent.bucket]
  refine findSome?_flatMap_replicate _ _ (fun pin none => ?_) _
  refine List.find?_eq_none.mpr fun template listed same => ?_
  refine List.count_eq_zero.mp none (List.mem_filterMap.mpr ⟨template, listed, ?_⟩)
  simpa using same

theorem Coherent.hasPin {store : Store} (coherent : store.Coherent) (path : String) :
    store.hasPin path = store.everyPin.any (·.path == path) := by
  have filled : store.hasPin path = !(store.pinsAt path).isEmpty := by
    simp only [Store.hasPin, Store.pinsAt, Index.pins, List.isEmpty_map]
    exact (coherent.holds.tidy .paths).contains_eq path
  rw [filled, coherent.pinsAt]
  cases found : store.everyPin.any (·.path == path) <;> simp_all [List.isEmpty_iff]

theorem Coherent.allBlocks {store : Store} (coherent : store.Coherent) :
    store.allBlocks = store.everyPin.filter Pin.isBlock := by
  have pins := map_pin_postingsOf store.groups
  rw [Store.allBlocks, coherent.holds.blocks, Store.everyPin, ← pins, List.filter_map]
  rfl

theorem everyPin_eq (store : Store) : store.everyPin = store.live.flatMap Prod.snd := by
  simp [everyPin, live, List.flatMap_map]

theorem keysInOrder_eq (store : Store) : store.keysInOrder = store.live.map Prod.fst := by
  simp [keysInOrder, live]

theorem pinsOf_eq (store : Store) (key : String) :
    store.pinsOf key = (store.live.lookup key).getD [] := by
  rw [pinsOf, group?, live]
  induction store.groups with
  | nil => rfl
  | cons g groups ih =>
    by_cases same : g.key = key
    · simp [same]
    · rw [List.find?_cons, beq_eq_false_iff_ne.mpr same, List.map_cons, List.lookup_cons,
        beq_eq_false_iff_ne.mpr (Ne.symm same)]
      exact ih

theorem filter_and (p q : Pin → Bool) (pins : List Pin) :
    (pins.filter p).filter q = pins.filter fun pin => p pin && q pin := by
  rw [List.filter_filter]
  exact List.filter_congr fun pin _ => Bool.and_comm ..

theorem Coherent.spacesAt {store : Store} (coherent : store.Coherent) (path : String) :
    store.spacesAt path = store.everyPin.filter fun pin => pin.path == path && pin.isSpace := by
  rw [Store.spacesAt, coherent.pinsAt, filter_and]

theorem Coherent.anyAt {store : Store} (coherent : store.Coherent) (path : String)
    (test : Pin → Bool) :
    (store.pinsAt path).any test = store.everyPin.any fun pin => pin.path == path && test pin := by
  rw [coherent.pinsAt, List.any_filter]

theorem Coherent.genericsOf {store : Store} (coherent : store.Coherent) (path : String) :
    store.genericsOf path =
      ((store.everyPin.find? fun pin => pin.path == path && !pin.generics.isEmpty).map
        Pin.generics).getD [] := by
  rw [Store.genericsOf, coherent.pinsAt, List.find?_filter]
  simp only [Bool.decide_and, Bool.decide_eq_true]
  cases List.find? _ store.everyPin <;> rfl

theorem Coherent.methodsOf {store : Store} (coherent : store.Coherent) (space : String)
    (scope : Scope) :
    store.methodsOf space scope =
      store.everyPin.filter fun pin =>
        pin.owner? == some space && pin.methodLevel? == some scope := by
  rw [Store.methodsOf, coherent.membersOf, filter_and]

theorem Coherent.constantsOf {store : Store} (coherent : store.Coherent) (space : String) :
    store.constantsOf space =
      store.everyPin.filter fun pin =>
        pin.owner? == some space && (pin.isConstant || pin.isSpace) := by
  rw [Store.constantsOf, coherent.membersOf, filter_and]

theorem Coherent.answers {store : Store} (coherent : store.Coherent) :
    store.answers = scan store.live := by
  unfold Store.answers scan
  simp only [Answers.mk.injEq, ← everyPin_eq]
  refine ⟨keysInOrder_eq store, ?_, trivial, rfl, ?_, ?_, ?_, ?_, ?_, ?_, ?_, ?_, ?_, ?_, ?_, ?_,
    ?_, coherent.allBlocks, ?_⟩
  · exact funext (pinsOf_eq store)
  · exact funext coherent.pinsAt
  · exact funext coherent.hasPin
  · exact funext coherent.spacesAt
  · exact funext fun path => congrArg (path.isEmpty || ·) (coherent.anyAt path _)
  · exact funext fun path => coherent.anyAt path _
  · exact funext fun path => coherent.anyAt path _
  · exact funext coherent.genericsOf
  · exact funext coherent.membersOf
  · exact funext fun space => funext (coherent.methodsOf space)
  · exact funext coherent.constantsOf
  · exact funext fun space => funext (coherent.edgesFrom space)
  · exact funext fun space => funext fun kind => coherent.edgesFrom space [kind]
  · exact funext coherent.overrides
  · exact funext coherent.template?

/-! ### A store built at once -/

theorem changeLive_new {groups : List (String × List Pin)} {key : String} (pins : List Pin)
    (fresh : key ∉ groups.map Prod.fst) :
    changeLive groups (.update key pins) = groups ++ [(key, pins)] := by
  have absent : groups.any (·.1 == key) = false := by
    rw [List.any_eq_false]
    intro group member same
    exact fresh (beq_iff_eq.mp same ▸ List.mem_map_of_mem member)
  simp [changeLive, absent]

/-- Groups of different keys that are added one after the other all stay. -/
theorem changeLive_updates :
    ∀ groups before : List (String × List Pin), ((before ++ groups).map Prod.fst).Nodup →
      (groups.map fun g => Change.update g.1 g.2).foldl changeLive before = before ++ groups := by
  intro groups
  induction groups with
  | nil => intro before _; simp
  | cons group groups ih =>
    obtain ⟨key, pins⟩ := group
    intro before distinct
    have fresh : key ∉ before.map Prod.fst := by
      rw [List.map_append, List.map_cons] at distinct
      intro member
      exact (List.nodup_append.mp distinct).2.2 key member key List.mem_cons_self rfl
    rw [List.map_cons, List.foldl_cons, changeLive_new pins fresh, ih]
    · simp
    · simpa using distinct

theorem ofGroups_eq (groups : List (String × List Pin)) :
    ofGroups groups = afterChanges (groups.map fun g => .update g.1 g.2) := by
  rw [afterChanges, List.foldl_map]
  rfl

theorem live_afterChanges (changes : List Change) :
    (afterChanges changes).live = liveAfter changes :=
  live_changes changes empty

theorem coherent_afterChanges (changes : List Change) : (afterChanges changes).Coherent :=
  coherent_empty.changes

theorem nodup_liveAfter (changes : List Change) : ((liveAfter changes).map Prod.fst).Nodup := by
  rw [← live_afterChanges, ← keysInOrder_eq]
  exact (coherent_afterChanges changes).keys

theorem liveAfter_updates {groups : List (String × List Pin)}
    (distinct : (groups.map Prod.fst).Nodup) :
    liveAfter (groups.map fun g => .update g.1 g.2) = groups :=
  changeLive_updates groups [] distinct

/-- After any changes, every query answers as a scan over the pins of the groups that are left, and
as on the store of these groups. -/
theorem answers_afterChanges (changes : List Change) :
    (afterChanges changes).answers = scan (liveAfter changes) ∧
      (afterChanges changes).answers = (ofGroups (liveAfter changes)).answers := by
  have scanned : ∀ changes, (afterChanges changes).answers = scan (liveAfter changes) := by
    intro changes
    rw [(coherent_afterChanges changes).answers, live_afterChanges]
  refine ⟨scanned changes, ?_⟩
  rw [ofGroups_eq, scanned, scanned, liveAfter_updates (nodup_liveAfter changes)]

end DuckInfer.Store
