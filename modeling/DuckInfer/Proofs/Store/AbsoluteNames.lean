import DuckInfer.Proofs.Infer.Lookups
import DuckInfer.Proofs.Store.Listing
import DuckInfer.Proofs.Store.Memory

/-!
Absolute names. The gates of a lookup do not matter for a name with `::` in front, so that a memory
that mixes up gates is still right about it. Main statement: after any history of changes and
queries, a declared path with `::` in front means itself, whatever the gates, the mixins and the
memory are.
-/

namespace DuckInfer

/-! ### Paths and their segments -/

namespace Text

variable {s : List Char}

theorem uncut_of_plain (plain : ¬ [':', ':'] <:+: s) : splitLast? s = none := by
  cases cut : splitLast? s with
  | none => rfl
  | some parts =>
    refine absurd ⟨parts.1, parts.2, ?_⟩ plain
    simpa using (append_of_splitLast? cut).symm

/-- A segment that does not end in a colon is cut off at the separator behind it. -/
theorem segments_separator (plain : ¬ [':', ':'] <:+: s) (closed : s.getLast? ≠ some ':')
    (rest : List Char) : segments (s ++ ':' :: ':' :: rest) = s :: segments rest := by
  induction s with
  | nil => rfl
  | cons c s ih =>
    have inner : ¬ [':', ':'] <:+: s := fun inside => plain (List.infix_cons inside)
    cases s with
    | nil =>
      have other : c ≠ ':' := by simpa using closed
      rw [List.cons_append, List.nil_append, segments]
      · rfl
      · exact fun _ same => absurd same other
    | cons d s =>
      have next := ih inner (by simpa using closed)
      rw [List.cons_append, segments, next]
      -- two colons in front would stand in the segment
      rintro tail rfl colon
      obtain ⟨rfl, -⟩ := List.cons.inj colon
      exact plain ⟨[], s, rfl⟩

end Text

namespace Path

/-- The path of some segments. -/
def ofSegments (segments : List String) : String :=
  "::".intercalate segments

theorem ofSegments_cons_cons (s t : String) (segments : List String) :
    ofSegments (s :: t :: segments) = s ++ "::" ++ ofSegments (t :: segments) :=
  String.intercalate_cons_cons

theorem join_ne_empty {outer : String} (inside : outer ≠ "") (name : String) :
    join outer name ≠ "" := by
  simp [join_of_nonempty inside]

theorem foldl_join {outer : String} (inside : outer ≠ "") (segments : List String) :
    segments.foldl join outer = ofSegments (outer :: segments) := by
  induction segments generalizing outer with
  | nil => rfl
  | cons s segments ih =>
    rw [List.foldl_cons, ih (join_ne_empty inside s), join_of_nonempty inside,
      ofSegments_cons_cons]
    cases segments with
    | nil => rfl
    | cons t segments => simp only [ofSegments_cons_cons, String.append_assoc]

/-- Segments without `::` that do not end in a colon, except for the last one, are those of their
path. -/
theorem segments_ofSegments {s : String} {others : List String}
    (plain : ∀ t ∈ s :: others, ¬ [':', ':'] <:+: t.toList)
    (closed : ∀ t ∈ (s :: others).dropLast, t.toList.getLast? ≠ some ':') :
    segments (ofSegments (s :: others)) = s :: others := by
  induction others generalizing s with
  | nil =>
    have uncut := Text.uncut_of_plain (plain s List.mem_cons_self)
    show (Text.segments s.toList).map String.ofList = [s]
    rw [Text.segments_of_uncut uncut, List.map_singleton, String.ofList_toList]
  | cons t others ih =>
    have tail := ih (fun u listed => plain u (List.mem_cons_of_mem _ listed))
      (fun u listed => closed u (List.mem_cons_of_mem _ listed))
    have text : (ofSegments (s :: t :: others)).toList =
        s.toList ++ ':' :: ':' :: (ofSegments (t :: others)).toList := by
      simp [ofSegments_cons_cons]
    rw [segments, text, Text.segments_separator (plain s List.mem_cons_self)
      (closed s List.mem_cons_self), List.map_cons, String.ofList_toList]
    exact congrArg (s :: ·) tail

theorem stripRoot?_rooted (path : String) : stripRoot? ("::" ++ path) = some path := by
  simp [stripRoot?]

theorem stripRoot?_of_segments {path s : String} {others : List String}
    (cut : segments path = s :: others) (inside : s ≠ "") : stripRoot? path = none := by
  unfold stripRoot?
  split
  · rename_i rest rooted
    have empty : s = "" := by
      rw [segments, rooted] at cut
      exact (List.cons.inj cut).1.symm
    exact absurd empty inside
  · rfl

theorem ne_empty_of_segments {path s : String} {others : List String}
    (cut : segments path = s :: others) (inside : s ≠ "") : path ≠ "" := by
  rintro rfl
  exact inside (List.cons.inj cut).1.symm

end Path

/-! ### Declared paths -/

namespace Store

variable {store : Store}

/-- A namespace or a constant is declared under the path. -/
def Declares (store : Store) (path : String) : Prop :=
  ∃ pin ∈ store.everyPin, pin.path = path ∧ (pin.isConstant || pin.isSpace) = true

instance (store : Store) (path : String) : Decidable (store.Declares path) :=
  inferInstanceAs (Decidable (∃ pin ∈ store.everyPin, _))

theorem constantInGate?_of_hasConstant {gate name : String}
    (declared : store.hasConstant (Path.join gate name) = true) :
    store.constantInGate? gate name = some (Path.join gate name) := by
  simp [constantInGate?, directConstant?, declared]

/-- A declared constant is found before those of mixins, segment by segment. -/
theorem foldl_constantInGate? {outer : String} {segments : List String}
    (declared : ∀ front, front <+: segments → front ≠ [] →
      store.hasConstant (front.foldl Path.join outer) = true) :
    segments.foldl (fun found s => found.bind fun gate => store.constantInGate? gate s)
      (some outer) = some (segments.foldl Path.join outer) := by
  induction segments generalizing outer with
  | nil => rfl
  | cons s segments ih =>
    have first : store.hasConstant (Path.join outer s) = true :=
      declared [s] (List.prefix_cons_inj s |>.mpr (List.nil_prefix)) (List.cons_ne_nil s [])
    rw [List.foldl_cons, List.foldl_cons, Option.bind_some, constantInGate?_of_hasConstant first]
    exact ih fun front leads _ =>
      declared (s :: front) ((List.prefix_cons_inj s).mpr leads) (List.cons_ne_nil s front)

/-- A path that is declared with all its outer paths in the first gate is found there. -/
theorem resolve?_of_declared {name gate : String} {gates : List String} {s : String}
    {others : List String} (cut : Path.segments name = s :: others) (inside : s ≠ "")
    (declared : ∀ front, front <+: s :: others → front ≠ [] →
      store.hasConstant (front.foldl Path.join gate) = true) :
    store.resolve? name (gate :: gates) = some ((s :: others).foldl Path.join gate) := by
  have first : store.hasConstant (Path.join gate s) = true :=
    declared [s] (List.prefix_cons_inj s |>.mpr (List.nil_prefix)) (List.cons_ne_nil s [])
  have filled : name.isEmpty = false := by simpa using Path.ne_empty_of_segments cut inside
  simp only [resolve?, resolveWith?, Path.stripRoot?_of_segments cut inside, filled, cut,
    List.findSome?_cons, constantInGate?_of_hasConstant first, Bool.false_eq_true, if_false]
  exact foldl_constantInGate? fun front leads _ =>
    declared (s :: front) ((List.prefix_cons_inj s).mpr leads) (List.cons_ne_nil s front)

/-- The gates do not matter for an absolute name. -/
theorem resolve?_of_rooted {name path : String} (rooted : Path.stripRoot? name = some path)
    (gates others : List String) : store.resolve? name gates = store.resolve? name others := by
  unfold resolve? resolveWith?
  rw [rooted]

/-- An absolute name is looked up in the root gate. -/
theorem resolve?_rooted {path : String} (relative : Path.stripRoot? path = none)
    (gates : List String) : store.resolve? ("::" ++ path) gates = store.resolve? path [""] := by
  unfold resolve? resolveWith?
  rw [Path.stripRoot?_rooted, relative]

end Store

namespace Library

/-! ### Histories with queries -/

/-- What happens to a library: a change, or a query that looks up constants of the store. -/
inductive Event where
  | update (key : String) (pins : List Pin)
  | remove (key : String)
  | query {α : Type} (q : Store → StateM Memo α) (lookups : ∀ store, MadeOfLookups store (q store))

namespace Event

/-- The constant that a name means in some gates is asked for. -/
def resolve (name : String) (gates : List String) : Event :=
  .query (fun store => store.lookup name gates) fun _ => .lookup name gates

/-- The target of a reference is asked for. -/
def dereference (edge : Pin) : Event :=
  .query (fun store => store.targetOf edge) fun store =>
    (LookupProperty.least _ store).holds_targetOf edge

/-- The constants of a namespace and of its mixins are listed. -/
def listConstants (space : String) : Event :=
  .query (fun store => store.visibleConstants space) fun store =>
    (LookupProperty.least _ store).holds_visibleConstants space

/-- The ancestors of a namespace are searched. -/
def ancestors (path : String) (scope : Scope) : Event :=
  .query (fun store => store.ancestors path scope) fun store =>
    (LookupProperty.least _ store).holds_search _

/-- The methods of a receiver are searched. -/
def methodsNamed (receiver : Member) (name : String) : Event :=
  .query (fun store => store.methodsNamed receiver name) fun store =>
    (LookupProperty.least _ store).holds_methodsNamed receiver name

theorem madeOfLookups_infer (an : Analyzer) (chain : Chain) (lexical : Pin) (locals : List Pin) :
    MadeOfLookups an.store (an.infer chain lexical locals : StateM Memo Ty) :=
  (LookupProperty.least _ an.store).holds_infer chain lexical locals

/-- The type of a chain is inferred. -/
def infer (budget : Nat) (chain : Chain) (lexical : Pin) (locals : List Pin) : Event :=
  .query (fun store => (Analyzer.mk store budget).infer chain lexical locals) fun store =>
    madeOfLookups_infer ⟨store, budget⟩ chain lexical locals

end Event

/-- The library after an event. -/
def after (lib : Library) : Event → Library
  | .update key pins => lib.update key pins
  | .remove key => (lib.remove key).2
  | .query q _ => (lib.ask (q lib.store)).2

/-- The library after several events, one after the other, that begin with an empty store. -/
def afterEvents (events : List Event) : Library :=
  events.foldl after (.ofStore .empty)

/-! ### Answers about absolute names -/

/-- What is remembered about absolute names is what the store answers. -/
def KnowsAbsolute (store : Store) (memo : Memo) : Prop :=
  ∀ name path gates answer, Path.stripRoot? name = some path →
    memo.find? name gates = some answer → answer = store.resolve? name gates

theorem knowsAbsolute_empty (store : Store) : KnowsAbsolute store .empty :=
  fun _ _ _ _ _ found => absurd found (by simp [Memo.find?, Memo.empty])

theorem KnowsAbsolute.lookup {store : Store} {memo : Memo} (knows : KnowsAbsolute store memo)
    (name : String) (gates : List String) :
    KnowsAbsolute store (memo.lookup store name gates).2 := by
  unfold Memo.lookup
  cases found : memo.find? name gates with
  | some answer => exact knows
  | none =>
    intro other path others answer rooted kept
    rw [Memo.find?_keep] at kept
    split at kept
    · rename_i same
      rw [beq_iff_eq] at same
      obtain rfl := Memo.name_eq_of_key same
      -- the answer may have been found for other gates, which do not matter
      rw [← Option.some.inj kept]
      exact store.resolve?_of_rooted rooted gates others
    · exact knows other path others answer rooted kept

/-- Lookups keep what is remembered about absolute names right. -/
def keepsAbsolute (store : Store) : LookupProperty (StateM Memo) store where
  Holds q := ∀ memo, KnowsAbsolute store memo → KnowsAbsolute store (q.run memo).2
  holds_pure _ _ knows := knows
  holds_bind first next memo knows := next _ _ (first memo knows)
  holds_lookup name gates _ knows := knows.lookup name gates

/-- The indexes are up to date, and what is remembered about absolute names is right. -/
structure Sound (lib : Library) : Prop where
  coherent : lib.store.Coherent
  absolute : KnowsAbsolute lib.store lib.memo

theorem sound_ofStore {store : Store} (coherent : store.Coherent) : (ofStore store).Sound :=
  ⟨coherent, knowsAbsolute_empty store⟩

theorem Sound.after {lib : Library} (sound : lib.Sound) (event : Event) :
    (lib.after event).Sound := by
  cases event with
  | update key pins => exact sound_ofStore (sound.coherent.update key pins)
  | remove key =>
    show (lib.remove key).2.Sound
    unfold Library.remove
    split
    · exact sound_ofStore (sound.coherent.remove key)
    · exact sound
  | query q lookups =>
    refine ⟨sound.coherent, ?_⟩
    exact (keepsAbsolute lib.store).holds_of_madeOfLookups (lookups lib.store) lib.memo
      sound.absolute

theorem sound_afterEvents (events : List Event) : (afterEvents events).Sound := by
  have start : (ofStore .empty).Sound := sound_ofStore (Store.coherent_afterChanges [])
  unfold afterEvents
  generalize ofStore .empty = lib at start
  induction events generalizing lib with
  | nil => exact start
  | cons event events ih => exact ih _ (start.after event)

/-- An absolute name means in a library what it means in the store, for any gates. -/
theorem Sound.resolve_rooted {lib : Library} (sound : lib.Sound) {name path : String}
    (rooted : Path.stripRoot? name = some path) (gates others : List String) :
    (lib.resolve name gates).1 = lib.store.resolve? name others := by
  rw [lib.store.resolve?_of_rooted rooted others gates, resolve_eq]
  cases found : lib.memo.find? name gates with
  | none => rfl
  | some answer => exact sound.absolute name path gates answer rooted found

/-- After any history of changes and queries, a path that is declared with all its outer paths is
what its name with `::` in front means, whatever the gates are. No segment but the last may end in
a colon, since a path is cut at each `::` from left to right. -/
theorem resolve_absolutePath (events : List Event) (segments gates : List String)
    (given : segments ≠ []) (simple : ∀ s ∈ segments, s ≠ "" ∧ ¬ [':', ':'] <:+: s.toList)
    (closed : ∀ s ∈ segments.dropLast, s.toList.getLast? ≠ some ':')
    (declared : ∀ n < segments.length,
      (afterEvents events).store.Declares (Path.ofSegments (segments.take (n + 1)))) :
    ((afterEvents events).resolve ("::" ++ Path.ofSegments segments) gates).1 =
      some (Path.ofSegments segments) := by
  obtain ⟨s, others, rfl⟩ := List.exists_cons_of_ne_nil given
  have sound := sound_afterEvents events
  have inside : s ≠ "" := (simple s List.mem_cons_self).1
  have cut := Path.segments_ofSegments (fun t listed => (simple t listed).2) closed
  have known : ∀ front, front <+: s :: others → front ≠ [] →
      (afterEvents events).store.hasConstant (front.foldl Path.join "") = true := by
    intro front leads filled
    obtain ⟨front, rfl, -⟩ := (List.prefix_cons_iff.mp leads).resolve_left filled
    have short : front.length < (s :: others).length := leads.length_le
    have named : (s :: others).take (front.length + 1) = s :: front :=
      (List.prefix_iff_eq_take.mp leads).symm
    rw [List.foldl_cons, Path.join_root, Path.foldl_join inside, ← named]
    exact (Store.hasConstant_iff sound.coherent).mpr (declared front.length short)
  rw [sound.resolve_rooted (Path.stripRoot?_rooted _) gates [""],
    Store.resolve?_rooted (Path.stripRoot?_of_segments cut inside),
    Store.resolve?_of_declared cut inside known]
  exact congrArg some (Path.foldl_join inside others)

section Colons

/-- Modules `Outer` and `Other` with a module `Inner` each, where the first includes the second. The
store is asked about them in several ways. -/
def innerAskedFor : List Event :=
  let outer : Pin := .make "Outer" (some .root) (.space true [])
  let other : Pin := .make "Other" (some .root) (.space true [])
  let edge : Pin := .edge outer .includes "Other" []
  [.update "core" Store.innerLimit,
    .update "a.rb" [other, .make "Inner" (some other) (.space true []), edge],
    .resolve "::Outer::Inner::LIMIT" [], .dereference edge, .listConstants "Outer",
    .ancestors "Outer" .instanceLevel, .methodsNamed (.named "Outer") "to_s",
    .infer 1 (.ofLinks [.constant "Inner"]) outer []]

/-- The included `Other::Inner` does not stand in the way. -/
theorem resolve_absolutePath_inner :
    let segments := ["Outer", "Inner", "LIMIT"]
    (segments ≠ [] ∧ (∀ s ∈ segments, s ≠ "" ∧ ¬ [':', ':'] <:+: s.toList) ∧
      (∀ s ∈ segments.dropLast, s.toList.getLast? ≠ some ':') ∧
      ∀ n < segments.length, (afterEvents innerAskedFor).store.Declares
        (Path.ofSegments (segments.take (n + 1)))) ∧
      ((afterEvents innerAskedFor).resolve "::Outer::Inner::LIMIT" ["Other", ""]).1 =
        some "Outer::Inner::LIMIT" := by
  intro segments
  have given : segments ≠ [] := by decide
  have simple : ∀ s ∈ segments, s ≠ "" ∧ ¬ [':', ':'] <:+: s.toList := by decide +kernel
  have closed : ∀ s ∈ segments.dropLast, s.toList.getLast? ≠ some ':' := by decide +kernel
  have declared : ∀ n < segments.length, (afterEvents innerAskedFor).store.Declares
      (Path.ofSegments (segments.take (n + 1))) := by decide +kernel
  exact ⟨⟨given, simple, closed, declared⟩,
    resolve_absolutePath innerAskedFor segments ["Other", ""] given simple closed declared⟩

/-- A module under the name `a:`, and a module `b` in it. -/
def colonAtEnd : List Event :=
  let outer : Pin := .make "a:" (some .root) (.space true [])
  [.update "a.rb" [outer, .make "b" (some outer) (.space true [])]]

/-- The path of `b` in `a:` is cut behind `a`, where nothing is declared. -/
theorem resolve_ne_of_colonAtEnd :
    ¬ ∀ (events : List Event) (segments gates : List String), segments ≠ [] →
      (∀ s ∈ segments, s ≠ "" ∧ ¬ [':', ':'] <:+: s.toList) →
      (∀ n < segments.length,
        (afterEvents events).store.Declares (Path.ofSegments (segments.take (n + 1)))) →
      ((afterEvents events).resolve ("::" ++ Path.ofSegments segments) gates).1 =
        some (Path.ofSegments segments) := by
  intro claimed
  have same := claimed colonAtEnd ["a:", "b"] [] (by decide) (by decide +kernel)
    (by decide +kernel)
  have answer : ((afterEvents colonAtEnd).resolve "::a:::b" []).1 = none := by decide +kernel
  have path : Path.ofSegments ["a:", "b"] = "a:::b" := by decide +kernel
  rw [path] at same
  exact absurd (answer.symm.trans same) (by simp)

end Colons

end Library

end DuckInfer
