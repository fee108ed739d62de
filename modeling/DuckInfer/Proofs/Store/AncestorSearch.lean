import DuckInfer.Proofs.Store.History
import DuckInfer.Store.Ancestors
import Mathlib.Logic.Relation
import Mathlib.Order.Defs.Unbundled

/-!
The ancestor search as reachability. One step leads from a namespace and a scope along an edge that
points somewhere, or to the superclass. Main statement: the search visits exactly what such steps
reach, each namespace and scope once, whatever circles the edges make; hence being an ancestor is
reflexive and transitive.
-/

namespace DuckInfer.Store

open Relation

/-- The path that a reference points at, as the store says by itself. -/
def dereference? (store : Store) (edge : Pin) : Option String :=
  Id.run (store.targetOf edge)

/-- One step of the search. -/
inductive AncestorStep (store : Store) : String × Scope → String × Scope → Prop where
  | prepended {path target : String} {edge : Pin} :
      edge ∈ store.edges path .prepends → store.dereference? edge = some target →
      AncestorStep store (path, .instanceLevel) (target, .instanceLevel)
  | included {path target : String} {edge : Pin} :
      edge ∈ store.edges path .includes → store.dereference? edge = some target →
      AncestorStep store (path, .instanceLevel) (target, .instanceLevel)
  | extended {path target : String} {edge : Pin} :
      edge ∈ store.edges path .extends → store.dereference? edge = some target →
      AncestorStep store (path, .classLevel) (target, .instanceLevel)
  /-- the first superclass that is declared -/
  | declared {path target : String} {edge : Pin} {scope : Scope} :
      (store.edges path .superclass).head? = some edge → store.dereference? edge = some target →
      AncestorStep store (path, scope) (target, scope)
  /-- the superclass of a class that declares none -/
  | implied {path target : String} {scope : Scope} :
      store.edges path .superclass = [] →
      defaultSuperclass? path (store.hasModule path) = some target →
      AncestorStep store (path, scope) (target, scope)

/-- What steps reach from a start. A namespace itself is also an instance of `Class` or `Module`. -/
def Reaches (store : Store) (start key : String × Scope) : Prop :=
  ReflTransGen store.AncestorStep start key ∨
    start.2 = .classLevel ∧
      ReflTransGen store.AncestorStep (store.metaPath start.1, .instanceLevel) key

/-! ### Expansion of a frame -/

theorem run_follow (store : Store) (source : Frame) (edge : Pin) (scope : Scope) :
    Id.run (store.follow source edge scope) =
      (store.dereference? edge).map fun target =>
        Frame.mk target scope (store.edgeBindings source edge target) := by
  unfold follow dereference?
  rw [Id.run_bind]
  cases Id.run (store.targetOf edge) <;> rfl

theorem run_followAll (store : Store) (source : Frame) (kind : EdgeKind) :
    Id.run (store.followAll source kind) =
      (store.edges source.path kind).filterMap fun edge =>
        Id.run (store.follow source edge .instanceLevel) := by
  simp [followAll, List.filterMap_map]

theorem mem_followAll {store : Store} {source : Frame} {kind : EdgeKind} {key : String × Scope} :
    key ∈ (Id.run (store.followAll source kind)).map Frame.key ↔
      ∃ edge ∈ store.edges source.path kind, ∃ target,
        store.dereference? edge = some target ∧ key = (target, .instanceLevel) := by
  rw [run_followAll]
  simp only [run_follow, List.mem_map, List.mem_filterMap, Option.map_eq_some_iff, Frame.key]
  constructor
  · rintro ⟨frame, ⟨edge, listed, target, found, rfl⟩, rfl⟩
    exact ⟨edge, listed, target, found, rfl⟩
  · rintro ⟨edge, listed, target, found, rfl⟩
    exact ⟨_, ⟨edge, listed, target, found, rfl⟩, rfl⟩

theorem mem_superclassOf {store : Store} {source : Frame} {scope : Scope}
    {key : String × Scope} :
    key ∈ (Id.run (store.superclassOf source scope)).toList.map Frame.key ↔
      ∃ target, key = (target, scope) ∧
        ((∃ edge, (store.edges source.path .superclass).head? = some edge ∧
            store.dereference? edge = some target) ∨
          store.edges source.path .superclass = [] ∧
            defaultSuperclass? source.path (store.hasModule source.path) = some target) := by
  unfold superclassOf
  cases edges : store.edges source.path .superclass with
  | nil =>
    cases implied : defaultSuperclass? source.path (store.hasModule source.path) <;>
      simp [Frame.make, Frame.key]
  | cons edge others =>
    cases found : store.dereference? edge <;> simp [run_follow, found, Frame.key]

/-- The frames that steps expand. -/
def expanded : List SearchStep → List Frame
  | [] => []
  | .expand frame :: steps => frame :: expanded steps
  | .emit _ :: steps => expanded steps

/-- The frames that steps emit. -/
def emitted : List SearchStep → List Frame
  | [] => []
  | .emit frame :: steps => frame :: emitted steps
  | .expand _ :: steps => emitted steps

theorem expanded_append (steps others : List SearchStep) :
    expanded (steps ++ others) = expanded steps ++ expanded others := by
  induction steps with
  | nil => rfl
  | cons step steps ih => cases step <;> simp [expanded, ih]

theorem emitted_append (steps others : List SearchStep) :
    emitted (steps ++ others) = emitted steps ++ emitted others := by
  induction steps with
  | nil => rfl
  | cons step steps ih => cases step <;> simp [emitted, ih]

theorem expanded_map (frames : List Frame) : expanded (frames.map .expand) = frames := by
  induction frames with
  | nil => rfl
  | cons frame frames ih => simp [expanded, ih]

theorem emitted_map (frames : List Frame) : emitted (frames.map .expand) = [] := by
  induction frames with
  | nil => rfl
  | cons frame frames ih => simp [emitted, ih]

theorem expanded_toList (frame : Option Frame) :
    expanded (frame.map SearchStep.expand).toList = frame.toList := by
  cases frame <;> rfl

theorem emitted_toList (frame : Option Frame) :
    emitted (frame.map SearchStep.expand).toList = [] := by
  cases frame <;> rfl

theorem run_expansion_instance {store : Store} {frame : Frame}
    (level : frame.scope = .instanceLevel) :
    Id.run (store.expansion frame) =
      (Id.run (store.followAll frame .prepends)).reverse.map .expand ++
        .emit frame :: (Id.run (store.followAll frame .includes)).reverse.map .expand ++
        ((Id.run (store.superclassOf frame .instanceLevel)).map SearchStep.expand).toList := by
  unfold expansion
  rw [level]
  rfl

theorem run_expansion_class {store : Store} {frame : Frame} (level : frame.scope = .classLevel) :
    Id.run (store.expansion frame) =
      .emit frame :: (Id.run (store.followAll frame .extends)).reverse.map .expand ++
        ((Id.run (store.superclassOf frame .classLevel)).map SearchStep.expand).toList := by
  unfold expansion
  rw [level]
  rfl

theorem emitted_expansion (store : Store) (frame : Frame) :
    emitted (Id.run (store.expansion frame)) = [frame] := by
  cases level : frame.scope with
  | instanceLevel =>
    simp only [run_expansion_instance level, emitted_append, emitted_map, emitted_toList, emitted,
      List.nil_append, List.append_nil]
  | classLevel =>
    simp only [run_expansion_class level, emitted_append, emitted_map, emitted_toList, emitted,
      List.cons_append, List.append_nil]

theorem expanded_expansion_instance {store : Store} {frame : Frame}
    (level : frame.scope = .instanceLevel) :
    expanded (Id.run (store.expansion frame)) =
      (Id.run (store.followAll frame .prepends)).reverse ++
        (Id.run (store.followAll frame .includes)).reverse ++
        (Id.run (store.superclassOf frame .instanceLevel)).toList := by
  simp only [run_expansion_instance level, expanded_append, expanded_map, expanded_toList, expanded]

theorem expanded_expansion_class {store : Store} {frame : Frame}
    (level : frame.scope = .classLevel) :
    expanded (Id.run (store.expansion frame)) =
      (Id.run (store.followAll frame .extends)).reverse ++
        (Id.run (store.superclassOf frame .classLevel)).toList := by
  simp only [run_expansion_class level, expanded_append, expanded_map, expanded_toList, expanded,
    List.cons_append]

/-- A superclass is one step away in either scope. -/
theorem step_superclass {store : Store} {path target : String} {scope : Scope}
    (superclass : (∃ edge, (store.edges path .superclass).head? = some edge ∧
        store.dereference? edge = some target) ∨
      store.edges path .superclass = [] ∧
        defaultSuperclass? path (store.hasModule path) = some target) :
    store.AncestorStep (path, scope) (target, scope) := by
  rcases superclass with ⟨edge, first, found⟩ | ⟨none, implied⟩
  · exact .declared first found
  · exact .implied none implied

/-- A frame expands exactly to what one step reaches. -/
theorem mem_expanded_expansion {store : Store} {frame : Frame} {key : String × Scope} :
    key ∈ (expanded (Id.run (store.expansion frame))).map Frame.key ↔
      store.AncestorStep frame.key key := by
  obtain ⟨path, scope, bindings⟩ := frame
  cases scope with
  | instanceLevel =>
    rw [expanded_expansion_instance rfl]
    simp only [List.map_append, List.mem_append, List.map_reverse, List.mem_reverse, mem_followAll,
      mem_superclassOf]
    constructor
    · rintro ((⟨edge, listed, target, found, rfl⟩ | ⟨edge, listed, target, found, rfl⟩) |
        ⟨target, rfl, superclass⟩)
      · exact .prepended listed found
      · exact .included listed found
      · exact step_superclass superclass
    · intro step
      cases step with
      | prepended listed found => exact Or.inl (Or.inl ⟨_, listed, _, found, rfl⟩)
      | included listed found => exact Or.inl (Or.inr ⟨_, listed, _, found, rfl⟩)
      | declared first found => exact Or.inr ⟨_, rfl, Or.inl ⟨_, first, found⟩⟩
      | implied none implied => exact Or.inr ⟨_, rfl, Or.inr ⟨none, implied⟩⟩
  | classLevel =>
    rw [expanded_expansion_class rfl]
    simp only [List.map_append, List.mem_append, List.map_reverse, List.mem_reverse, mem_followAll,
      mem_superclassOf]
    constructor
    · rintro (⟨edge, listed, target, found, rfl⟩ | ⟨target, rfl, superclass⟩)
      · exact .extended listed found
      · exact step_superclass superclass
    · intro step
      cases step with
      | extended listed found => exact Or.inl ⟨_, listed, _, found, rfl⟩
      | declared first found => exact Or.inr ⟨_, rfl, Or.inl ⟨_, first, found⟩⟩
      | implied none implied => exact Or.inr ⟨_, rfl, Or.inr ⟨none, implied⟩⟩

/-! ### Working off a stack -/

theorem workOff_emit (store : Store) (pending : List (String × Scope)) (frame : Frame)
    (stack : List SearchStep) :
    Id.run (store.workOff pending (.emit frame :: stack)) =
      frame :: Id.run (store.workOff pending stack) := by
  rw [workOff]
  rfl

theorem workOff_expand {store : Store} {pending : List (String × Scope)} {frame : Frame}
    (new : frame.key ∈ pending) (stack : List SearchStep) :
    Id.run (store.workOff pending (.expand frame :: stack)) =
      Id.run (store.workOff (eraseKeyFrom pending frame.key)
        (Id.run (store.expansion frame) ++ stack)) := by
  rw [workOff]
  simp only [new, dif_pos]
  rfl

theorem workOff_skip {store : Store} {pending : List (String × Scope)} {frame : Frame}
    (known : frame.key ∉ pending) (stack : List SearchStep) :
    Id.run (store.workOff pending (.expand frame :: stack)) =
      Id.run (store.workOff pending stack) := by
  rw [workOff]
  simp only [known, dif_neg, not_false_eq_true]

theorem mem_eraseKeyFrom {pending : List (String × Scope)} {key other : String × Scope} :
    key ∈ eraseKeyFrom pending other ↔ key ∈ pending ∧ key ≠ other := by
  simp [eraseKeyFrom]

/-- Only frames on the stack are emitted, and those that steps reach from frames to expand. -/
theorem workOff_sound (store : Store) (pending : List (String × Scope))
    (stack : List SearchStep) :
    ∀ key ∈ (Id.run (store.workOff pending stack)).map Frame.key,
      key ∈ (emitted stack).map Frame.key ∨
        ∃ frame ∈ expanded stack, ReflTransGen store.AncestorStep frame.key key := by
  induction pending, stack using workOff.induct with
  | case1 pending =>
    intro key member
    rw [workOff] at member
    exact absurd member List.not_mem_nil
  | case2 pending frame stack ih =>
    intro key member
    rw [workOff_emit] at member
    rcases List.mem_cons.mp member with rfl | later
    · exact Or.inl List.mem_cons_self
    · exact (ih key later).imp_left (List.mem_cons_of_mem _)
  | case3 pending frame stack new ih =>
    intro key member
    rw [workOff_expand new] at member
    rcases ih _ key member with direct | ⟨other, listed, path⟩
    · rw [emitted_append, emitted_expansion] at direct
      rcases List.mem_cons.mp direct with rfl | later
      · exact Or.inr ⟨frame, List.mem_cons_self, .refl⟩
      · exact Or.inl later
    · rw [expanded_append] at listed
      rcases List.mem_append.mp listed with next | later
      · have step := mem_expanded_expansion.mp (List.mem_map_of_mem (f := Frame.key) next)
        exact Or.inr ⟨frame, List.mem_cons_self, .head step path⟩
      · exact Or.inr ⟨other, List.mem_cons_of_mem _ later, path⟩
  | case4 pending frame stack known ih =>
    intro key member
    rw [workOff_skip known] at member
    rcases ih key member with direct | ⟨other, listed, path⟩
    · exact Or.inl direct
    · exact Or.inr ⟨other, List.mem_cons_of_mem _ listed, path⟩

/-- A key that was expanded is not emitted again. -/
theorem workOff_nodup (store : Store) (pending : List (String × Scope))
    (stack : List SearchStep) :
    ((emitted stack).map Frame.key).Nodup →
      (∀ key ∈ (emitted stack).map Frame.key, key ∉ pending) →
      ((Id.run (store.workOff pending stack)).map Frame.key).Nodup ∧
        ∀ key ∈ (Id.run (store.workOff pending stack)).map Frame.key,
          key ∈ (emitted stack).map Frame.key ∨ key ∈ pending := by
  induction pending, stack using workOff.induct with
  | case1 pending =>
    intro _ _
    rw [workOff]
    exact ⟨List.nodup_nil, fun key member => absurd member List.not_mem_nil⟩
  | case2 pending frame stack ih =>
    intro distinct apart
    obtain ⟨first, distinct⟩ := List.nodup_cons.mp distinct
    obtain ⟨nodup, known⟩ := ih distinct fun key member => apart key (List.mem_cons_of_mem _ member)
    rw [workOff_emit]
    refine ⟨List.nodup_cons.mpr ⟨fun again => ?_, nodup⟩, fun key member => ?_⟩
    · rcases known _ again with direct | left
      · exact first direct
      · exact apart _ List.mem_cons_self left
    · rcases List.mem_cons.mp member with rfl | later
      · exact Or.inl List.mem_cons_self
      · exact (known key later).imp_left (List.mem_cons_of_mem _)
  | case3 pending frame stack new ih =>
    intro distinct apart
    have emits : (emitted (Id.run (store.expansion frame) ++ stack)).map Frame.key =
        frame.key :: (emitted stack).map Frame.key := by
      rw [emitted_append, emitted_expansion]
      rfl
    obtain ⟨nodup, known⟩ := ih (Id.run (store.expansion frame)) (by
        rw [emits]
        exact List.nodup_cons.mpr ⟨fun member => apart _ member new, distinct⟩) (by
        rw [emits]
        intro key member left
        rcases List.mem_cons.mp member with rfl | later
        · exact (mem_eraseKeyFrom.mp left).2 rfl
        · exact apart key later (mem_eraseKeyFrom.mp left).1)
    rw [workOff_expand new]
    refine ⟨nodup, fun key member => ?_⟩
    rcases known key member with direct | left
    · rw [emits] at direct
      rcases List.mem_cons.mp direct with rfl | later
      · exact Or.inr new
      · exact Or.inl later
    · exact Or.inr (mem_eraseKeyFrom.mp left).1
  | case4 pending frame stack known ih =>
    rw [workOff_skip known]
    exact ih

/-- Frames on the stack are emitted, those to expand unless they were expanded before. -/
theorem mem_workOff (store : Store) (pending : List (String × Scope)) (stack : List SearchStep) :
    ∀ key, (key ∈ (emitted stack).map Frame.key ∨
        key ∈ (expanded stack).map Frame.key ∧ key ∈ pending) →
      key ∈ (Id.run (store.workOff pending stack)).map Frame.key := by
  induction pending, stack using workOff.induct with
  | case1 pending =>
    rintro key (member | ⟨member, -⟩)
    · exact absurd member List.not_mem_nil
    · exact absurd member List.not_mem_nil
  | case2 pending frame stack ih =>
    intro key listed
    rw [workOff_emit]
    rcases listed with member | next
    · rcases List.mem_cons.mp member with rfl | later
      · exact List.mem_cons_self
      · exact List.mem_cons_of_mem _ (ih key (Or.inl later))
    · exact List.mem_cons_of_mem _ (ih key (Or.inr next))
  | case3 pending frame stack new ih =>
    intro key listed
    rw [workOff_expand new]
    apply ih
    rw [emitted_append, emitted_expansion, expanded_append, List.map_append, List.map_append]
    by_cases same : key = frame.key
    · exact Or.inl (same ▸ List.mem_cons_self)
    · rcases listed with member | ⟨member, left⟩
      · exact Or.inl (List.mem_append_right _ member)
      · refine Or.inr ⟨List.mem_append_right _ ?_, mem_eraseKeyFrom.mpr ⟨left, same⟩⟩
        exact (List.mem_cons.mp member).resolve_left same
  | case4 pending frame stack known ih =>
    intro key listed
    rw [workOff_skip known]
    refine ih key (listed.imp_right ?_)
    rintro ⟨member, left⟩
    refine ⟨(List.mem_cons.mp member).resolve_left ?_, left⟩
    rintro rfl
    exact known left

/-- What one step reaches from an expanded frame is emitted too, unless it was expanded before. -/
theorem workOff_closed (store : Store) (pending : List (String × Scope))
    (stack : List SearchStep) (apart : ∀ key ∈ (emitted stack).map Frame.key, key ∉ pending) :
    ∀ key ∈ (Id.run (store.workOff pending stack)).map Frame.key, key ∈ pending →
      ∀ next, store.AncestorStep key next → next ∈ pending →
        next ∈ (Id.run (store.workOff pending stack)).map Frame.key := by
  induction pending, stack using workOff.induct with
  | case1 pending =>
    intro key member
    rw [workOff] at member
    exact absurd member List.not_mem_nil
  | case2 pending frame stack ih =>
    intro key member left next step left'
    rw [workOff_emit] at member ⊢
    have later : key ∈ (Id.run (store.workOff pending stack)).map Frame.key := by
      refine (List.mem_cons.mp member).resolve_left ?_
      rintro rfl
      exact apart _ List.mem_cons_self left
    exact List.mem_cons_of_mem _
      (ih (fun key member => apart key (List.mem_cons_of_mem _ member)) key later left next step
        left')
  | case3 pending frame stack new ih =>
    intro key member left next step left'
    rw [workOff_expand new] at member ⊢
    have emits : (emitted (Id.run (store.expansion frame) ++ stack)).map Frame.key =
        frame.key :: (emitted stack).map Frame.key := by
      rw [emitted_append, emitted_expansion]
      rfl
    by_cases own : next = frame.key
    · refine mem_workOff store _ _ next (Or.inl ?_)
      rw [emits, own]
      exact List.mem_cons_self
    · by_cases same : key = frame.key
      · -- the frame itself was expanded, so the next one stands on the stack
        refine mem_workOff store _ _ next (Or.inr ⟨?_, mem_eraseKeyFrom.mpr ⟨left', own⟩⟩)
        rw [expanded_append, List.map_append]
        exact List.mem_append_left _ (mem_expanded_expansion.mpr (same ▸ step))
      · refine ih _ ?_ key member (mem_eraseKeyFrom.mpr ⟨left, same⟩) next step
          (mem_eraseKeyFrom.mpr ⟨left', own⟩)
        rw [emits]
        intro other listed still
        rcases List.mem_cons.mp listed with rfl | later
        · exact (mem_eraseKeyFrom.mp still).2 rfl
        · exact apart other later (mem_eraseKeyFrom.mp still).1
  | case4 pending frame stack known ih =>
    rw [workOff_skip known]
    exact ih apart

/-! ### Where steps lead -/

theorem resolveWith?_mem {inGate? : String → String → Option String} {p : String → Prop}
    (holds : ∀ gate name path, inGate? gate name = some path → p path) {name path : String}
    {gates : List String} (found : resolveWith? inGate? name gates = some path) : p path := by
  have fold : ∀ (segments : List String) (start : Option String),
      (∀ path, start = some path → p path) → ∀ path,
      segments.foldl (fun found segment => found.bind fun gate => inGate? gate segment) start =
        some path → p path := by
    intro segments
    induction segments with
    | nil => intro start first path found; exact first path found
    | cons segment segments ih =>
      intro start _ path found
      refine ih _ ?_ path found
      intro inner reached
      obtain ⟨gate, -, resolved⟩ := Option.bind_eq_some_iff.mp reached
      exact holds gate segment inner resolved
  unfold resolveWith? at found
  split at found
  split at found
  · exact absurd found (by simp)
  · split at found
    · exact absurd found (by simp)
    · refine fold _ _ ?_ path found
      intro first reached
      obtain ⟨gate, -, resolved⟩ := List.exists_of_findSome?_eq_some reached
      exact holds gate _ first resolved

theorem hasConstant_of_directConstant? {store : Store} {gate name path : String}
    (found : store.directConstant? gate name = some path) : store.hasConstant path = true := by
  simp only [directConstant?] at found
  split at found
  · rename_i declared
    exact Option.some.inj found ▸ declared
  · exact absurd found (by simp)

theorem hasConstant_of_constantInGate? {store : Store} {gate name path : String}
    (found : store.constantInGate? gate name = some path) : store.hasConstant path = true := by
  unfold constantInGate? at found
  split at found
  · rename_i direct
    exact Option.some.inj found ▸ hasConstant_of_directConstant? direct
  · obtain ⟨target, -, resolved⟩ := List.exists_of_findSome?_eq_some found
    exact hasConstant_of_directConstant? resolved

/-- Only declared constants are found. -/
theorem hasConstant_of_resolve? {store : Store} {name path : String} {gates : List String}
    (found : store.resolve? name gates = some path) : store.hasConstant path = true :=
  resolveWith?_mem (fun _ _ _ => hasConstant_of_constantInGate?) found

theorem hasConstant_of_dereference? {store : Store} {edge : Pin} {target : String}
    (found : store.dereference? edge = some target) : store.hasConstant target = true := by
  unfold dereference? targetOf at found
  split at found
  · exact hasConstant_of_resolve? found
  · exact absurd found (by simp)

theorem mem_reachablePaths_of_hasConstant {store : Store} (coherent : store.Coherent)
    (start : String) {path : String} (declared : store.hasConstant path = true) :
    path ∈ store.reachablePaths start := by
  have scanned := (coherent.anyAt path fun pin => pin.isSpace || pin.isConstant).symm.trans declared
  obtain ⟨pin, listed, test⟩ := List.any_eq_true.mp scanned
  simp only [Bool.and_eq_true, beq_iff_eq] at test
  have kept : pin ∈ store.everyPin.filter fun pin => pin.isSpace || pin.isConstant :=
    List.mem_filter.mpr ⟨listed, test.2⟩
  simp only [reachablePaths, List.mem_cons]
  exact Or.inr (Or.inr (Or.inr (Or.inr (Or.inr (Or.inr (test.1 ▸ List.mem_map_of_mem kept))))))

theorem mem_reachablePaths_of_defaultSuperclass? {store : Store} (start : String)
    {path target : String} {isModule : Bool}
    (implied : defaultSuperclass? path isModule = some target) :
    target ∈ store.reachablePaths start := by
  unfold defaultSuperclass? at implied
  simp only [reachablePaths, List.mem_cons]
  split at implied
  · exact absurd implied (by simp)
  · split at implied
    · simp_all
    · split at implied
      · simp_all
      · split at implied <;> simp_all

theorem mem_reachableKeys {store : Store} {start : String} {key : String × Scope} :
    key ∈ store.reachableKeys start ↔ key.1 ∈ store.reachablePaths start := by
  obtain ⟨path, scope⟩ := key
  unfold reachableKeys
  cases scope <;> simp

theorem mem_reachableKeys_of_step {store : Store} (coherent : store.Coherent) (start : String)
    {key next : String × Scope} (step : store.AncestorStep key next) :
    next ∈ store.reachableKeys start := by
  rw [mem_reachableKeys]
  cases step with
  | prepended _ found | included _ found | extended _ found | declared _ found =>
    exact mem_reachablePaths_of_hasConstant coherent start (hasConstant_of_dereference? found)
  | implied _ implied => exact mem_reachablePaths_of_defaultSuperclass? start implied

theorem mem_reachableKeys_of_steps {store : Store} (coherent : store.Coherent) (start : String)
    {key next : String × Scope} (known : key ∈ store.reachableKeys start)
    (steps : ReflTransGen store.AncestorStep key next) : next ∈ store.reachableKeys start := by
  cases steps with
  | refl => exact known
  | tail _ step => exact mem_reachableKeys_of_step coherent start step

/-! ### The whole search -/

/-- The keys that a search visits, in order. -/
def visited (store : Store) (start : Frame) : List (String × Scope) :=
  (Id.run (store.search start)).map Frame.key

/-- The frames that a search begins with. -/
def entries (store : Store) (start : Frame) : List Frame :=
  match start.scope with
  | .instanceLevel => [start]
  | .classLevel => [start, .make (store.metaPath start.path) .instanceLevel]

theorem run_search (store : Store) (start : Frame) :
    Id.run (store.search start) =
      Id.run (store.workOff (store.reachableKeys start.path)
        ((store.entries start).map .expand)) := by
  unfold search entries
  cases start.scope <;> rfl

theorem reaches_iff_entries {store : Store} {start : Frame} {key : String × Scope} :
    store.Reaches start.key key ↔
      ∃ frame ∈ store.entries start, ReflTransGen store.AncestorStep frame.key key := by
  obtain ⟨path, scope, bindings⟩ := start
  cases scope <;> simp [Reaches, entries, Frame.key, Frame.make]

theorem entries_reachable {store : Store} {start frame : Frame}
    (member : frame ∈ store.entries start) : frame.key ∈ store.reachableKeys start.path := by
  have listed : frame = start ∨ frame = .make (store.metaPath start.path) .instanceLevel := by
    unfold entries at member
    cases level : start.scope <;> simp_all
  rw [mem_reachableKeys]
  rcases listed with rfl | rfl
  · exact List.mem_cons_self
  · simp only [Frame.key, Frame.make, metaPath, reachablePaths, List.mem_cons]
    split <;> simp

theorem visited_nodup (store : Store) (start : Frame) : (store.visited start).Nodup := by
  unfold visited
  rw [run_search]
  refine (workOff_nodup store _ _ ?_ ?_).1 <;> rw [emitted_map]
  · exact List.nodup_nil
  · exact fun key member => absurd member List.not_mem_nil

theorem reaches_of_mem_visited {store : Store} {start : Frame} {key : String × Scope}
    (member : key ∈ store.visited start) : store.Reaches start.key key := by
  unfold visited at member
  rw [run_search] at member
  rw [reaches_iff_entries]
  rcases workOff_sound store _ _ key member with emits | reached
  · rw [emitted_map] at emits
    exact absurd emits List.not_mem_nil
  · rwa [expanded_map] at reached

theorem mem_visited_of_reaches {store : Store} (coherent : store.Coherent) {start : Frame}
    {key : String × Scope} (reached : store.Reaches start.key key) :
    key ∈ store.visited start := by
  obtain ⟨frame, member, steps⟩ := reaches_iff_entries.mp reached
  have known := entries_reachable member
  unfold visited
  rw [run_search]
  -- each step of the path stays among what is still to expand, so the stack comes to it
  induction steps with
  | refl =>
    refine mem_workOff store _ _ _ (Or.inr ⟨?_, known⟩)
    rw [expanded_map]
    exact List.mem_map_of_mem member
  | @tail key next steps step ih =>
    have reached := reaches_iff_entries.mpr ⟨frame, member, steps⟩
    refine workOff_closed store _ _ ?_ key (ih reached) ?_ next step ?_
    · rw [emitted_map]
      exact fun key member => absurd member List.not_mem_nil
    · exact mem_reachableKeys_of_steps coherent _ known steps
    · exact mem_reachableKeys_of_step coherent _ step

theorem mem_visited {store : Store} (coherent : store.Coherent) (start : Frame)
    (key : String × Scope) : key ∈ store.visited start ↔ store.Reaches start.key key :=
  ⟨reaches_of_mem_visited, mem_visited_of_reaches coherent⟩

/-! ### Being an ancestor -/

/-- The search on instances stays on instances. -/
theorem scope_of_steps {store : Store} {start key : String × Scope}
    (level : start.2 = .instanceLevel) (steps : ReflTransGen store.AncestorStep start key) :
    key.2 = .instanceLevel := by
  induction steps with
  | refl => exact level
  | tail _ step ih =>
    cases step with
    | prepended _ _ | included _ _ | extended _ _ => rfl
    | declared _ _ | implied _ _ => exact ih

theorem isAncestorOrSelf_iff {store : Store} (coherent : store.Coherent) (super sub : String) :
    Id.run (store.isAncestorOrSelf super sub) = true ↔
      ReflTransGen store.AncestorStep (sub, .instanceLevel) (super, .instanceLevel) := by
  have visits := mem_visited coherent (.make sub .instanceLevel) (super, .instanceLevel)
  simp only [Reaches, Frame.key, Frame.make, reduceCtorEq, false_and, or_false] at visits
  unfold isAncestorOrSelf
  split
  · rename_i same
    rw [eq_of_beq same]
    exact ⟨fun _ => .refl, fun _ => rfl⟩
  · rw [← visits]
    simp only [Id.run_bind, Id.run_pure, visited, ancestors, List.any_eq_true, List.mem_map,
      beq_iff_eq]
    constructor
    · rintro ⟨frame, member, rfl⟩
      refine ⟨frame, member, ?_⟩
      have steps := reaches_of_mem_visited (List.mem_map_of_mem (f := Frame.key) member)
      simp only [Reaches, Frame.key, Frame.make, reduceCtorEq, false_and, or_false] at steps
      exact Prod.ext rfl (scope_of_steps rfl steps)
    · rintro ⟨frame, member, same⟩
      exact ⟨frame, member, congrArg Prod.fst same⟩

theorem isAncestorOrSelf_preorder {store : Store} (coherent : store.Coherent) :
    IsPreorder String fun super sub => Id.run (store.isAncestorOrSelf super sub) = true where
  refl path := (isAncestorOrSelf_iff coherent path path).mpr .refl
  trans first second third above below := by
    rw [isAncestorOrSelf_iff coherent] at *
    exact below.trans above

/-- After any history, the ancestors of a namespace are what steps reach, each of them once, and
being an ancestor is a preorder. -/
theorem ancestors_afterChanges (changes : List Change) :
    (∀ path scope,
      ((Id.run ((afterChanges changes).ancestors path scope)).map Frame.key).Nodup ∧
        ∀ key, key ∈ (Id.run ((afterChanges changes).ancestors path scope)).map Frame.key ↔
          (afterChanges changes).Reaches (path, scope) key) ∧
      IsPreorder String fun super sub =>
        Id.run ((afterChanges changes).isAncestorOrSelf super sub) = true := by
  have coherent := coherent_afterChanges changes
  refine ⟨fun path scope => ⟨?_, fun key => ?_⟩, isAncestorOrSelf_preorder coherent⟩
  · exact visited_nodup _ (.make path scope)
  · exact mem_visited coherent (.make path scope) key

end DuckInfer.Store
