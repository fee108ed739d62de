import DuckInfer.Proofs.Store.AncestorSearch
import Mathlib.Data.Finset.Insert

/-!
The order of the ancestor search. The documented order is a recursion that hands the set of what was
visited from one ancestor to the next: an ancestor that was visited adds nothing, any other one adds
what comes before it, itself, and what comes after it. Main statement: the search, which keeps the
open ends of this recursion on one stack, lists the same frames in the same order.
-/

namespace DuckInfer.Store

/-- The frames that the edges of a kind lead to, in the order of declaration. -/
def targetFrames (store : Store) (source : Frame) (kind : EdgeKind) : List Frame :=
  (store.edges source.path kind).filterMap fun edge =>
    (store.dereference? edge).map fun target =>
      ⟨target, .instanceLevel, store.edgeBindings source edge target⟩

/-- The frame of the superclass, in the scope of the frame itself: the first declared one, else the
implicit one. -/
def superclassFrame? (store : Store) (frame : Frame) : Option Frame :=
  match store.edges frame.path .superclass with
  | edge :: _ => (store.dereference? edge).map fun target =>
      ⟨target, frame.scope, store.edgeBindings frame edge target⟩
  | [] => (defaultSuperclass? frame.path (store.hasModule frame.path)).map fun path =>
      .make path frame.scope

/-- Which namespaces were visited, and in which scope. -/
abbrev Visited := Finset (String × Scope)

mutual

/-- `Linearizes store seen frame order left`: with `seen` visited before, the ancestors of a frame
are listed in this order, and then `left` is visited. -/
inductive Linearizes (store : Store) : Visited → Frame → List Frame → Visited → Prop
  /-- a frame that was visited adds nothing -/
  | known {seen : Visited} {frame : Frame} :
      frame.key ∈ seen → Linearizes store seen frame [] seen
  /-- on instances: what is prepended, the last one first; the frame; what is included, the last one
  first; the superclass -/
  | onInstances {seen prepended included left : Visited} {frame : Frame}
      {before after above : List Frame} :
      frame.key ∉ seen → frame.scope = .instanceLevel →
      LinearizesAll store (insert frame.key seen) (store.targetFrames frame .prepends).reverse
        before prepended →
      LinearizesAll store prepended (store.targetFrames frame .includes).reverse after included →
      LinearizesAll store included (store.superclassFrame? frame).toList above left →
      Linearizes store seen frame (before ++ frame :: (after ++ above)) left
  /-- on the namespace itself: the frame; what it is extended by, the last one first; the
  superclass -/
  | onClass {seen extended left : Visited} {frame : Frame} {after above : List Frame} :
      frame.key ∉ seen → frame.scope = .classLevel →
      LinearizesAll store (insert frame.key seen) (store.targetFrames frame .extends).reverse
        after extended →
      LinearizesAll store extended (store.superclassFrame? frame).toList above left →
      Linearizes store seen frame (frame :: (after ++ above)) left

/-- One frame after the other. -/
inductive LinearizesAll (store : Store) : Visited → List Frame → List Frame → Visited → Prop
  | nil {seen : Visited} : LinearizesAll store seen [] [] seen
  | cons {seen middle left : Visited} {frame : Frame} {frames order orders : List Frame} :
      Linearizes store seen frame order middle → LinearizesAll store middle frames orders left →
      LinearizesAll store seen (frame :: frames) (order ++ orders) left

end

/-- The documented order of the ancestors of a frame. Those of a namespace itself are followed by
the ancestors of `Class` or `Module` that were not visited yet. -/
def DocumentedOrder (store : Store) (start : Frame) (frames : List Frame) : Prop :=
  match start.scope with
  | .instanceLevel => ∃ left, Linearizes store ∅ start frames left
  | .classLevel => ∃ own seen others left, frames = own ++ others ∧
      Linearizes store ∅ start own seen ∧
        Linearizes store seen (.make (store.metaPath start.path) .instanceLevel) others left

/-! ### One frame after the other -/

theorem LinearizesAll.single {store : Store} {seen left : Visited} {frame : Frame}
    {order : List Frame} (linearizes : Linearizes store seen frame order left) :
    LinearizesAll store seen [frame] order left := by
  have listed := LinearizesAll.cons linearizes .nil
  rwa [List.append_nil] at listed

theorem documentedOrder_iff {store : Store} {start : Frame} {frames : List Frame} :
    store.DocumentedOrder start frames ↔
      ∃ left, LinearizesAll store ∅ (store.entries start) frames left := by
  unfold DocumentedOrder entries
  cases start.scope with
  | instanceLevel =>
    constructor
    · rintro ⟨left, linearizes⟩
      exact ⟨left, .single linearizes⟩
    · rintro ⟨left, linearizes⟩
      cases linearizes with
      | cons own rest =>
        cases rest
        exact ⟨left, by rwa [List.append_nil]⟩
  | classLevel =>
    constructor
    · rintro ⟨own, seen, others, left, rfl, first, second⟩
      exact ⟨left, .cons first (.single second)⟩
    · rintro ⟨left, linearizes⟩
      cases linearizes with
      | cons first rest =>
        cases rest with
        | cons second none =>
          cases none
          exact ⟨_, _, _, left, by rw [List.append_nil], first, second⟩

mutual

theorem Linearizes.subset {store : Store} {seen left : Visited} {frame : Frame}
    {order : List Frame} : Linearizes store seen frame order left → seen ⊆ left
  | .known _ => Finset.Subset.refl _
  | .onInstances _ _ prepends includes superclass =>
    (Finset.subset_insert _ _).trans
      (prepends.subset.trans (includes.subset.trans superclass.subset))
  | .onClass _ _ extends_ superclass =>
    (Finset.subset_insert _ _).trans (extends_.subset.trans superclass.subset)

theorem LinearizesAll.subset {store : Store} {seen left : Visited} {frames order : List Frame} :
    LinearizesAll store seen frames order left → seen ⊆ left
  | .nil => Finset.Subset.refl _
  | .cons first rest => first.subset.trans rest.subset

end

/-! ### Where a frame leads -/

theorem run_followAll_eq (store : Store) (source : Frame) (kind : EdgeKind) :
    Id.run (store.followAll source kind) = store.targetFrames source kind := by
  rw [run_followAll]
  simp only [run_follow, targetFrames]

theorem run_superclassOf_eq (store : Store) (frame : Frame) :
    Id.run (store.superclassOf frame frame.scope) = store.superclassFrame? frame := by
  unfold superclassOf superclassFrame?
  cases store.edges frame.path .superclass with
  | nil => rfl
  | cons edge others => exact run_follow store frame edge frame.scope

theorem key_mem_of_mem_targetFrames {store : Store} (coherent : store.Coherent) (start : String)
    {source frame : Frame} {kind : EdgeKind} (member : frame ∈ store.targetFrames source kind) :
    frame.key ∈ store.reachableKeys start := by
  obtain ⟨edge, -, leads⟩ := List.mem_filterMap.mp member
  obtain ⟨target, found, rfl⟩ := Option.map_eq_some_iff.mp leads
  exact mem_reachableKeys.mpr
    (mem_reachablePaths_of_hasConstant coherent start (hasConstant_of_dereference? found))

theorem key_mem_of_mem_superclassFrame? {store : Store} (coherent : store.Coherent)
    (start : String) {source frame : Frame} (member : frame ∈ store.superclassFrame? source) :
    frame.key ∈ store.reachableKeys start := by
  rw [mem_reachableKeys]
  unfold superclassFrame? at member
  split at member
  · obtain ⟨target, found, rfl⟩ := Option.map_eq_some_iff.mp member
    exact mem_reachablePaths_of_hasConstant coherent start (hasConstant_of_dereference? found)
  · obtain ⟨target, implied, rfl⟩ := Option.map_eq_some_iff.mp member
    exact mem_reachablePaths_of_defaultSuperclass? start implied

/-! ### The stack against the recursion -/

/-- What the search may still expand when some of it was visited. -/
def unseen (store : Store) (start : String) (seen : Visited) : List (String × Scope) :=
  (store.reachableKeys start).filter (· ∉ seen)

theorem mem_unseen {store : Store} {start : String} {seen : Visited} {key : String × Scope} :
    key ∈ store.unseen start seen ↔ key ∈ store.reachableKeys start ∧ key ∉ seen := by
  simp [unseen]

theorem unseen_empty (store : Store) (start : String) :
    store.unseen start ∅ = store.reachableKeys start := by
  simp [unseen]

theorem eraseKeyFrom_unseen (store : Store) (start : String) (seen : Visited)
    (key : String × Scope) :
    eraseKeyFrom (store.unseen start seen) key = store.unseen start (insert key seen) := by
  unfold eraseKeyFrom unseen
  rw [List.filter_filter]
  refine List.filter_congr fun other _ => ?_
  rw [Bool.eq_iff_iff]
  simp

theorem length_unseen_le (store : Store) (start : String) {seen left : Visited}
    (more : seen ⊆ left) :
    (store.unseen start left).length ≤ (store.unseen start seen).length := by
  refine (List.monotone_filter_right _ fun key missing => ?_).length_le
  simp only [decide_eq_true_eq] at missing ⊢
  exact fun member => missing (more member)

mutual

/-- Working off a frame and a stack lists the linearisation of the frame, and then works off the
stack with what that left to visit. -/
theorem Linearizes.workOff_eq {store : Store} (coherent : store.Coherent) (start : String)
    {seen left : Visited} {frame : Frame} {order : List Frame}
    (known : frame.key ∈ store.reachableKeys start) (stack : List SearchStep) :
    Linearizes store seen frame order left →
      Id.run (store.workOff (store.unseen start seen) (.expand frame :: stack)) =
        order ++ Id.run (store.workOff (store.unseen start left) stack)
  | .known before =>
    workOff_skip (fun listed => (mem_unseen.mp listed).2 before) stack
  | .onInstances new level prepends includes superclass => by
    have prepended := prepends.workOff_eq coherent start (fun target member =>
      key_mem_of_mem_targetFrames coherent start (List.mem_reverse.mp member))
    have included := includes.workOff_eq coherent start (fun target member =>
      key_mem_of_mem_targetFrames coherent start (List.mem_reverse.mp member))
    have above := superclass.workOff_eq coherent start (fun target member =>
      key_mem_of_mem_superclassFrame? coherent start (Option.mem_toList.mp member))
    rw [workOff_expand (mem_unseen.mpr ⟨known, new⟩), eraseKeyFrom_unseen,
      run_expansion_instance level, run_followAll_eq, run_followAll_eq, ← level,
      run_superclassOf_eq, Option.toList_map]
    simp only [List.append_assoc, List.cons_append]
    rw [prepended, workOff_emit, included, above]
  | .onClass new level extends_ superclass => by
    have extended := extends_.workOff_eq coherent start (fun target member =>
      key_mem_of_mem_targetFrames coherent start (List.mem_reverse.mp member))
    have above := superclass.workOff_eq coherent start (fun target member =>
      key_mem_of_mem_superclassFrame? coherent start (Option.mem_toList.mp member))
    rw [workOff_expand (mem_unseen.mpr ⟨known, new⟩), eraseKeyFrom_unseen,
      run_expansion_class level, run_followAll_eq, ← level, run_superclassOf_eq,
      Option.toList_map]
    simp only [List.append_assoc, List.cons_append]
    rw [workOff_emit, extended, above]

theorem LinearizesAll.workOff_eq {store : Store} (coherent : store.Coherent) (start : String)
    {seen left : Visited} {frames order : List Frame}
    (known : ∀ frame ∈ frames, frame.key ∈ store.reachableKeys start)
    (stack : List SearchStep) :
    LinearizesAll store seen frames order left →
      Id.run (store.workOff (store.unseen start seen) (frames.map .expand ++ stack)) =
        order ++ Id.run (store.workOff (store.unseen start left) stack)
  | .nil => rfl
  | .cons first rest => by
    rw [List.map_cons, List.cons_append,
      first.workOff_eq coherent start (known _ List.mem_cons_self),
      rest.workOff_eq coherent start fun frame member =>
        known frame (List.mem_cons_of_mem _ member),
      List.append_assoc]

end

/-! ### The recursion ends -/

theorem length_unseen_insert_lt {store : Store} {start : String} {seen : Visited}
    {key : String × Scope} (known : key ∈ store.reachableKeys start) (new : key ∉ seen) :
    (store.unseen start (insert key seen)).length < (store.unseen start seen).length := by
  rw [← eraseKeyFrom_unseen]
  exact length_eraseKeyFrom_lt (mem_unseen.mpr ⟨known, new⟩)

/-- A frame has a linearisation if frames do with more visited before. -/
theorem exists_linearizes {store : Store} (coherent : store.Coherent) (start : String)
    (seen : Visited) (frame : Frame)
    (deeper : ∀ more frames, insert frame.key seen ⊆ more → frame.key ∉ seen →
      (∀ target ∈ frames, target.key ∈ store.reachableKeys start) →
        ∃ order left, LinearizesAll store more frames order left) :
    ∃ order left, Linearizes store seen frame order left := by
  by_cases visited : frame.key ∈ seen
  · exact ⟨[], seen, .known visited⟩
  cases level : frame.scope with
  | instanceLevel =>
    obtain ⟨before, prepended, prepends⟩ := deeper _ (store.targetFrames frame .prepends).reverse
      (Finset.Subset.refl _) visited fun target member =>
        key_mem_of_mem_targetFrames coherent start (List.mem_reverse.mp member)
    obtain ⟨after, included, includes⟩ := deeper _ (store.targetFrames frame .includes).reverse
      prepends.subset visited fun target member =>
        key_mem_of_mem_targetFrames coherent start (List.mem_reverse.mp member)
    obtain ⟨above, left, superclass⟩ := deeper _ (store.superclassFrame? frame).toList
      (prepends.subset.trans includes.subset) visited fun target member =>
        key_mem_of_mem_superclassFrame? coherent start (Option.mem_toList.mp member)
    exact ⟨_, left, .onInstances visited level prepends includes superclass⟩
  | classLevel =>
    obtain ⟨after, extended, extends_⟩ := deeper _ (store.targetFrames frame .extends).reverse
      (Finset.Subset.refl _) visited fun target member =>
        key_mem_of_mem_targetFrames coherent start (List.mem_reverse.mp member)
    obtain ⟨above, left, superclass⟩ := deeper _ (store.superclassFrame? frame).toList
      extends_.subset visited fun target member =>
        key_mem_of_mem_superclassFrame? coherent start (Option.mem_toList.mp member)
    exact ⟨_, left, .onClass visited level extends_ superclass⟩

/-- The induction is on how much is left to visit: each frame that is new takes one key away before
its own ancestors are listed. -/
theorem exists_linearizesAll {store : Store} (coherent : store.Coherent) (start : String)
    (size : Nat) :
    ∀ (seen : Visited) (frames : List Frame), (store.unseen start seen).length ≤ size →
      (∀ frame ∈ frames, frame.key ∈ store.reachableKeys start) →
        ∃ order left, LinearizesAll store seen frames order left := by
  induction size using Nat.strong_induction_on with
  | _ size deeper =>
    intro seen frames bound known
    induction frames generalizing seen with
    | nil => exact ⟨[], seen, .nil⟩
    | cons frame frames ih =>
      obtain ⟨order, middle, first⟩ := exists_linearizes coherent start seen frame
        fun more targets grown new listed => by
          have fewer := length_unseen_insert_lt (known frame List.mem_cons_self) new
          have atMost := length_unseen_le store start grown
          exact deeper _ (by omega) more targets (Nat.le_refl _) listed
      have atMost := length_unseen_le store start first.subset
      obtain ⟨orders, left, rest⟩ := ih middle (by omega) fun target member =>
        known target (List.mem_cons_of_mem _ member)
      exact ⟨_, left, .cons first rest⟩

/-! ### The whole search -/

theorem search_eq_of_linearizesAll {store : Store} (coherent : store.Coherent) {start : Frame}
    {frames : List Frame} {left : Visited}
    (linearizes : LinearizesAll store ∅ (store.entries start) frames left) :
    Id.run (store.search start) = frames := by
  have worked := linearizes.workOff_eq coherent start.path
    (fun frame member => entries_reachable member) []
  have done : ∀ pending, Id.run (store.workOff pending []) = [] := fun pending => by
    rw [workOff]
    rfl
  rwa [List.append_nil, unseen_empty, ← run_search, done, List.append_nil] at worked

theorem documentedOrder_search {store : Store} (coherent : store.Coherent) (start : Frame) :
    store.DocumentedOrder start (Id.run (store.search start)) := by
  obtain ⟨order, left, linearizes⟩ := exists_linearizesAll coherent start.path _ ∅
    (store.entries start) (Nat.le_refl _) fun frame member => entries_reachable member
  rw [documentedOrder_iff, search_eq_of_linearizesAll coherent linearizes]
  exact ⟨left, linearizes⟩

/-- After any history, the search from any frame lists the frames of the documented order, with
their bindings, and this order is the only one. -/
theorem search_documentedOrder (changes : List Change) (start : Frame) (frames : List Frame) :
    Id.run ((afterChanges changes).search start) = frames ↔
      (afterChanges changes).DocumentedOrder start frames := by
  have coherent := coherent_afterChanges changes
  constructor
  · rintro rfl
    exact documentedOrder_search coherent start
  · intro documented
    obtain ⟨left, linearizes⟩ := documentedOrder_iff.mp documented
    exact search_eq_of_linearizesAll coherent linearizes

end DuckInfer.Store
