import DuckInfer.Proofs.Store.Postings

/-!
The invariant of a store. Groups have different keys and stand in the order of their ordinals, and
the indexes hold the postings of their pins in that order. Every change keeps this: a replaced group
gets its new postings at the place of the old ones, and a new one gets them behind all others.
-/

namespace DuckInfer.Store

/-! ### The invariant of the groups -/

/-- The postings of all pins of groups. -/
def postingsOf (groups : List Group) : List Posting :=
  groups.flatMap fun g => postingsFrom g.ordinal 0 g.pins

/-- The groups have different keys and stand in the order of their ordinals, which are below the
next one, and the indexes hold their pins. -/
structure Coherent (store : Store) : Prop where
  keys : (store.groups.map Group.key).Nodup
  order : store.groups.Pairwise fun a b => a.ordinal < b.ordinal
  fresh : ∀ g ∈ store.groups, g.ordinal < store.next
  holds : store.Holds (postingsOf store.groups)

theorem coherent_empty : empty.Coherent where
  keys := List.nodup_nil
  order := List.Pairwise.nil
  fresh := by simp [empty]
  holds := {
    tidy := fun index => by cases index <;> exact Index.tidy_empty
    buckets := fun index key => by cases index <;> rfl
    blocks := rfl }

theorem postingsOf_append (front back : List Group) :
    postingsOf (front ++ back) = postingsOf front ++ postingsOf back :=
  List.flatMap_append

theorem postingsOf_cons (g : Group) (groups : List Group) :
    postingsOf (g :: groups) = postingsFrom g.ordinal 0 g.pins ++ postingsOf groups :=
  rfl

theorem exists_group_of_mem_postingsOf {p : Posting} {groups : List Group}
    (member : p ∈ postingsOf groups) :
    ∃ g ∈ groups, p.ordinal = g.ordinal ∧ p.pin ∈ g.pins := by
  obtain ⟨g, listed, found⟩ := List.mem_flatMap.mp member
  obtain ⟨same, -, known⟩ := ordinal_of_mem_postingsFrom found
  exact ⟨g, listed, same, known⟩

theorem map_pin_postingsOf (groups : List Group) :
    (postingsOf groups).map Posting.pin = groups.flatMap Group.pins := by
  induction groups with
  | nil => rfl
  | cons g groups ih => simp [postingsOf_cons, map_pin_postingsFrom, ih]

theorem Holds.withGroups {store : Store} {postings : List Posting} (holds : store.Holds postings)
    (groups : List Group) (next : Nat) :
    ({ store with groups, next } : Store).Holds postings :=
  ⟨holds.tidy, holds.buckets, holds.blocks⟩

/-- A group that is found by its key, with those before it and behind it. -/
structure Split (store : Store) (key : String) (front : List Group) (old : Group)
    (back : List Group) : Prop where
  groups : store.groups = front ++ old :: back
  own : old.key = key
  front : ∀ g ∈ front, g.key ≠ key ∧ g.ordinal < old.ordinal
  back : ∀ g ∈ back, g.key ≠ key ∧ old.ordinal < g.ordinal

theorem Coherent.split {store : Store} (coherent : store.Coherent) {key : String} {old : Group}
    (found : store.group? key = some old) : ∃ front back, store.Split key front old back := by
  obtain ⟨named, front, back, groups, missed⟩ := List.find?_eq_some_iff_append.mp found
  have same : old.key = key := beq_iff_eq.mp named
  have order := coherent.order
  have keys := coherent.keys
  rw [groups] at order keys
  obtain ⟨-, tail, across⟩ := List.pairwise_append.mp order
  rw [List.map_append, List.map_cons] at keys
  have distinct := (List.nodup_cons.mp (List.nodup_append.mp keys).2.1).1
  refine ⟨front, back, groups, same, ?_, ?_⟩
  · intro g member
    exact ⟨by simpa using missed g member, across g member old List.mem_cons_self⟩
  · intro g member
    refine ⟨fun equal => distinct ?_, (List.pairwise_cons.mp tail).1 g member⟩
    rw [same, ← equal]
    exact List.mem_map_of_mem member

theorem Split.filter {store : Store} {key : String} {front back : List Group} {old : Group}
    (split : store.Split key front old back) :
    store.groups.filter (·.key != key) = front ++ back := by
  have kept : ∀ groups : List Group, (∀ g ∈ groups, g.key ≠ key) →
      groups.filter (·.key != key) = groups := fun groups other =>
    List.filter_eq_self.mpr fun g member => bne_iff_ne.mpr (other g member)
  rw [split.groups, List.filter_append, List.filter_cons,
    kept front fun g member => (split.front g member).1,
    kept back fun g member => (split.back g member).1]
  simp [split.own]

theorem Split.setPins {store : Store} {key : String} {front back : List Group} {old : Group}
    (split : store.Split key front old back) (pins : List Pin) :
    setPins key pins store.groups = front ++ { old with pins } :: back := by
  have kept : ∀ groups : List Group, (∀ g ∈ groups, g.key ≠ key) →
      Store.setPins key pins groups = groups := by
    intro groups other
    refine (List.map_congr_left fun g member => ?_).trans (List.map_id groups)
    simp [other g member]
  have parts : Store.setPins key pins store.groups =
      Store.setPins key pins front ++ Store.setPins key pins (old :: back) := by
    rw [split.groups]
    exact List.map_append
  rw [parts, kept front fun g member => (split.front g member).1]
  have rest := kept back fun g member => (split.back g member).1
  simp only [Store.setPins, List.map_cons] at rest ⊢
  rw [rest]
  simp [split.own]

/-- Taking the found group out of the indexes leaves the postings of the other groups. -/
theorem Split.unindexed {store : Store} {key : String} {front back : List Group} {old : Group}
    (split : store.Split key front old back) (holds : store.Holds (postingsOf store.groups)) :
    (store.unindexPins old.ordinal old.pins).Holds (postingsOf front ++ postingsOf back) := by
  have kept : ∀ groups : List Group, (∀ g ∈ groups, g.ordinal ≠ old.ordinal) →
      Posting.withoutGroup old.ordinal (postingsOf groups) = postingsOf groups := by
    intro groups other
    refine List.filter_eq_self.mpr fun p member => ?_
    obtain ⟨g, listed, same, -⟩ := exists_group_of_mem_postingsOf member
    exact bne_iff_ne.mpr (same ▸ other g listed)
  have gone : Posting.withoutGroup old.ordinal (postingsFrom old.ordinal 0 old.pins) = [] := by
    refine List.filter_eq_nil_iff.mpr fun p member => ?_
    simp [(ordinal_of_mem_postingsFrom member).1]
  have left : Posting.withoutGroup old.ordinal (postingsOf store.groups) =
      postingsOf front ++ postingsOf back := by
    rw [split.groups, postingsOf_append, postingsOf_cons, Posting.withoutGroup_append,
      Posting.withoutGroup_append, gone, List.nil_append,
      kept front fun g member => Nat.ne_of_lt (split.front g member).2,
      kept back fun g member => Nat.ne_of_gt (split.back g member).2]
  rw [← left]
  refine holds.unindexPins fun p member same => ?_
  obtain ⟨g, listed, own, known⟩ := exists_group_of_mem_postingsOf member
  rw [split.groups] at listed
  rcases List.mem_append.mp listed with before | rest
  · exact absurd (own.symm.trans same) (Nat.ne_of_lt (split.front g before).2)
  · rcases List.mem_cons.mp rest with rfl | behind
    · exact known
    · exact absurd (own.symm.trans same) (Nat.ne_of_gt (split.back g behind).2)

theorem setPins_map {α : Type} (f : Group → α) (same : ∀ g pins, f { g with pins } = f g)
    (key : String) (pins : List Pin) (groups : List Group) :
    (setPins key pins groups).map f = groups.map f := by
  simp only [setPins, List.map_map]
  refine List.map_congr_left fun g _ => ?_
  simp only [Function.comp]
  split
  · exact same g pins
  · rfl

/-! ### What a change does to the groups -/

theorem update_found {store : Store} {key : String} {old : Group}
    (found : store.group? key = some old) (pins : List Pin) :
    (store.update key pins).groups = setPins key pins store.groups ∧
      (store.update key pins).next = store.next := by
  obtain ⟨groups, next⟩ := unindexPins_groups store old.ordinal old.pins
  simp only [update, found]
  constructor
  · rw [(indexPins_groups old.ordinal pins 0 _).1, groups]
  · rw [(indexPins_groups old.ordinal pins 0 _).2, next]

theorem update_absent {store : Store} {key : String} (absent : store.group? key = none)
    (pins : List Pin) :
    (store.update key pins).groups = store.groups ++ [⟨key, store.next, pins⟩] ∧
      (store.update key pins).next = store.next + 1 := by
  simp only [update, absent]
  exact indexPins_groups store.next pins 0 _

theorem remove_found {store : Store} {key : String} {old : Group}
    (found : store.group? key = some old) :
    (store.remove key).groups = store.groups.filter (·.key != key) ∧
      (store.remove key).next = store.next := by
  obtain ⟨groups, next⟩ := unindexPins_groups store old.ordinal old.pins
  simp only [remove, found]
  exact ⟨by rw [groups], next⟩

theorem remove_absent {store : Store} {key : String} (absent : store.group? key = none) :
    store.remove key = store := by
  simp only [remove, absent]

theorem key_ne_of_absent {store : Store} {key : String} (absent : store.group? key = none) :
    ∀ g ∈ store.groups, g.key ≠ key := fun g member => by
  simpa using List.find?_eq_none.mp absent g member

theorem Split.update_holds {store : Store} {key : String} {front back : List Group} {old : Group}
    (split : store.Split key front old back) (found : store.group? key = some old)
    (holds : store.Holds (postingsOf store.groups)) (pins : List Pin) :
    (store.update key pins).Holds (postingsOf (Store.setPins key pins store.groups)) := by
  rw [split.setPins, postingsOf_append, postingsOf_cons, ← List.append_assoc]
  simp only [update, found]
  apply Holds.indexPins
  · intro p member
    obtain ⟨g, listed, same, -⟩ := exists_group_of_mem_postingsOf member
    exact same ▸ (split.back g listed).2
  · exact (split.unindexed holds).withGroups _ _
  · intro p member
    obtain ⟨g, listed, same, -⟩ := exists_group_of_mem_postingsOf member
    exact Or.inl (same ▸ (split.front g listed).2)

theorem Coherent.update_found {store : Store} (coherent : store.Coherent) {key : String}
    {old : Group} (found : store.group? key = some old) (pins : List Pin) :
    (store.update key pins).Coherent := by
  obtain ⟨groups, next⟩ := Store.update_found found pins
  obtain ⟨front, back, split⟩ := coherent.split found
  have ordinals := setPins_map Group.ordinal (fun _ _ => rfl) key pins store.groups
  refine ⟨?_, ?_, ?_, ?_⟩
  · rw [groups, setPins_map Group.key fun _ _ => rfl]
    exact coherent.keys
  · have order := List.pairwise_map.mpr coherent.order
    rw [← ordinals] at order
    rw [groups]
    exact List.pairwise_map.mp order
  · intro g member
    have listed := List.mem_map_of_mem (f := Group.ordinal) (groups ▸ member)
    rw [ordinals] at listed
    obtain ⟨h, before, same⟩ := List.mem_map.mp listed
    rw [next, ← same]
    exact coherent.fresh h before
  · rw [groups]
    exact split.update_holds found coherent.holds pins

theorem Coherent.update_absent {store : Store} (coherent : store.Coherent) {key : String}
    (absent : store.group? key = none) (pins : List Pin) : (store.update key pins).Coherent := by
  obtain ⟨groups, next⟩ := Store.update_absent absent pins
  refine ⟨?_, ?_, ?_, ?_⟩
  · rw [groups, List.map_append]
    refine List.nodup_append.mpr ⟨coherent.keys, List.nodup_singleton _, ?_⟩
    intro a old b new
    obtain ⟨g, listed, rfl⟩ := List.mem_map.mp old
    simp only [List.map_cons, List.map_nil, List.mem_singleton] at new
    exact new ▸ key_ne_of_absent absent g listed
  · rw [groups]
    refine List.pairwise_append.mpr ⟨coherent.order, List.pairwise_singleton _ _, ?_⟩
    intro g member h new
    rw [List.mem_singleton.mp new]
    exact coherent.fresh g member
  · rw [groups, next]
    intro g member
    rcases List.mem_append.mp member with old | new
    · exact Nat.lt_succ_of_lt (coherent.fresh g old)
    · rw [List.mem_singleton.mp new]
      exact Nat.lt_succ_self store.next
  · have behind : postingsOf (store.groups ++ [⟨key, store.next, pins⟩]) =
        postingsOf store.groups ++ postingsFrom store.next 0 pins ++ [] := by
      simp [postingsOf]
    rw [groups, behind]
    simp only [update, absent]
    apply Holds.indexPins
    · simp
    · rw [List.append_nil]
      exact coherent.holds.withGroups _ _
    · intro p member
      obtain ⟨g, listed, same, -⟩ := exists_group_of_mem_postingsOf member
      exact Or.inl (same ▸ coherent.fresh g listed)

theorem Coherent.update {store : Store} (coherent : store.Coherent) (key : String)
    (pins : List Pin) : (store.update key pins).Coherent := by
  cases found : store.group? key with
  | none => exact coherent.update_absent found pins
  | some old => exact coherent.update_found found pins

theorem Coherent.remove {store : Store} (coherent : store.Coherent) (key : String) :
    (store.remove key).Coherent := by
  cases found : store.group? key with
  | none =>
    rw [remove_absent found]
    exact coherent
  | some old =>
    obtain ⟨groups, next⟩ := remove_found found
    obtain ⟨front, back, split⟩ := coherent.split found
    have sublist : (store.groups.filter (·.key != key)).Sublist store.groups :=
      List.filter_sublist
    refine ⟨?_, ?_, ?_, ?_⟩
    · rw [groups]
      exact coherent.keys.sublist (sublist.map Group.key)
    · rw [groups]
      exact coherent.order.sublist sublist
    · intro g member
      rw [next]
      exact coherent.fresh g (List.mem_of_mem_filter (groups ▸ member))
    · rw [groups, split.filter, postingsOf_append]
      simp only [Store.remove, found]
      exact (split.unindexed coherent.holds).withGroups _ _

end DuckInfer.Store
