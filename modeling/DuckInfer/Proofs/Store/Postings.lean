import DuckInfer.Proofs.Store.Buckets
import Mathlib.Data.List.Basic

/-!
The postings that a store keeps, in terms of one list of postings in store order: each bucket holds
those postings of the list whose pins have the key, and the blocks are those of block pins. Adding a
pin at its place and taking a group away change the list and the indexes alike.
-/

namespace DuckInfer.Store

/-- The postings of pins whose first one has a place in a group. -/
def postingsFrom (ordinal place : Nat) : List Pin → List Posting
  | [] => []
  | pin :: pins => ⟨ordinal, place, pin⟩ :: postingsFrom ordinal (place + 1) pins

/-- The postings with a key, as often as the pin has the key. -/
def under (index : IndexName) (key : String) (postings : List Posting) : List Posting :=
  postings.flatMap fun p => List.replicate ((p.pin.keys index).count key) p

/-- The indexes of the store hold exactly the postings of a list, in its order. -/
structure Holds (store : Store) (postings : List Posting) : Prop where
  tidy : ∀ index, (store.indexes.get index).Tidy
  buckets : ∀ index key, (store.indexes.get index).postings key = under index key postings
  blocks : store.blocks = postings.filter (·.pin.isBlock)

theorem ordinal_of_mem_postingsFrom {p : Posting} {ordinal : Nat} :
    ∀ {pins : List Pin} {place : Nat}, p ∈ postingsFrom ordinal place pins →
      p.ordinal = ordinal ∧ place ≤ p.place ∧ p.pin ∈ pins := by
  intro pins
  induction pins with
  | nil => simp [postingsFrom]
  | cons pin pins ih =>
    intro place member
    rcases List.mem_cons.mp member with rfl | later
    · simp
    · obtain ⟨same, after, known⟩ := ih later
      exact ⟨same, Nat.le_of_succ_le after, List.mem_cons_of_mem pin known⟩

theorem map_pin_postingsFrom (ordinal : Nat) :
    ∀ (pins : List Pin) (place : Nat),
      (postingsFrom ordinal place pins).map Posting.pin = pins := by
  intro pins
  induction pins with
  | nil => intro place; rfl
  | cons pin pins ih => intro place; simp [postingsFrom, ih]

theorem under_append (index : IndexName) (key : String) (front back : List Posting) :
    under index key (front ++ back) = under index key front ++ under index key back :=
  List.flatMap_append

theorem mem_under {index : IndexName} {key : String} {postings : List Posting} {p : Posting} :
    p ∈ under index key postings ↔ p ∈ postings ∧ key ∈ p.pin.keys index := by
  simp [under, List.mem_replicate, List.count_eq_zero]

theorem withoutGroup_under (index : IndexName) (key : String) (ordinal : Nat) :
    ∀ postings : List Posting,
      Posting.withoutGroup ordinal (under index key postings) =
        under index key (Posting.withoutGroup ordinal postings) := by
  intro postings
  induction postings with
  | nil => rfl
  | cons p ps ih =>
    have split : under index key (p :: ps) =
        List.replicate ((p.pin.keys index).count key) p ++ under index key ps := rfl
    rw [split, Posting.withoutGroup_append, ih]
    by_cases other : p.ordinal = ordinal
    · simp [Posting.withoutGroup, other]
    · simp [Posting.withoutGroup, under, other]

/-! ### The keys of a pin -/

theorem count_map_index (index other : IndexName) (key : String) (keys : List String) :
    (keys.map fun k => (other, k)).count (index, key) =
      if index = other then keys.count key else 0 := by
  induction keys with
  | nil => simp
  | cons k keys ih =>
    by_cases same : index = other
    · subst same
      simp_all [List.count_cons]
    · simp_all [Ne.symm same]

theorem count_indexKeys (pin : Pin) (index : IndexName) (key : String) :
    (indexKeys pin).count (index, key) = (pin.keys index).count key := by
  simp only [indexKeys, indexNames, List.flatMap_cons, List.flatMap_nil, List.count_append,
    count_map_index, List.count_nil]
  cases index <;> simp

theorem mem_indexKeys {pin : Pin} {index : IndexName} {key : String} :
    (index, key) ∈ indexKeys pin ↔ key ∈ pin.keys index := by
  rw [← List.count_pos_iff, count_indexKeys, List.count_pos_iff]

/-! ### Adding a pin -/

theorem insertKeys_tidy (posting : Posting) :
    ∀ (keys : List (IndexName × String)) (store : Store),
      (∀ index, (store.indexes.get index).Tidy) →
      ∀ index, ((keys.foldl (fun store (index, key) => store.insertKey index key posting)
        store).indexes.get index).Tidy := by
  intro keys
  induction keys with
  | nil => intro store tidy; exact tidy
  | cons key keys ih =>
    obtain ⟨name, key⟩ := key
    intro store tidy
    apply ih
    intro index
    simp only [insertKey, Indexes.get_modify]
    split
    · exact (tidy name).insert key posting
    · exact tidy index

/-- Each key puts the posting once more into its bucket. -/
theorem insertKeys_postings (posting : Posting) :
    ∀ (keys : List (IndexName × String)) (store : Store) (index : IndexName) (key : String),
      ((keys.foldl (fun store (index, key) => store.insertKey index key posting)
        store).indexes.get index).postings key =
      (Posting.insertSorted posting)^[keys.count (index, key)]
        ((store.indexes.get index).postings key) := by
  intro keys
  induction keys with
  | nil => intro store index key; rfl
  | cons head keys ih =>
    obtain ⟨name, k⟩ := head
    intro store index key
    rw [List.foldl_cons, ih]
    simp only [insertKey, Indexes.get_modify]
    by_cases here : index = name
    · subst here
      by_cases same : key = k
      · subst same
        simp [Index.postings_insert, Function.iterate_succ_apply]
      · simp [Index.postings_insert, same, Ne.symm same]
    · simp [here, Ne.symm here]

theorem insertKeys_rest (posting : Posting) :
    ∀ (keys : List (IndexName × String)) (store : Store),
      let after := keys.foldl (fun store (index, key) => store.insertKey index key posting) store
      after.groups = store.groups ∧ after.next = store.next ∧ after.blocks = store.blocks := by
  intro keys
  induction keys with
  | nil => intro store; exact ⟨rfl, rfl, rfl⟩
  | cons key keys ih => intro store; exact ih (store.insertKey key.1 key.2 posting)

theorem indexPin_groups (store : Store) (posting : Posting) :
    (store.indexPin posting).groups = store.groups ∧
      (store.indexPin posting).next = store.next := by
  unfold indexPin
  split
  · exact ⟨(insertKeys_rest posting _ _).1, (insertKeys_rest posting _ _).2.1⟩
  · exact ⟨(insertKeys_rest posting _ _).1, (insertKeys_rest posting _ _).2.1⟩

theorem between_under {front back : List Posting} {posting : Posting}
    (between : Posting.Between front posting back) (index : IndexName) (key : String) :
    Posting.Between (under index key front) posting (under index key back) :=
  ⟨fun p member => between.1 p (mem_under.mp member).1,
    fun p member => between.2 p (mem_under.mp member).1⟩

theorem between_filter {front back : List Posting} {posting : Posting}
    (between : Posting.Between front posting back) (keep : Posting → Bool) :
    Posting.Between (front.filter keep) posting (back.filter keep) :=
  ⟨fun p member => between.1 p (List.mem_filter.mp member).1,
    fun p member => between.2 p (List.mem_filter.mp member).1⟩

theorem Holds.indexPin {store : Store} {front back : List Posting} {posting : Posting}
    (holds : store.Holds (front ++ back)) (between : Posting.Between front posting back) :
    (store.indexPin posting).Holds (front ++ posting :: back) := by
  -- the blocks change first and the indexes do not see that
  have keysOnly : ∀ start : Store, start.indexes = store.indexes →
      start.blocks = (front ++ posting :: back).filter (·.pin.isBlock) →
      ((indexKeys posting.pin).foldl
        (fun store (index, key) => store.insertKey index key posting) start).Holds
        (front ++ posting :: back) := by
    intro start same blocks
    refine ⟨insertKeys_tidy posting _ start (same ▸ holds.tidy), ?_, ?_⟩
    · intro index key
      rw [insertKeys_postings, same, holds.buckets, under_append, count_indexKeys,
        Posting.insertSorted_iterate (between_under between index key)]
      simp [under]
    · rw [(insertKeys_rest posting _ start).2.2, blocks]
  unfold Store.indexPin
  split
  · rename_i block
    apply keysOnly
    · rfl
    · show Posting.insertSorted posting store.blocks = _
      rw [holds.blocks, List.filter_append,
        Posting.insertSorted_between (between_filter between _)]
      simp [block]
  · rename_i other
    apply keysOnly
    · rfl
    · rw [holds.blocks]
      simp [other]

theorem indexPins_groups (ordinal : Nat) :
    ∀ (pins : List Pin) (place : Nat) (store : Store),
      (store.indexPins ordinal place pins).groups = store.groups ∧
        (store.indexPins ordinal place pins).next = store.next := by
  intro pins
  induction pins with
  | nil => intro place store; exact ⟨rfl, rfl⟩
  | cons pin pins ih =>
    intro place store
    obtain ⟨groups, next⟩ := ih (place + 1) (store.indexPin ⟨ordinal, place, pin⟩)
    obtain ⟨groups', next'⟩ := indexPin_groups store ⟨ordinal, place, pin⟩
    exact ⟨groups.trans groups', next.trans next'⟩

/-- The postings of a group come behind those of the groups before it and in front of the others. -/
theorem Holds.indexPins {ordinal : Nat} {back : List Posting}
    (later : ∀ p ∈ back, ordinal < p.ordinal) :
    ∀ (pins : List Pin) (place : Nat) (store : Store) (front : List Posting),
      store.Holds (front ++ back) →
      (∀ p ∈ front, p.ordinal < ordinal ∨ p.ordinal = ordinal ∧ p.place < place) →
      (store.indexPins ordinal place pins).Holds
        (front ++ postingsFrom ordinal place pins ++ back) := by
  intro pins
  induction pins with
  | nil =>
    intro place store front holds _
    simpa [postingsFrom, Store.indexPins] using holds
  | cons pin pins ih =>
    intro place store front holds earlier
    have between : Posting.Between front ⟨ordinal, place, pin⟩ back := by
      constructor
      · intro p member
        rcases earlier p member with less | ⟨same, less⟩
        · simp [Posting.notAfter, less]
        · simp [Posting.notAfter, same, Nat.le_of_lt less]
      · intro p member
        have less := later p member
        simp only [Posting.notAfter, Bool.or_eq_false_iff, decide_eq_false_iff_not,
          Bool.and_eq_false_iff, beq_eq_false_iff_ne]
        omega
    have placed := ih (place + 1) (store.indexPin ⟨ordinal, place, pin⟩)
      (front ++ [⟨ordinal, place, pin⟩]) (by simpa using holds.indexPin between) (by
        intro p member
        rcases List.mem_append.mp member with old | new
        · rcases earlier p old with less | ⟨same, less⟩
          · exact Or.inl less
          · exact Or.inr ⟨same, Nat.lt_succ_of_lt less⟩
        · rw [List.mem_singleton.mp new]
          exact Or.inr ⟨rfl, Nat.lt_succ_self place⟩)
    simpa [postingsFrom, Store.indexPins] using placed

/-! ### Taking a group away -/

theorem eraseKeys_tidy (ordinal : Nat) :
    ∀ (keys : List (IndexName × String)) (store : Store),
      (∀ index, (store.indexes.get index).Tidy) →
      ∀ index, ((keys.foldl (fun store (index, key) => store.eraseKey index key ordinal)
        store).indexes.get index).Tidy := by
  intro keys
  induction keys with
  | nil => intro store tidy; exact tidy
  | cons key keys ih =>
    obtain ⟨name, key⟩ := key
    intro store tidy
    apply ih
    intro index
    simp only [eraseKey, Indexes.get_modify]
    split
    · exact (tidy name).eraseGroup key ordinal
    · exact tidy index

theorem eraseKeys_postings (ordinal : Nat) :
    ∀ (keys : List (IndexName × String)) (store : Store),
      (∀ index, (store.indexes.get index).Tidy) → ∀ (index : IndexName) (key : String),
      ((keys.foldl (fun store (index, key) => store.eraseKey index key ordinal)
        store).indexes.get index).postings key =
      if (index, key) ∈ keys then
        Posting.withoutGroup ordinal ((store.indexes.get index).postings key)
      else (store.indexes.get index).postings key := by
  intro keys
  induction keys with
  | nil => intro store _ index key; rfl
  | cons head keys ih =>
    obtain ⟨name, k⟩ := head
    intro store tidy index key
    have step : ∀ index, ((store.eraseKey name k ordinal).indexes.get index).Tidy :=
      eraseKeys_tidy ordinal [(name, k)] store tidy
    rw [List.foldl_cons, ih _ step]
    simp only [eraseKey, Indexes.get_modify]
    by_cases here : index = name
    · subst here
      by_cases same : key = k
      · subst same
        simp [(tidy index).postings_eraseGroup, Posting.withoutGroup]
      · simp [(tidy index).postings_eraseGroup, same]
    · simp [here]

theorem eraseKeys_rest (ordinal : Nat) :
    ∀ (keys : List (IndexName × String)) (store : Store),
      let after := keys.foldl (fun store (index, key) => store.eraseKey index key ordinal) store
      after.groups = store.groups ∧ after.next = store.next ∧ after.blocks = store.blocks := by
  intro keys
  induction keys with
  | nil => intro store; exact ⟨rfl, rfl, rfl⟩
  | cons key keys ih => intro store; exact ih (store.eraseKey key.1 key.2 ordinal)

theorem unindexPins_groups (store : Store) (ordinal : Nat) (pins : List Pin) :
    (store.unindexPins ordinal pins).groups = store.groups ∧
      (store.unindexPins ordinal pins).next = store.next :=
  ⟨(eraseKeys_rest ordinal _ store).1, (eraseKeys_rest ordinal _ store).2.1⟩

/-- All postings of a group go, if its pins are given. -/
theorem Holds.unindexPins {store : Store} {postings : List Posting} {ordinal : Nat}
    {pins : List Pin} (holds : store.Holds postings)
    (known : ∀ p ∈ postings, p.ordinal = ordinal → p.pin ∈ pins) :
    (store.unindexPins ordinal pins).Holds (Posting.withoutGroup ordinal postings) := by
  refine ⟨eraseKeys_tidy ordinal _ store holds.tidy, ?_, ?_⟩
  · intro index key
    show ((_ : Store).indexes.get index).postings key = _
    rw [← withoutGroup_under, ← holds.buckets]
    refine (eraseKeys_postings ordinal _ store holds.tidy index key).trans ?_
    split
    · rfl
    · -- a key that no pin of the group has holds no posting of the group
      rename_i absent
      refine (List.filter_eq_self.mpr ?_).symm
      intro p member
      rw [holds.buckets, mem_under] at member
      obtain ⟨listed, found⟩ := member
      refine bne_iff_ne.mpr fun same => absent ?_
      exact List.mem_flatMap.mpr ⟨p.pin, known p listed same, mem_indexKeys.mpr found⟩
  · show Posting.withoutGroup ordinal _ = _
    rw [(eraseKeys_rest ordinal _ store).2.2, holds.blocks]
    simp only [Posting.withoutGroup, List.filter_filter, Bool.and_comm]

end DuckInfer.Store
