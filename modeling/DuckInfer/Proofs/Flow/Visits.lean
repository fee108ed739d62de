import DuckInfer.Proofs.Flow.Composition

/-!
Which conditionals narrowing comes to. Of a statement it visits the branches of conditionals, the
bodies of loops, receivers, arguments and what `not` negates. Of a condition, and of the operands of
`and` and `or`, only the facts are read, so that a conditional in there is visited only if it is a
condition of a known form. Main statement: for locals with declared types that govern the tests, the
pins that narrowing adds are those that the visited conditionals add by themselves.
-/

namespace DuckInfer

namespace Node

/-! ### Parts and visits -/

/-- The node stands anywhere inside of a statement, or is it; with the loop that encloses it. -/
inductive Inside (loop : Option Range) (t : Node) : Option Range → Node → Prop where
  | whole : Inside loop t loop t
  | condition {l : Option Range} {condition : Node} {thenPart elsePart : Option Node}
      {range : Range} :
      Inside loop t l (.branch condition thenPart elsePart range) → Inside loop t l condition
  | thenPart {l : Option Range} {condition n : Node} {elsePart : Option Node} {range : Range} :
      Inside loop t l (.branch condition (some n) elsePart range) → Inside loop t l n
  | elsePart {l : Option Range} {condition n : Node} {thenPart : Option Node} {range : Range} :
      Inside loop t l (.branch condition thenPart (some n) range) → Inside loop t l n
  | loopCondition {l : Option Range} {condition body : Node} {range : Range} :
      Inside loop t l (.loop (some condition) body range) → Inside loop t (some range) condition
  | body {l : Option Range} {condition : Option Node} {body : Node} {range : Range} :
      Inside loop t l (.loop condition body range) → Inside loop t (some range) body
  | andOperand {l : Option Range} {lhs rhs n : Node} {range : Range} :
      Inside loop t l (.and lhs rhs range) → n = lhs ∨ n = rhs → Inside loop t l n
  | orOperand {l : Option Range} {lhs rhs n : Node} {range : Range} :
      Inside loop t l (.or lhs rhs range) → n = lhs ∨ n = rhs → Inside loop t l n
  | negated {l : Option Range} {operand : Node} {range : Range} :
      Inside loop t l (.not operand range) → Inside loop t l operand
  | receiver {l : Option Range} {n : Node} {method : String} {arguments : List Node}
      {range : Range} :
      Inside loop t l (.send (some n) method arguments range) → Inside loop t l n
  | argument {l : Option Range} {receiver : Option Node} {n : Node} {method : String}
      {arguments : List Node} {range : Range} :
      Inside loop t l (.send receiver method arguments range) → n ∈ arguments → Inside loop t l n
  | scope {l : Option Range} {n : Node} {name : String} {range : Range} :
      Inside loop t l (.const (some n) name range) → Inside loop t l n
  | statement {l : Option Range} {n : Node} {statements : List Node} {range : Range} :
      Inside loop t l (.sequence statements range) → n ∈ statements → Inside loop t l n

/-- How narrowing comes to a node. -/
inductive Visit where
  /-- as to a statement, of which every part is narrowed -/
  | walked
  /-- as to a condition, of which the facts are read -/
  | tested

/-- Narrowing a statement comes to the node, with the loop that encloses it. -/
inductive Visited (loop : Option Range) (t : Node) : Visit → Option Range → Node → Prop where
  | whole : Visited loop t .walked loop t
  | condition {l : Option Range} {condition : Node} {thenPart elsePart : Option Node}
      {range : Range} :
      Visited loop t .walked l (.branch condition thenPart elsePart range) →
        Visited loop t .tested l condition
  | thenPart {l : Option Range} {condition n : Node} {elsePart : Option Node} {range : Range} :
      Visited loop t .walked l (.branch condition (some n) elsePart range) →
        Visited loop t .walked l n
  | elsePart {l : Option Range} {condition n : Node} {thenPart : Option Node} {range : Range} :
      Visited loop t .walked l (.branch condition thenPart (some n) range) →
        Visited loop t .walked l n
  | loopCondition {l : Option Range} {condition body : Node} {range : Range} :
      Visited loop t .walked l (.loop (some condition) body range) →
        Visited loop t .tested (some range) condition
  | body {l : Option Range} {condition : Option Node} {body : Node} {range : Range} :
      Visited loop t .walked l (.loop condition body range) →
        Visited loop t .walked (some range) body
  | andOperand {visit : Visit} {l : Option Range} {lhs rhs n : Node} {range : Range} :
      Visited loop t visit l (.and lhs rhs range) → n = lhs ∨ n = rhs → Visited loop t .tested l n
  | orOperand {visit : Visit} {l : Option Range} {lhs rhs n : Node} {range : Range} :
      Visited loop t visit l (.or lhs rhs range) → n = lhs ∨ n = rhs → Visited loop t .tested l n
  | negated {visit : Visit} {l : Option Range} {operand : Node} {range : Range} :
      Visited loop t visit l (.not operand range) → Visited loop t visit l operand
  | receiver {l : Option Range} {n : Node} {method : String} {arguments : List Node}
      {range : Range} :
      Visited loop t .walked l (.send (some n) method arguments range) → Visited loop t .walked l n
  | argument {l : Option Range} {receiver : Option Node} {n : Node} {method : String}
      {arguments : List Node} {range : Range} :
      Visited loop t .walked l (.send receiver method arguments range) → n ∈ arguments →
        Visited loop t .walked l n
  | statement {l : Option Range} {n : Node} {statements : List Node} {range : Range} :
      Visited loop t .walked l (.sequence statements range) → n ∈ statements →
        Visited loop t .walked l n
  | onlyStatement {l : Option Range} {n : Node} {range : Range} :
      Visited loop t .tested l (.sequence [n] range) → Visited loop t .tested l n

/-- What narrowing comes to stands inside of the statement. -/
theorem Visited.inside {loop l : Option Range} {t n : Node} {visit : Visit}
    (visited : t.Visited loop visit l n) : t.Inside loop l n := by
  induction visited with
  | whole => exact .whole
  | condition _ ih => exact .condition ih
  | thenPart _ ih => exact .thenPart ih
  | elsePart _ ih => exact .elsePart ih
  | loopCondition _ ih => exact .loopCondition ih
  | body _ ih => exact .body ih
  | andOperand _ operand ih => exact .andOperand ih operand
  | orOperand _ operand ih => exact .orOperand ih operand
  | negated _ ih => exact .negated ih
  | receiver _ ih => exact .receiver ih
  | argument _ listed ih => exact .argument ih listed
  | statement _ listed ih => exact .statement ih listed
  | onlyStatement _ ih => exact .statement ih List.mem_cons_self

end Node

namespace Flow

/-! ### What a visited node adds -/

/-- The placements of a node itself. -/
def ownPlacements (loop : Option Range) (nested : Bool) : Node → List Placement
  | .branch condition thenPart elsePart range =>
    branchPlacements loop nested condition thenPart elsePart range
  | .loop condition body _ => loopPlacements condition body
  | .and lhs rhs range => guards (.and lhs rhs range)
  | .or lhs rhs range => guards (.or lhs rhs range)
  | _ => []

/-- What a node adds by itself, without its parts. -/
def narrowOwn {m : Type → Type} [Monad m] (oracle : Oracle m) (loop : Option Range)
    (locals : List Pin) : Node → m (List Pin)
  | .branch condition thenPart elsePart range =>
    narrowBranch oracle loop locals (.branch condition thenPart elsePart range)
  | .loop condition body _ => narrowLoop oracle locals condition body
  | .and lhs rhs range => narrowOperands oracle locals (.and lhs rhs range)
  | .or lhs rhs range => narrowOperands oracle locals (.or lhs rhs range)
  | _ => return locals

section

variable {oracle : Oracle Id} {loop l : Option Range} {nested : Bool} {t n : Node}

theorem adds_narrowOwn (oracle : Oracle Id) (loop : Option Range) (nested : Bool) (n : Node)
    (locals : List Pin) :
    Adds oracle locals (ownPlacements loop nested n) locals
      (Id.run (narrowOwn oracle loop locals n)) := by
  cases n with
  | branch condition thenPart elsePart range =>
    exact adds_narrowBranch oracle loop nested condition thenPart elsePart range locals
  | loop condition body range => exact adds_narrowLoop oracle condition body locals
  | and lhs rhs range => exact adds_shadowGuarded oracle (.and lhs rhs range) locals
  | or lhs rhs range => exact adds_shadowGuarded oracle (.or lhs rhs range) locals
  | _ => exact .nil

theorem ownPlacements_subset (loop : Option Range) (nested : Bool) (n : Node) :
    ownPlacements loop nested n ⊆ placements loop nested n := by
  intro q own
  cases n with
  | branch condition thenPart elsePart range =>
    exact List.mem_append_left _ (List.mem_append_left _ own)
  | loop condition body range => exact List.mem_append_left _ own
  | and lhs rhs range => exact own
  | or lhs rhs range => exact own
  | _ => exact absurd own List.not_mem_nil

theorem exists_mem_scopes {range range' : Range} {branch other : Option Node} {detour : Bool}
    (nested' : Bool) (scope : (range', detour) ∈ scopes loop nested range branch other) :
    ∃ detour', (range', detour') ∈ scopes loop nested' range branch other := by
  have inside := List.mem_map_of_mem (f := Prod.fst) scope
  rw [map_fst_scopes, ← map_fst_scopes loop nested'] at inside
  obtain ⟨⟨_, detour'⟩, listed, rfl⟩ := List.mem_map.mp inside
  exact ⟨detour', listed⟩

/-- Whether a node stands inside a part of a conditional changes nothing but the detours. -/
theorem exists_mem_ownPlacements (nested' : Bool) {q : Placement}
    (own : q ∈ ownPlacements loop nested n) :
    ∃ q' ∈ ownPlacements loop nested' n, q'.reading = q.reading ∧ q'.range = q.range := by
  cases n with
  | branch condition thenPart elsePart range =>
    rcases List.mem_append.mp own with told | guard
    · rcases List.mem_append.mp told with told | told
      · obtain ⟨read, scope⟩ := mem_place.mp told
        obtain ⟨detour, scope'⟩ := exists_mem_scopes nested' scope
        exact ⟨⟨q.reading, q.range, detour⟩, List.mem_append_left _ (List.mem_append_left _
          (mem_place.mpr ⟨read, scope'⟩)), rfl, rfl⟩
      · obtain ⟨read, scope⟩ := mem_place.mp told
        obtain ⟨detour, scope'⟩ := exists_mem_scopes nested' scope
        exact ⟨⟨q.reading, q.range, detour⟩, List.mem_append_left _ (List.mem_append_right _
          (mem_place.mpr ⟨read, scope'⟩)), rfl, rfl⟩
    · exact ⟨q, List.mem_append_right _ guard, rfl, rfl⟩
  | loop condition body range => exact ⟨q, own, rfl, rfl⟩
  | and lhs rhs range => exact ⟨q, own, rfl, rfl⟩
  | or lhs rhs range => exact ⟨q, own, rfl, rfl⟩
  | _ => exact absurd own List.not_mem_nil

/-- The placements that a visit accounts for are among others. -/
def Accounted (all : List Placement) (l : Option Range) (n : Node) : Node.Visit → Prop
  | .walked => ∃ nested, placements l nested n ⊆ all
  | .tested => guards n ⊆ all

variable {all : List Placement}

/-- A visit of either kind accounts for what guards the operands of an operator. -/
theorem Accounted.guards_subset {visit : Node.Visit} (accounted : Accounted all l n visit)
    (operator : ∀ nested, placements l nested n = guards n) : guards n ⊆ all := by
  cases visit with
  | walked =>
    obtain ⟨nested, subset⟩ := accounted
    exact operator nested ▸ subset
  | tested => exact accounted

/-- The placements of a visited node are among those of the statement. -/
theorem accounted_of_visited {visit : Node.Visit} (visited : t.Visited loop visit l n) :
    Accounted (placements loop false t) l n visit := by
  induction visited with
  | whole => exact ⟨false, List.Subset.refl _⟩
  | condition _ ih =>
    obtain ⟨nested, subset⟩ := ih
    exact fun q guard => subset (List.mem_append_left _ (List.mem_append_left _
      (List.mem_append_right _ guard)))
  | thenPart _ ih =>
    obtain ⟨nested, subset⟩ := ih
    exact ⟨true, fun q inside => subset (List.mem_append_left _ (List.mem_append_right _ inside))⟩
  | elsePart _ ih =>
    obtain ⟨nested, subset⟩ := ih
    exact ⟨true, fun q inside => subset (List.mem_append_right _ inside)⟩
  | loopCondition _ ih =>
    obtain ⟨nested, subset⟩ := ih
    exact fun q guard => subset (List.mem_append_left _ (List.mem_append_right _ guard))
  | body _ ih =>
    obtain ⟨nested, subset⟩ := ih
    exact ⟨false, fun q inside => subset (List.mem_append_right _ inside)⟩
  | andOperand _ operand ih =>
    have whole := ih.guards_subset fun _ => rfl
    rw [guards_and, List.append_subset, List.append_subset] at whole
    rcases operand with rfl | rfl
    · exact whole.1.1
    · exact whole.1.2
  | orOperand _ operand ih =>
    have whole := ih.guards_subset fun _ => rfl
    rw [guards_or, List.append_subset, List.append_subset] at whole
    rcases operand with rfl | rfl
    · exact whole.1.1
    · exact whole.1.2
  | @negated visit l operand range _ ih =>
    cases visit with
    | walked =>
      obtain ⟨nested, subset⟩ := ih
      exact ⟨nested, subset⟩
    | tested => exact ih
  | receiver _ ih =>
    obtain ⟨nested, subset⟩ := ih
    exact ⟨nested, fun q inside => subset (List.mem_append_left _ inside)⟩
  | argument _ listed ih =>
    obtain ⟨nested, subset⟩ := ih
    exact ⟨nested, fun q inside => subset (List.mem_append_right _
      (mem_eachPlacements.mpr ⟨_, listed, inside⟩))⟩
  | statement _ listed ih =>
    obtain ⟨nested, subset⟩ := ih
    exact ⟨nested, fun q inside => subset (mem_eachPlacements.mpr ⟨_, listed, inside⟩)⟩
  | onlyStatement _ ih => exact ih

/-- Every placement of a statement is one of a visited node itself. -/
theorem exists_visited_of_mem_placements {q : Placement} :
    ∀ {n : Node} {l : Option Range} {nested : Bool}, t.Visited loop .walked l n →
      q ∈ placements l nested n →
        ∃ l' n' nested', t.Visited loop .walked l' n' ∧ q ∈ ownPlacements l' nested' n' := by
  intro n
  induction n using Node.induction with
  | branch condition thenPart elsePart range _ ofThen ofElse =>
    intro l nested visited placed
    rcases List.mem_append.mp placed with placed | inElse
    · rcases List.mem_append.mp placed with own | inThen
      · exact ⟨l, _, nested, visited, own⟩
      · obtain ⟨part, here, inside⟩ := mem_partPlacements.mp inThen
        obtain rfl := Option.mem_def.mp here
        exact ofThen part rfl (.thenPart visited) inside
    · obtain ⟨part, here, inside⟩ := mem_partPlacements.mp inElse
      obtain rfl := Option.mem_def.mp here
      exact ofElse part rfl (.elsePart visited) inside
  | loop condition body range _ ofBody =>
    intro l nested visited placed
    rcases List.mem_append.mp placed with own | inside
    · exact ⟨l, _, nested, visited, own⟩
    · exact ofBody (.body visited) inside
  | and lhs rhs range _ _ => exact fun visited placed => ⟨_, _, true, visited, placed⟩
  | or lhs rhs range _ _ => exact fun visited placed => ⟨_, _, true, visited, placed⟩
  | not operand range ih => exact fun visited placed => ih (.negated visited) placed
  | send receiver method arguments range ofReceiver ofArguments =>
    intro l nested visited placed
    rcases List.mem_append.mp placed with placed | placed
    · obtain ⟨part, here, inside⟩ := mem_partPlacements.mp placed
      obtain rfl := Option.mem_def.mp here
      exact ofReceiver part rfl (.receiver visited) inside
    · obtain ⟨argument, listed, inside⟩ := mem_eachPlacements.mp placed
      exact ofArguments argument listed (.argument visited listed) inside
  | sequence statements range each =>
    intro l nested visited placed
    obtain ⟨statement, listed, inside⟩ := mem_eachPlacements.mp placed
    exact each statement listed (.statement visited listed) inside
  | var kind name range => exact fun _ placed => absurd placed List.not_mem_nil
  | const scope name range _ => exact fun _ placed => absurd placed List.not_mem_nil
  | leave range => exact fun _ placed => absurd placed List.not_mem_nil
  | other range => exact fun _ placed => absurd placed List.not_mem_nil

end

/-! ### The pins that are added -/

/-- The pins behind the locals. -/
def added (locals result : List Pin) : List Pin :=
  result.drop locals.length

section

variable {oracle : Oracle Id} {first seen locals result : List Pin} {ps : List Placement}
  {q : Placement} {pin : Pin}

theorem added_append (locals new : List Pin) : added locals (locals ++ new) = new :=
  List.drop_left

/-- Each placement makes its shadow, as it sees the locals. -/
theorem Adds.makes (adds : Adds oracle first ps locals result) (placed : q ∈ ps) :
    ∃ seen, first <+: seen ∧ seen <+: result ∧
      ∀ pin ∈ shadow? oracle seen q, pin ∈ added locals result := by
  induction adds with
  | nil => exact absurd placed List.not_mem_nil
  | @cons p ps seen locals result since before rest ih =>
    obtain ⟨new, rfl⟩ := rest.keeps
    rw [added_append] at ih
    rw [List.append_assoc, added_append]
    rcases List.mem_cons.mp placed with rfl | later
    · refine ⟨seen, since, ?_, fun pin made => ?_⟩
      · exact before.trans (List.prefix_append _ _)
      · exact List.mem_append_left _ (Option.mem_toList.mpr made)
    · obtain ⟨seen', since', within, each⟩ := ih later
      rw [List.append_assoc] at within
      exact ⟨seen', since', within, fun pin made => List.mem_append_right _ (each pin made)⟩

/-- What is added is the shadow of a placement, as it sees the locals. -/
theorem Adds.made (adds : Adds oracle first ps locals result) (new : pin ∈ added locals result) :
    ∃ q ∈ ps, ∃ seen, first <+: seen ∧ seen <+: result ∧ pin ∈ shadow? oracle seen q := by
  induction adds with
  | nil =>
    rw [added, List.drop_length] at new
    exact absurd new List.not_mem_nil
  | @cons p ps seen locals result since before rest ih =>
    obtain ⟨later, rfl⟩ := rest.keeps
    rw [added_append] at ih
    rw [List.append_assoc, added_append] at new
    rcases List.mem_append.mp new with made | new
    · refine ⟨p, List.mem_cons_self, seen, since, ?_, Option.mem_toList.mp made⟩
      exact (before.trans (List.prefix_append _ _)).trans (List.prefix_append _ _)
    · obtain ⟨q, placed, made⟩ := ih new
      exact ⟨q, List.mem_cons_of_mem p placed, made⟩

/-- The added pins have names of locals. -/
theorem Adds.name_mem (adds : Adds oracle first ps locals result) (listed : pin ∈ result) :
    ∃ original ∈ locals, original.name = pin.name := by
  induction adds with
  | nil => exact ⟨pin, listed, rfl⟩
  | @cons p ps seen locals result since before rest ih =>
    obtain ⟨original, member, named⟩ := ih listed
    rcases List.mem_append.mp member with older | new
    · exact ⟨original, older, named⟩
    · obtain ⟨base, means, made⟩ := Option.bind_eq_some_iff.mp (Option.mem_toList.mp new)
      refine ⟨base, before.subset (List.mem_of_find?_eq_some means), ?_⟩
      dsimp only at made
      split at made
      · exact absurd made (by simp)
      · rw [← named, ← Option.some.inj made]
        rfl

/-- The test of a fact is governed by one of the locals of its name, if there are any. -/
def Governs (locals : List Pin) (fact : Fact) : Prop :=
  (∃ pin ∈ locals, pin.name = fact.name) → (governing? locals fact.name fact.tested).isSome = true

/-- Shadows behind the locals do not change what a placement makes of declared types. -/
theorem shadow?_of_governs (declared : ∀ pin ∈ locals, pin.returnTy.isUndefined = false)
    (governs : Governs locals q.reading.fact) (since : locals <+: seen)
    (named : ∀ pin ∈ seen, ∃ original ∈ locals, original.name = pin.name) :
    shadow? oracle seen q = shadow? oracle locals q := by
  by_cases known : ∃ pin ∈ locals, pin.name = q.reading.fact.name
  · obtain ⟨base, means⟩ := Option.isSome_iff_exists.mp (governs known)
    have means' := governing?_of_prefix since means
    have typed := declared base (List.mem_of_find?_eq_some means)
    simp only [shadow?, means, means', Option.bind_eq_bind, Option.bind_some,
      narrowedTy_declared typed]
  · have absent : ∀ {pins : List Pin}, (∀ pin ∈ pins, ∃ original ∈ locals,
        original.name = pin.name) → governing? pins q.reading.fact.name q.reading.fact.tested =
          none := by
      intro pins each
      refine List.find?_eq_none.mpr fun pin listed => ?_
      rw [Bool.and_eq_true, beq_iff_eq]
      rintro ⟨same, -⟩
      obtain ⟨original, member, alike⟩ := each pin listed
      exact known ⟨original, member, alike.trans same⟩
    simp only [shadow?, absent named, absent fun pin listed => ⟨pin, listed, rfl⟩,
      Option.bind_eq_bind, Option.bind_none]

/-- With declared types, and tests governed by locals, exactly the shadows are added that the
placements make of the locals. -/
theorem Adds.mem_added_iff (adds : Adds oracle locals ps locals result)
    (declared : ∀ pin ∈ locals, pin.returnTy.isUndefined = false)
    (governs : ∀ q ∈ ps, Governs locals q.reading.fact) :
    pin ∈ added locals result ↔ ∃ q ∈ ps, pin ∈ shadow? oracle locals q := by
  constructor
  · intro new
    obtain ⟨q, placed, seen, since, before, made⟩ := adds.made new
    have named : ∀ pin ∈ seen, ∃ original ∈ locals, original.name = pin.name :=
      fun pin listed => adds.name_mem (before.subset listed)
    exact ⟨q, placed, shadow?_of_governs declared (governs q placed) since named ▸ made⟩
  · rintro ⟨q, placed, made⟩
    obtain ⟨seen, since, before, each⟩ := adds.makes placed
    have named : ∀ pin ∈ seen, ∃ original ∈ locals, original.name = pin.name :=
      fun pin listed => adds.name_mem (before.subset listed)
    exact each pin (shadow?_of_governs declared (governs q placed) since named ▸ made)

/-- For locals with declared types that govern the tests of their names, the pins that narrowing
adds are those that a visited statement adds by itself, with the loop that encloses it; and what
guards the operands of a visited condition is among them. -/
theorem mem_added_narrowAll (oracle : Oracle Id) (loop : Option Range) (t : Node)
    (declared : ∀ pin ∈ locals, pin.returnTy.isUndefined = false)
    (governs : ∀ q ∈ placements loop false t, Governs locals q.reading.fact) :
    (∀ pin, pin ∈ added locals (Id.run (narrowAll oracle loop t locals)) ↔
      ∃ l n, t.Visited loop .walked l n ∧
        pin ∈ added locals (Id.run (narrowOwn oracle l locals n))) ∧
    ∀ l n, t.Visited loop .tested l n →
      added locals (Id.run (narrowOperands oracle locals n)) ⊆
        added locals (Id.run (narrowAll oracle loop t locals)) := by
  have whole : ∀ pin, pin ∈ added locals (Id.run (narrowAll oracle loop t locals)) ↔
      ∃ q ∈ placements loop false t, pin ∈ shadow? oracle locals q := fun pin =>
    (adds_narrowAll oracle t loop false locals).mem_added_iff declared governs
  have own : ∀ {l : Option Range} {n : Node}, t.Visited loop .walked l n →
      ∃ nested, ownPlacements l nested n ⊆ placements loop false t ∧
        ∀ pin, pin ∈ added locals (Id.run (narrowOwn oracle l locals n)) ↔
          ∃ q ∈ ownPlacements l nested n, pin ∈ shadow? oracle locals q := by
    intro l n visited
    obtain ⟨nested, subset⟩ := accounted_of_visited visited
    have within := List.Subset.trans (ownPlacements_subset l nested n) subset
    exact ⟨nested, within, fun pin => (adds_narrowOwn oracle l nested n locals).mem_added_iff
      declared fun q placed => governs q (within placed)⟩
  refine ⟨fun pin => (whole pin).trans ⟨?_, ?_⟩, fun l n visited pin new => ?_⟩
  · rintro ⟨q, placed, made⟩
    obtain ⟨l, n, nested, visited, placed⟩ := exists_visited_of_mem_placements .whole placed
    obtain ⟨nested', -, made_iff⟩ := own visited
    obtain ⟨q', placed', reading, range⟩ := exists_mem_ownPlacements nested' placed
    have alike : shadow? oracle locals q' = shadow? oracle locals q := by
      simp only [shadow?, reading, range]
    exact ⟨l, n, visited, (made_iff pin).mpr ⟨q', placed', alike ▸ made⟩⟩
  · rintro ⟨l, n, visited, new⟩
    obtain ⟨nested, within, made_iff⟩ := own visited
    obtain ⟨q, placed, made⟩ := (made_iff pin).mp new
    exact ⟨q, within placed, made⟩
  · have within : guards n ⊆ placements loop false t := accounted_of_visited visited
    have adds := adds_shadowGuarded oracle n locals
    obtain ⟨q, placed, made⟩ := (adds.mem_added_iff declared fun q placed =>
      governs q (within placed)).mp new
    exact (whole pin).mpr ⟨q, within placed, made⟩

end

section OperandOfOperator

/-- `foo && foo.upcase` -/
def fooAndUpcase : Node :=
  .and (.var .localVar "foo" ⟨⟨1, 16⟩, ⟨1, 19⟩⟩)
    (.send (some (.var .localVar "foo" ⟨⟨1, 23⟩, ⟨1, 26⟩⟩)) "upcase" [] ⟨⟨1, 23⟩, ⟨1, 33⟩⟩)
    ⟨⟨1, 16⟩, ⟨1, 33⟩⟩

/-- `ready && show(foo && foo.upcase)` -/
def readyAndShow : Node :=
  .and (.send none "ready" [] ⟨⟨1, 2⟩, ⟨1, 7⟩⟩)
    (.send none "show" [fooAndUpcase] ⟨⟨1, 11⟩, ⟨1, 34⟩⟩) ⟨⟨1, 2⟩, ⟨1, 34⟩⟩

/-- The inner test of `nestedTests` adds its shadows. -/
theorem mem_added_narrowAll_nestedTests :
    added [unionFoo] (Id.run (narrowOwn none none [unionFoo] innerTest)) ⊆
      added [unionFoo] (Id.run (narrowAll none none nestedTests [unionFoo])) ∧
    (added [unionFoo] (Id.run (narrowOwn none none [unionFoo] innerTest))).map
      (·.returnTy.tag) = ["Foo", "String, nil"] := by
  have declared : ∀ pin ∈ [unionFoo], pin.returnTy.isUndefined = false := by
    intro pin listed
    rw [List.mem_singleton.mp listed]
    exact declares_unionFoo.known
  have governed : ∀ q ∈ placements none false nestedTests,
      (governing? [unionFoo] q.reading.fact.name q.reading.fact.tested).isSome = true := by
    rw [← List.all_eq_true]
    decide +kernel
  obtain ⟨iff, -⟩ := mem_added_narrowAll none none nestedTests declared fun q placed _ =>
    governed q placed
  exact ⟨fun pin new => (iff pin).mpr ⟨none, innerTest, .elsePart .whole, new⟩, by decide +kernel⟩

/-- In the argument of a call that is an operand, an operator is not visited, and the shadow that it
adds by itself is missing. -/
theorem added_narrowAll_readyAndShow : ¬ ∀ (loop l : Option Range) (t n : Node)
    (locals : List Pin), t.Inside loop l n →
    (∀ condition body range, n ≠ .loop condition body range) →
    (∀ pin ∈ locals, pin.returnTy.isUndefined = false) →
      added locals (Id.run (narrowOwn none l locals n)) ⊆
        added locals (Id.run (narrowAll none loop t locals)) := by
  intro claimed
  have inside : readyAndShow.Inside none none fooAndUpcase :=
    .argument (.andOperand .whole (.inr rfl)) List.mem_cons_self
  have declared : ∀ pin ∈ [methodFoo], pin.returnTy.isUndefined = false := by
    intro pin listed
    rw [List.mem_singleton.mp listed]
    decide +kernel
  have subset := claimed none none readyAndShow fooAndUpcase [methodFoo] inside
    (fun _ _ _ => Node.noConfusion) declared
  have walk : (added [methodFoo]
      (Id.run (narrowAll none none readyAndShow [methodFoo]))).length = 0 := by
    decide +kernel
  have own : (added [methodFoo]
      (Id.run (narrowOwn none none [methodFoo] fooAndUpcase))).length = 1 := by
    decide +kernel
  rw [List.length_eq_zero_iff] at walk
  rw [walk, List.subset_nil] at subset
  rw [subset] at own
  exact absurd own (by decide)

end OperandOfOperator

end Flow

end DuckInfer
