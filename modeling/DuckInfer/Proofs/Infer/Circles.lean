import DuckInfer.Infer.Analyzer

/-!
Locals assigned to each other. Main statement: the type of locals about which nothing is stated, and
which are assigned nothing but each other's names, stays unknown with every budget.
-/

namespace DuckInfer

/-- The chain is a bare word. -/
def Chain.IsWord (chain : Chain) (name : String) : Prop :=
  ∃ location, chain.links = [.call ⟨name, location, [], none⟩]

/-- A local that has no stated type and no documentation, with the chain that it is assigned. -/
structure Pin.IsPlainLocal (pin : Pin) (chain : Chain) : Prop where
  kind : ∃ extent derived, pin.kind = .variable .localVar ⟨none, some chain, extent, derived⟩
  comments : pin.comments = ""
  proxyTy : pin.proxyTy = none

/-- The locals of some names are plain, there are some of each of the names, and they are assigned
such names as well. The keywords `super` and `yield` are none of the names. -/
structure Circular (locals : List Pin) (circle : String → Prop) : Prop where
  word : ∀ name, circle name → name ≠ "super" ∧ name ≠ "yield"
  exists_local : ∀ name, circle name → ∃ pin ∈ locals, pin.name = name
  assigned : ∀ pin ∈ locals, circle pin.name →
    ∃ chain, pin.IsPlainLocal chain ∧ ∃ name, circle name ∧ chain.IsWord name

/-- Plain locals, each of them assigned the name of the next one, and the last one that of the
first. No other local has one of their names. -/
structure IsRing {n : Nat} (locals : List Pin) (ring : Fin (n + 1) → Pin) : Prop where
  word : ∀ i, (ring i).name ≠ "super" ∧ (ring i).name ≠ "yield"
  mem : ∀ i, ring i ∈ locals
  only : ∀ pin ∈ locals, ∀ i, pin.name = (ring i).name → pin = ring i
  assigned : ∀ i, ∃ chain, (ring i).IsPlainLocal chain ∧ chain.IsWord (ring (i + 1)).name

theorem IsRing.circular {n : Nat} {locals : List Pin} {ring : Fin (n + 1) → Pin}
    (isRing : IsRing locals ring) : Circular locals fun name => ∃ i, name = (ring i).name where
  word := by
    rintro name ⟨i, rfl⟩
    exact isRing.word i
  exists_local := by
    rintro name ⟨i, rfl⟩
    exact ⟨ring i, isRing.mem i, rfl⟩
  assigned := by
    rintro pin member ⟨i, same⟩
    obtain ⟨chain, plain, isWord⟩ := isRing.assigned i
    rw [isRing.only pin member i same]
    exact ⟨chain, plain, _, ⟨i + 1, rfl⟩, isWord⟩

/-! ### Which locals govern -/

theorem mem_of_mem_preferring {α : Type} {p : α → Bool} {xs : List α} {x : α}
    (member : x ∈ preferring p xs) : x ∈ xs := by
  unfold preferring at member
  split at member
  · exact (List.mem_filter.mp member).1
  · exact member

theorem preferring_ne_nil {α : Type} {p : α → Bool} {xs : List α} (nonempty : xs ≠ []) :
    preferring p xs ≠ [] := by
  unfold preferring
  split
  · rename_i some
    obtain ⟨x, member, holds⟩ := List.any_eq_true.mp some
    exact List.ne_nil_of_mem (List.mem_filter.mpr ⟨member, holds⟩)
  · exact nonempty

/-- What governs a name is a local of that name. -/
theorem mem_of_mem_governingPins {locals : List Pin} {name : String} {scope pin : Pin}
    {position : Option Position} (member : pin ∈ governingPins locals name scope position) :
    pin ∈ locals ∧ pin.name = name := by
  have named : pin ∈ locals.filter (·.name == name) := by
    unfold governingPins at member
    dsimp only at member
    split at member
    · exact member
    · split at member
      · exact (List.mem_filter.mp member).1
      · have here := mem_of_mem_preferring member
        exact (List.mem_filter.mp (List.mem_filter.mp here).1).1
  simpa using List.mem_filter.mp named

/-- A name that a local has is governed by some local. -/
theorem governingPins_ne_nil {locals : List Pin} {pin : Pin} (member : pin ∈ locals) (scope : Pin)
    (position : Option Position) : governingPins locals pin.name scope position ≠ [] := by
  have named : locals.filter (·.name == pin.name) ≠ [] :=
    List.ne_nil_of_mem (List.mem_filter.mpr ⟨member, by simp⟩)
  unfold governingPins
  dsimp only
  split
  · exact named
  · rename_i present
    split
    · simpa using present
    · rename_i here
      exact preferring_ne_nil (by simpa using here)

/-! ### Plain locals -/

theorem Pin.IsPlainLocal.returnTy_isUndefined {pin : Pin} {chain : Chain}
    (plain : pin.IsPlainLocal chain) : pin.returnTy.isUndefined = true := by
  obtain ⟨extent, derived, kind⟩ := plain.kind
  have tags : (Doc.DocComment.ofText "").tags = [] := by decide
  rw [Pin.returnTy, plain.proxyTy, Option.getD_none, Pin.declaredTy, kind]
  simp only [Option.getD_none, Pin.documentedTy, Pin.doc, plain.comments, Doc.DocComment.tagsOf,
    Doc.DocComment.returnTy, tags]
  decide

theorem Pin.IsPlainLocal.assignment?_eq {pin : Pin} {chain : Chain}
    (plain : pin.IsPlainLocal chain) : pin.assignment? = some chain := by
  obtain ⟨extent, derived, kind⟩ := plain.kind
  rw [Pin.assignment?, Pin.data?, kind]
  rfl

/-! ### Bare words -/

section

variable {m : Type → Type} [Monad m] [LawfulMonad m]

theorem mapM_of_pure {α β : Type} {f : α → m β} {b : β} {xs : List α}
    (each : ∀ x ∈ xs, f x = pure b) : xs.mapM f = pure (xs.map fun _ => b) := by
  induction xs with
  | nil => rfl
  | cons x xs ih =>
    have rest := ih fun x member => each x (List.mem_cons_of_mem _ member)
    simp only [List.mapM_cons, each x List.mem_cons_self, rest, pure_bind, List.map_cons]

/-- If nothing is known about any pin, nothing is known about the chain. -/
theorem chainTy_undefined {typeOf : Pin → List Pin → m Ty} {pins locals : List Pin}
    (unknown : ∀ pin ∈ pins, typeOf pin locals = pure .undefined) (nullable : Bool) :
    chainTy typeOf nullable pins locals = pure .undefined := by
  have none : ((pins.map fun _ => Ty.undefined).filter (!·.isUndefined)) = [] := by
    rw [List.filter_eq_nil_iff]
    intro t listed
    obtain ⟨pin, -, rfl⟩ := List.mem_map.mp listed
    decide
  simp only [chainTy, unionOfPins, mapM_of_pure unknown, pure_bind, none]
  cases nullable <;> rfl

end

section

variable {m : Type → Type} [Monad m] [ConstantLookup m] (store : Store)

/-- A bare word that is the name of a local may refer to the locals that govern it. -/
theorem candidatesWith_word {chain : Chain} {name : String} (isWord : chain.IsWord name)
    (word : name ≠ "super" ∧ name ≠ "yield") {locals : List Pin}
    (named : ∃ pin ∈ locals, pin.name = name) (typeOf : Pin → List Pin → m Ty) (lexical : Pin) :
    ∃ position, candidatesWith store typeOf chain lexical locals =
      pure (governingPins locals name lexical position) := by
  obtain ⟨links, location, nullable⟩ := chain
  obtain ⟨wordLocation, rfl⟩ := isWord
  obtain ⟨pin, member, rfl⟩ := named
  let position :=
    (wordLocation.map fun l => l.range.start).or (location.map fun l => l.range.start)
  have governed := governingPins_ne_nil member lexical position
  refine ⟨position, ?_⟩
  simp only [candidatesWith, linksCandidates, linkCandidates, callCandidates, CallSite.resolve,
    CallSite.visibleLocals, beq_iff_eq, word.1, word.2, if_false, if_true]
  split
  · rename_i unknown
    exact absurd unknown (by simp [Chain.isUnknownLink])
  · split
    · rename_i none
      exact absurd none governed
    · rfl

variable [LawfulMonad m] {locals : List Pin} {circle : String → Prop}

/-- If nothing is known about the locals, nothing is known about the words. -/
theorem Circular.inferWith_undefined (circular : Circular locals circle)
    {typeOf : Pin → List Pin → m Ty}
    (unknown : ∀ pin ∈ locals, circle pin.name → typeOf pin locals = pure .undefined)
    {chain : Chain} {name : String} (named : circle name) (isWord : chain.IsWord name)
    (lexical : Pin) : inferWith store typeOf chain lexical locals = pure .undefined := by
  obtain ⟨position, candidates⟩ := candidatesWith_word store isWord
    (circular.word name named) (circular.exists_local name named) typeOf lexical
  rw [inferWith, candidates, pure_bind]
  refine chainTy_undefined (fun pin governs => ?_) chain.nullable
  obtain ⟨member, rfl⟩ := mem_of_mem_governingPins governs
  exact unknown pin member named

/-- Nothing is known about circular locals, with any budget. -/
theorem Circular.typeWithin_undefined (circular : Circular locals circle) (budget : Nat) :
    ∀ pin ∈ locals, circle pin.name →
      Analyzer.typeWithin (m := m) store budget pin locals = pure .undefined := by
  induction budget with
  | zero =>
    intro pin member named
    obtain ⟨chain, plain, -⟩ := circular.assigned pin member named
    simp only [Analyzer.typeWithin, typeOfWith, plain.returnTy_isUndefined, if_true]
  | succ budget ih =>
    intro pin member named
    obtain ⟨chain, plain, name, assigned, isWord⟩ := circular.assigned pin member named
    simp only [Analyzer.typeWithin, typeOfWith, plain.returnTy_isUndefined, if_true,
      plain.assignment?_eq]
    exact circular.inferWith_undefined store ih assigned isWord _

end

end DuckInfer
