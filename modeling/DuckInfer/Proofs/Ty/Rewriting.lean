import DuckInfer.Proofs.Infer.Steady
import DuckInfer.Proofs.Ty.PlaceholderNames
import DuckInfer.Proofs.Ty.Qualifying

/-!
Rewriting a type again. What erasing placeholders, widening literals and qualifying names make is
kept by the same rewrite: its members are settled, and it is normal as far as a rewrite goes into
it. Main statement: each rewrite changes nothing a second time, and leaves nothing of what it
replaces outside of placeholders.
-/

namespace DuckInfer

/-! ### Members outside of placeholders -/

/-- A member that satisfies `p` stands in the type, and not in the parameters of a placeholder. -/
inductive Ty.Exposes (p : Member → Prop) : Ty → Prop where
  | here {t : Ty} {m : Member} : m ∈ t.members → p m → t.Exposes p
  | inside {t u : Ty} {m : Member} :
      m ∈ t.members → m.isPlaceholder = false → u ∈ m.params → u.Exposes p → t.Exposes p

theorem Ty.Shows.exposes {name : String} {t : Ty} (shown : t.Shows name) :
    t.Exposes fun m => m.placeholderName? = some name := by
  induction shown with
  | here member named => exact .here member named
  | inside member proper param _ ih => exact .inside member proper param ih

/-- A member without parameters is a leaf, and so is a placeholder. -/
theorem Member.isLeaf_eq_false {m : Member} {u : Ty} (proper : m.isPlaceholder = false)
    (param : u ∈ m.params) : m.isLeaf = false := by
  cases leaf : m.isLeaf with
  | false => rfl
  | true =>
    simp only [Member.isLeaf, proper, Bool.false_or, Bool.and_eq_true, List.isEmpty_iff] at leaf
    rw [Member.params, leaf.1, leaf.2] at param
    exact absurd param List.not_mem_nil

variable {f : Member → Ty} {t : Ty}

/-- In a type that rebuilding keeps, `f` keeps every member outside of placeholders. -/
theorem Ty.Kept.of_exposes {p : Member → Prop} (kept : t.Kept f) (exposed : t.Exposes p) :
    ∃ m, p m ∧ f m = .single m := by
  induction exposed with
  | here member holds =>
    obtain ⟨-, same, -, -⟩ := kept
    exact ⟨_, holds, same _ member⟩
  | inside member proper param _ ih =>
    obtain ⟨-, -, -, params⟩ := kept
    exact ih (params _ member (Member.isLeaf_eq_false proper param) _ param)

/-- What is rebuilt is kept, if `f` keeps a member or puts in what is kept. -/
theorem Ty.kept_of_each (each : ∀ m, f m = .single m ∨ (f m).Kept f) (t : Ty) :
    (t.rebuild f).Kept f := by
  refine Ty.rebuild_induction (fun _ => Ty.kept_unionAll) (fun m inside => ?_) t
  rcases each m with same | kept
  · rw [same]
    exact Ty.kept_single same inside
  · exact kept

theorem Ty.single_ne {m other : Member} (apart : m.name ≠ other.name) :
    Ty.single other ≠ .single m :=
  fun same => apart (congrArg Ty.name same).symm

/-! ### Erasing and widening -/

/-- What erasing the placeholders for some generics puts in the place of a member. -/
def Member.erased (names : List String) (m : Member) : Ty :=
  match m.placeholderName? with
  | some name => if names.contains name then .undefined else .single m
  | none => .single m

theorem Ty.eraseGenerics_eq (names : List String) (t : Ty) :
    t.eraseGenerics names = if t.isGeneric then t.rebuild (Member.erased names) else t :=
  rfl

theorem Member.erased_cases (names : List String) (m : Member) :
    m.erased names = .single m ∨ m.erased names = .undefined := by
  unfold Member.erased
  split
  · split
    · exact Or.inr rfl
    · exact Or.inl rfl
  · exact Or.inl rfl

theorem Member.erased_of_listed {names : List String} {name : String} (listed : name ∈ names)
    {m : Member} (named : m.placeholderName? = some name) : m.erased names ≠ .single m := by
  have erased : m.erased names = .undefined := by
    rw [Member.erased, named]
    exact if_pos (by simpa using listed)
  rw [erased]
  have placeholder : m.name = "generic" :=
    beq_iff_eq.mp (Member.isPlaceholder_of_placeholderName? named)
  exact Ty.single_ne (by rw [placeholder]; decide)

theorem Ty.kept_erased (names : List String) (t : Ty) :
    (t.rebuild (Member.erased names)).Kept (Member.erased names) := by
  refine Ty.kept_of_each (fun m => (m.erased_cases names).imp_right fun erased => ?_) t
  rw [erased]
  exact Ty.kept_single rfl (Or.inl rfl)

theorem Ty.eraseGenerics_eraseGenerics (names : List String) (t : Ty) :
    (t.eraseGenerics names).eraseGenerics names = t.eraseGenerics names := by
  by_cases generic : t.isGeneric = true
  · have once : t.eraseGenerics names = t.rebuild (Member.erased names) := if_pos generic
    rw [once, Ty.eraseGenerics_eq, (Ty.kept_erased names t).rebuild_eq, ite_self]
  · have once : t.eraseGenerics names = t := if_neg generic
    rw [once, once]

/-- No placeholder of a listed name is left, but in the parameters of another one. -/
theorem Ty.not_shows_eraseGenerics {names : List String} {name : String} (listed : name ∈ names)
    (t : Ty) : ¬ (t.eraseGenerics names).Shows name := by
  intro shown
  by_cases generic : t.isGeneric = true
  · have once : t.eraseGenerics names = t.rebuild (Member.erased names) := if_pos generic
    rw [once] at shown
    obtain ⟨m, named, same⟩ := (Ty.kept_erased names t).of_exposes shown.exposes
    exact Member.erased_of_listed listed named same
  · have once : t.eraseGenerics names = t := if_neg generic
    rw [once] at shown
    exact Ty.not_shows_of_ground (by simpa using generic) shown

theorem Ty.erasePlaceholders_erasePlaceholders (t : Ty) :
    t.erasePlaceholders.erasePlaceholders = t.erasePlaceholders :=
  if_neg (by simp [Ty.isGeneric_erasePlaceholders])

/-- What widening puts in the place of a member. -/
def Member.widened (m : Member) : Ty :=
  match m.classOfLiteral? with
  | some name => .absolute name
  | none => .single m

/-- The classes that literals are widened to. -/
def literalClasses : List String :=
  ["Boolean", "String", "Symbol", "Float", "Integer"]

theorem mem_literalClasses {name other : String} (literal : classOfLiteral? name = some other) :
    other ∈ literalClasses := by
  unfold classOfLiteral? at literal
  repeat' split at literal
  all_goals cases literal
  all_goals decide

/-- The class of a literal is the name of no literal. -/
theorem classOfLiteral?_of_class {name other : String}
    (literal : classOfLiteral? name = some other) : classOfLiteral? other = none := by
  have plain : ∀ other ∈ literalClasses, classOfLiteral? other = none := by
    decide +kernel
  exact plain other (mem_literalClasses literal)

theorem Ty.kept_widened (t : Ty) : (t.rebuild Member.widened).Kept Member.widened := by
  refine Ty.kept_of_each (fun m => ?_) t
  unfold Member.widened
  split
  · rename_i name literal
    refine Or.inr (Ty.kept_single ?_ (Or.inl (by simp [Member.isLeaf, Member.absolute])))
    have plain : (Member.absolute name).classOfLiteral? = none := classOfLiteral?_of_class literal
    simp only [plain]
  · exact Or.inl rfl

theorem Ty.widenLiterals_widenLiterals (t : Ty) : t.widenLiterals.widenLiterals = t.widenLiterals :=
  (Ty.kept_widened t).rebuild_eq

/-- No literal is left outside of placeholders. -/
theorem Ty.not_exposes_widenLiterals (t : Ty) :
    ¬ t.widenLiterals.Exposes fun m => m.isLiteral = true := by
  intro exposed
  obtain ⟨m, literal, same⟩ := (Ty.kept_widened t).of_exposes exposed
  obtain ⟨name, found⟩ := Option.isSome_iff_exists.mp literal
  have widened : m.widened = .absolute name := by
    rw [Member.widened, found]
  rw [widened] at same
  have named : name = m.name := congrArg Ty.name same
  have plain : classOfLiteral? m.name = none := named ▸ classOfLiteral?_of_class found
  exact absurd (plain.symm.trans found) (by simp)

/-! ### Qualifying by a store -/

namespace SteadyRunner

variable {m : Type → Type} [Monad m] [ConstantLookup m] {σ : Type} {r : SteadyRunner m σ} {s : σ}

mutual

/-- A member that was rebuilt with effects is what rebuilding with their answers makes. -/
theorem found_rebuildM_member {f : Member → m Ty} (each : ∀ x, r.Steady (f x)) :
    (x : Member) → ∀ {t : Ty}, r.Found s (x.rebuildM f) t →
      x.rebuild (fun x => (r.run (f x) s).1) = t
  | ⟨name, marked, kind, keys, subs⟩, t, found => by
    rw [Member.rebuildM] at found
    split at found
    · rename_i leaf
      rw [Member.rebuild_of_isLeaf leaf, (each _).found_iff.mp found]
    · rename_i node
      obtain ⟨keys', readKeys, found⟩ := found.of_bind fun _ =>
        .bind (steady_tys r each subs) fun _ => each _
      obtain ⟨subs', readSubs, found⟩ := found.of_bind fun _ => each _
      rw [Member.rebuild_of_not_isLeaf (by simpa using node)]
      simp only [found_rebuildM_tys each keys readKeys, found_rebuildM_tys each subs readSubs]
      exact congrArg Prod.fst ((each _).found_iff.mp found)

theorem found_rebuildM_ty {f : Member → m Ty} (each : ∀ x, r.Steady (f x)) :
    (x : Ty) → ∀ {t : Ty}, r.Found s (x.rebuildM f) t →
      x.rebuild (fun x => (r.run (f x) s).1) = t
  | ⟨first, rest⟩, t, found => by
    rw [Ty.rebuildM] at found
    obtain ⟨first', readFirst, found⟩ := found.of_bind fun _ =>
      .bind (steady_members r each rest) fun _ => .pure _
    obtain ⟨rest', readRest, found⟩ := found.of_bind fun _ => .pure _
    obtain rfl := found.of_pure
    rw [Ty.rebuild_eq, Ty.members, List.map_cons, found_rebuildM_member each first readFirst,
      found_rebuildM_members each rest readRest]

theorem found_rebuildM_members {f : Member → m Ty} (each : ∀ x, r.Steady (f x)) :
    (xs : List Member) → ∀ {ts : List Ty}, r.Found s (Member.rebuildListM f xs) ts →
      xs.map (Member.rebuild fun x => (r.run (f x) s).1) = ts
  | [], ts, found => found.of_pure
  | x :: xs, ts, found => by
    rw [Member.rebuildListM] at found
    obtain ⟨t, first, found⟩ := found.of_bind fun _ =>
      .bind (steady_members r each xs) fun _ => .pure _
    obtain ⟨rest, more, found⟩ := found.of_bind fun _ => .pure _
    rw [← found.of_pure, List.map_cons, found_rebuildM_member each x first,
      found_rebuildM_members each xs more]

theorem found_rebuildM_tys {f : Member → m Ty} (each : ∀ x, r.Steady (f x)) :
    (xs : List Ty) → ∀ {ts : List Ty}, r.Found s (Ty.rebuildListM f xs) ts →
      xs.map (Ty.rebuild fun x => (r.run (f x) s).1) = ts
  | [], ts, found => found.of_pure
  | x :: xs, ts, found => by
    rw [Ty.rebuildListM] at found
    obtain ⟨t, first, found⟩ := found.of_bind fun _ =>
      .bind (steady_tys r each xs) fun _ => .pure _
    obtain ⟨rest, more, found⟩ := found.of_bind fun _ => .pure _
    rw [← found.of_pure, List.map_cons, found_rebuildM_ty each x first,
      found_rebuildM_tys each xs more]

end

/-- What a store made of a type is what its answers make of it. -/
theorem Found.qualify {store : Store} {gates : List String} {t u : Ty}
    (found : r.Found s (store.qualify gates t) u) :
    t.qualify (fun name => (r.run (store.lookup name gates) s).1) = u := by
  unfold Store.qualify Ty.qualifyM at found
  have each := found_rebuildM_ty (fun x => .ite (.bind (.lookup store x.name gates) fun answer => by
    cases answer <;> exact .pure _) (.pure _)) t found
  rw [Ty.qualify_eq, ← each]
  refine congrArg (t.rebuild ·) (funext fun m => ?_)
  unfold Member.qualified
  split
  · rw [r.run_bind]
    split
    · rename_i answer
      simp only [answer, r.run_pure]
    · rename_i answer
      simp only [answer, r.run_pure]
  · rw [r.run_pure]

/-- A store keeps a type that it qualified before. -/
theorem run_qualify_qualify (r : SteadyRunner m σ) (store : Store) (gates : List String) (t : Ty)
    (s : σ) :
    (r.run (store.qualify gates (r.run (store.qualify gates t) s).1)
      (r.run (store.qualify gates t) s).2).1 = (r.run (store.qualify gates t) s).1 := by
  have first := r.found_run (store.qualify gates t) s
  generalize (r.run (store.qualify gates t) s).1 = once at first ⊢
  generalize (r.run (store.qualify gates t) s).2 = then' at first ⊢
  -- in the last state both are made of the same answers
  have twice := (r.found_run (store.qualify gates once) then').qualify
  have whole := (first.mono ((steady_qualify r store gates once).later then')).qualify
  rw [← twice]
  generalize (fun name => (r.run (store.lookup name gates)
    (r.run (store.qualify gates once) then').2).1) = answers at whole ⊢
  rw [← whole]
  exact Ty.qualify_qualify answers t

end SteadyRunner

/-! ### All rewrites -/

/-- Erasing the placeholders of some generics, or all placeholders, widening literals and
qualifying names, with any lookup and by a store that may remember its answers, change nothing a
second time. Erasing leaves no placeholder of a listed name outside of others, or none at all, and
widening leaves no literal outside of placeholders. -/
theorem Ty.rewrites_settle {m : Type → Type} [Monad m] [ConstantLookup m] {σ : Type}
    (t : Ty) (names : List String) (lookup : String → Option String) (r : SteadyRunner m σ)
    (store : Store) (gates : List String) (s : σ) :
    ((t.eraseGenerics names).eraseGenerics names = t.eraseGenerics names ∧
        ¬ ∃ name ∈ names, (t.eraseGenerics names).Shows name) ∧
      (t.erasePlaceholders.erasePlaceholders = t.erasePlaceholders ∧
        t.erasePlaceholders.isGeneric = false) ∧
      (t.widenLiterals.widenLiterals = t.widenLiterals ∧
        ¬ t.widenLiterals.Exposes fun m => m.isLiteral = true) ∧
      (t.qualify lookup).qualify lookup = t.qualify lookup ∧
      (r.run (store.qualify gates (r.run (store.qualify gates t) s).1)
        (r.run (store.qualify gates t) s).2).1 = (r.run (store.qualify gates t) s).1 := by
  refine ⟨⟨t.eraseGenerics_eraseGenerics names, ?_⟩,
    ⟨t.erasePlaceholders_erasePlaceholders, t.isGeneric_erasePlaceholders⟩,
    ⟨t.widenLiterals_widenLiterals, t.not_exposes_widenLiterals⟩, t.qualify_qualify lookup,
    r.run_qualify_qualify store gates t s⟩
  rintro ⟨name, listed, shown⟩
  exact Ty.not_shows_eraseGenerics listed t shown

end DuckInfer
