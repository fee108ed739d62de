import DuckInfer.Proofs.Signature.Parameters

/-!
The places of the arguments of a call. A call fits if it passes as many arguments as there are
required parameters, wherever these stand, but arguments land in the order of the parameters. Main
statement: in a call that fits, every argument lands somewhere and only the rest parameter takes
several; a required parameter gets its one argument if and only if so many are passed as parameters
stand in front of it and itself, and so it is in every call just if the required parameters stand
first.
-/

namespace DuckInfer.Signature

/-- The place, among the positional parameters, that the argument at an index lands in. -/
def placeFor? (s : Signature) (index : Nat) : Option Nat :=
  if s.positional[index]?.any (·.form != .rest) then some index
  else s.positional.findIdx? (·.form == .rest)

/-- The positional parameter at a place is declared in this form. -/
def FormAt (s : Signature) (place : Nat) (form : ParamForm) : Prop :=
  (s.positional[place]?).map Parameter.form = some form

instance (s : Signature) (place : Nat) (form : ParamForm) : Decidable (s.FormAt place form) :=
  inferInstanceAs (Decidable (_ = _))

/-- Exactly one of so many arguments lands in a place. -/
def Served (s : Signature) (argc place : Nat) : Prop :=
  ∃! index, index < argc ∧ s.placeFor? index = some place

/-- No other parameter stands before a required one. -/
def RequiredFirst (s : Signature) : Prop :=
  s.positional.Pairwise fun p q => q.form = .required → p.form = .required

/-! ### Where an argument lands -/

theorem placeFor?_of_formAt {s : Signature} {index : Nat} {form : ParamForm}
    (there : s.FormAt index form) (single : form ≠ .rest) : s.placeFor? index = some index := by
  obtain ⟨param, found, rfl⟩ := Option.map_eq_some_iff.mp there
  have kept : (s.positional[index]?).any (·.form != .rest) = true := by
    rw [found]
    exact bne_iff_ne.mpr single
  rw [placeFor?, if_pos kept]

/-- The parameter that an argument lands in is the one at its place. -/
theorem paramFor?_eq_getElem? (s : Signature) (index : Nat) :
    s.paramFor? index = (s.placeFor? index).bind (s.positional[·]?) := by
  have rest : s.positional.find? (·.form == .rest) =
      (s.positional.findIdx? (·.form == .rest)).bind (s.positional[·]?) :=
    List.find?_eq_bind_findIdx?_getElem?
  cases found : s.positional[index]? with
  | none =>
    rw [paramFor?, placeFor?, found, rest]
    rfl
  | some param =>
    by_cases form : param.form = .rest
    · rw [paramFor?_of_rest found form, placeFor?, found, rest]
      simp [form]
    · have place := placeFor?_of_formAt (s := s) (congrArg (Option.map Parameter.form) found) form
      rw [paramFor?_of_ne_rest found form, place, Option.bind_some, found]

/-- An argument lands at its own place, or in the rest parameter. -/
theorem formAt_or_eq_of_placeFor? {s : Signature} {index place : Nat}
    (landed : s.placeFor? index = some place) : place = index ∨ s.FormAt place .rest := by
  unfold placeFor? at landed
  split at landed
  · exact Or.inl (Option.some.inj landed).symm
  · obtain ⟨within, rest, -⟩ := List.findIdx?_eq_some_iff_getElem.mp landed
    refine Or.inr ?_
    rw [FormAt, List.getElem?_eq_getElem within, Option.map_some, beq_iff_eq.mp rest]

/-- Only the rest parameter takes several arguments. -/
theorem formAt_rest_of_shared {s : Signature} {i j place : Nat} (apart : i ≠ j)
    (landed : s.placeFor? i = some place) (landed' : s.placeFor? j = some place) :
    s.FormAt place .rest := by
  rcases formAt_or_eq_of_placeFor? landed with rfl | rest
  · exact (formAt_or_eq_of_placeFor? landed').resolve_left apart
  · exact rest

/-- A parameter that takes a single argument gets the one at its own place. -/
theorem served_iff {s : Signature} {argc place : Nat} {form : ParamForm}
    (there : s.FormAt place form) (single : form ≠ .rest) : s.Served argc place ↔ place < argc := by
  have own : ∀ index, s.placeFor? index = some place → index = place := by
    intro index landed
    refine ((formAt_or_eq_of_placeFor? landed).resolve_right fun rest => single ?_).symm
    exact Option.some.inj (there.symm.trans rest)
  constructor
  · rintro ⟨index, ⟨passed, landed⟩, -⟩
    exact own index landed ▸ passed
  · intro passed
    exact ⟨place, ⟨passed, placeFor?_of_formAt there single⟩, fun index landed =>
      own index landed.2⟩

/-! ### Required parameters -/

theorem minArgs_eq_countP_positional (s : Signature) :
    s.minArgs = s.positional.countP (·.form == .required) := by
  rw [minArgs, positional, List.countP_filter]
  refine List.countP_congr fun param _ => ?_
  cases form : param.form <;> simp [Parameter.isPositional, form]

theorem minArgs_le_of_accepts {s : Signature} {argc : Nat} {withBlock : Bool}
    (accepted : s.accepts argc withBlock = true) : s.minArgs ≤ argc := by
  unfold accepts at accepted
  split at accepted
  · exact absurd accepted Bool.false_ne_true
  · split at accepted
    · exact absurd accepted Bool.false_ne_true
    · omega

/-- The least number of arguments is accepted together with a block. -/
theorem accepts_minArgs (s : Signature) : s.accepts s.minArgs true = true := by
  simp [accepts]

theorem RequiredFirst.lt_minArgs {s : Signature} (first : s.RequiredFirst) {place : Nat}
    (there : s.FormAt place .required) : place < s.minArgs := by
  obtain ⟨param, found, form⟩ := Option.map_eq_some_iff.mp there
  obtain ⟨within, rfl⟩ := List.getElem?_eq_some_iff.mp found
  have each : ∀ p ∈ s.positional.take (place + 1), (p.form == .required) = true := by
    intro p member
    obtain ⟨i, there'⟩ := List.mem_iff_getElem?.mp member
    rw [List.getElem?_take] at there'
    obtain ⟨before, found'⟩ := Option.ite_none_right_eq_some.mp there'
    obtain ⟨within', rfl⟩ := List.getElem?_eq_some_iff.mp found'
    rw [beq_iff_eq]
    rcases Nat.lt_or_eq_of_le (Nat.le_of_lt_succ before) with earlier | rfl
    · exact List.pairwise_iff_getElem.mp first i place within' within earlier form
    · exact form
  have size : (s.positional.take (place + 1)).length = place + 1 := by
    rw [List.length_take]
    omega
  have counted := List.countP_eq_length.mpr each
  have less := (List.take_sublist (place + 1) s.positional).countP_le (p := (·.form == .required))
  rw [minArgs_eq_countP_positional]
  omega

/-- If all required parameters stand within the least number of arguments, they stand first: the
others would take up their places. -/
theorem requiredFirst_of_lt_minArgs {s : Signature}
    (within : ∀ place, s.FormAt place .required → place < s.minArgs) : s.RequiredFirst := by
  have behind : (s.positional.drop s.minArgs).countP (·.form == .required) = 0 := by
    refine List.countP_eq_zero.mpr fun param member required => ?_
    obtain ⟨i, found⟩ := List.mem_iff_getElem?.mp member
    rw [List.getElem?_drop] at found
    have there : s.FormAt (s.minArgs + i) .required := by
      rw [FormAt, found, Option.map_some, beq_iff_eq.mp required]
    have := within _ there
    omega
  have split := congrArg (List.countP (·.form == .required))
    (List.take_append_drop s.minArgs s.positional)
  rw [List.countP_append, behind, ← minArgs_eq_countP_positional] at split
  have short := List.length_take_le s.minArgs s.positional
  have most := List.countP_le_length (p := fun p : Parameter => p.form == .required)
    (l := s.positional.take s.minArgs)
  have front : ∀ p ∈ s.positional.take s.minArgs, (p.form == .required) = true :=
    List.countP_eq_length.mp (by omega)
  refine List.pairwise_iff_getElem.mpr fun i j inside inside' before required => ?_
  have there : s.FormAt j .required := by
    rw [FormAt, List.getElem?_eq_getElem inside', Option.map_some, required]
  have place := within j there
  have member : s.positional[i] ∈ s.positional.take s.minArgs :=
    List.mem_take_iff_getElem.mpr ⟨i, by omega, rfl⟩
  exact beq_iff_eq.mp (front _ member)

/-- In a call that fits, each argument lands in a parameter, and only the rest parameter takes
several; a required parameter gets exactly one argument if and only if its place is among those of
the arguments. In every call that fits it does so just if no other positional parameter stands
before a required one. -/
theorem served_of_accepts_iff (s : Signature) :
    (∀ argc withBlock, s.accepts argc withBlock = true →
      (∀ index < argc, ∃ place param, s.placeFor? index = some place ∧
        s.positional[place]? = some param ∧ s.paramFor? index = some param) ∧
      (∀ i < argc, ∀ j < argc, i ≠ j → ∀ place, s.placeFor? i = some place →
        s.placeFor? j = some place → s.FormAt place .rest) ∧
      ∀ place, s.FormAt place .required → (s.Served argc place ↔ place < argc)) ∧
    ((∀ argc withBlock, s.accepts argc withBlock = true →
        ∀ place, s.FormAt place .required → s.Served argc place) ↔ s.RequiredFirst) := by
  refine ⟨fun argc withBlock accepted => ⟨fun index passed => ?_, ?_, ?_⟩, fun served => ?_, ?_⟩
  · obtain ⟨param, landed⟩ := exists_paramFor? accepted passed
    obtain ⟨place, here, found⟩ := Option.bind_eq_some_iff.mp
      ((paramFor?_eq_getElem? s index).symm.trans landed)
    exact ⟨place, param, here, found, landed⟩
  · exact fun i _ j _ apart place => formAt_rest_of_shared apart
  · exact fun place required => served_iff required (by decide)
  · refine requiredFirst_of_lt_minArgs fun place required => ?_
    have least := served s.minArgs true s.accepts_minArgs place required
    exact (served_iff required (by decide)).mp least
  · intro first argc withBlock accepted place required
    have passed := Nat.lt_of_lt_of_le (first.lt_minArgs required) (minArgs_le_of_accepts accepted)
    exact (served_iff required (by decide)).mpr passed

/-- `(?Integer x, String y) -> undefined` -/
def optionalFirst : Signature where
  generics := []
  params := [⟨"x", .optional, .absolute "Integer"⟩, ⟨"y", .required, .absolute "String"⟩]
  returns := .undefined
  block := none

/-- The only argument of a call lands in the optional parameter, and the required one behind it gets
none. -/
theorem not_served_optionalFirst : ¬ ∀ (s : Signature) (argc : Nat) (withBlock : Bool),
    s.accepts argc withBlock = true → ∀ place, s.FormAt place .required → s.Served argc place := by
  intro claimed
  have required : optionalFirst.FormAt 1 .required := by decide +kernel
  have served := claimed optionalFirst 1 false (by decide +kernel) 1 required
  exact absurd ((served_iff required (by decide)).mp served) (Nat.lt_irrefl 1)

end DuckInfer.Signature
