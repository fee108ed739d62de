import DuckInfer.Infer.Problem
import DuckInfer.Proofs.Infer.Termination
import DuckInfer.Proofs.Store.Lookups
import Mathlib.Tactic.Choose

/-!
Inference as a computation that looks up constants: what holds of every lookup, and of one
computation after another, holds of whatever is inferred or checked.
-/

namespace DuckInfer.LookupProperty

variable {m : Type → Type} [Monad m] [LawfulMonad m] [ConstantLookup m]

section

variable {store : Store} (p : LookupProperty m store)

/-! ### Overloads -/

theorem holds_accepts (expected actual : Ty) :
    p.Holds (Overload.accepts store expected actual) :=
  .allM (fun _ => .anyM (fun _ => .ite (.pure true) (p.holds_isAncestorOrSelf _ _)) _) _

theorem holds_wrongArgument? (gates : List String) (signature : Signature)
    (index : Nat) (actual : Ty) :
    p.Holds (Overload.wrongArgument? store gates signature index actual) := by
  unfold Overload.wrongArgument?
  split
  · exact .pure _
  · exact .ite (.pure none) (.bind (p.holds_qualify gates _) fun expected =>
      .bind (p.holds_accepts expected actual) fun _ => .ite (.pure none) (.pure _))

theorem holds_firstWrong? (gates : List String) (signature : Signature)
    (index : Nat) (args : List Ty) :
    p.Holds (Overload.firstWrong? store gates signature index args) := by
  induction args generalizing index with
  | nil => exact .pure none
  | cons actual args ih =>
    refine .bind (p.holds_wrongArgument? gates signature index actual) fun wrong => ?_
    cases wrong with
    | some mismatch => exact .pure _
    | none => exact ih _

theorem holds_mismatch? (pin : Pin) (signature : Signature) (args : List Ty) :
    p.Holds (Overload.mismatch? store pin signature args) :=
  p.holds_firstWrong? pin.gates signature 0 args

theorem holds_selectFrom (pin : Pin) (withBlock : Bool) (args : List Ty)
    (outcome : OverloadOutcome) (signatures : List Signature) :
    p.Holds (Overload.selectFrom store pin withBlock args outcome signatures) := by
  induction signatures generalizing outcome with
  | nil => exact .pure outcome
  | cons signature signatures ih =>
    refine .ite (.bind (p.holds_mismatch? pin signature args) fun mismatch => ?_)
      (ih outcome)
    cases mismatch with
    | none => exact .pure _
    | some wrong => exact ih _

theorem holds_select? (pin : Pin) (withBlock : Bool) (args : List Ty) :
    p.Holds (Overload.select? store pin withBlock args) := by
  unfold Overload.select?
  split
  · exact .pure none
  · exact .map some (p.holds_selectFrom pin withBlock args _ _)

/-! ### Calls -/

section

variable {site : CallSite m} (cx : LinkSite) (context : Ty)

theorem holds_symbolTy (signature : Signature) (name : String) :
    p.Holds (CallSite.symbolTy store signature name context) := by
  unfold CallSite.symbolTy
  split
  · exact .pure _
  · refine .bind (p.holds_methodsNamed _ name) fun stack => ?_
    split
    · exact p.holds_qualify _ _
    · exact .pure _

variable (block : ∀ scope, p.Holds (site.blockTy scope))
include block

theorem holds_knownBlockTy (signature : Signature) :
    p.Holds (site.knownBlockTy store cx signature context) := by
  unfold CallSite.knownBlockTy
  refine .ite ?_ (.pure none)
  dsimp only
  split
  · exact .bind (p.holds_symbolTy context signature _) fun _ => .pure _
  · exact .bind (block _) fun _ => .bind (.pure _) fun _ => .pure _

theorem holds_answerFrom (args : List Ty) (pin : Pin) (last : Option (Signature × Ty))
    (signatures : List Signature) :
    p.Holds (site.answerFrom store cx context args pin last signatures) := by
  induction signatures generalizing last with
  | nil => exact .pure last
  | cons signature signatures ih =>
    refine .ite (.bind (p.holds_mismatch? pin signature args) fun mismatch => ?_) (ih last)
    cases mismatch with
    | some wrong => exact ih last
    | none =>
      have answer : p.Holds (site.answer store cx context args pin signature) :=
        .bind (p.holds_knownBlockTy cx context block signature) fun _ =>
          .bind (p.holds_qualify _ _) fun _ => .pure _
      exact .bind answer fun _ => .ite (ih _) (.pure _)

theorem holds_inferPin (args : List Ty) (pin : Pin) :
    p.Holds (site.inferPin store cx context args pin) := by
  have returnTy : p.Holds (site.returnTy store cx context args pin) := by
    unfold CallSite.returnTy
    split
    · exact .bind (p.holds_qualify _ _) fun _ => .pure _
    · refine .bind (p.holds_answerFrom cx context block args pin none _) fun found => ?_
      cases found <;> exact .pure _
  exact .bind returnTy fun _ => .ite (.pure _) (.pure _)

variable (arguments : p.Holds site.argTys)
include arguments

theorem holds_inferPins (pins : List Pin) :
    p.Holds (site.inferPins store cx context pins) := by
  unfold CallSite.inferPins
  split
  · exact .pure []
  · exact .bind arguments fun args =>
      .mapM fun pin _ => p.holds_inferPin cx context block args pin

theorem holds_resolve : p.Holds (site.resolve store cx) := by
  have superCandidates : p.Holds (site.superCandidates store cx) := by
    unfold CallSite.superCandidates
    split
    · exact .pure []
    · exact .bind (p.holds_methodsNamed _ _) fun _ =>
        p.holds_inferPins cx _ block arguments _
  have yieldCandidates : p.Holds (CallSite.yieldCandidates (m := m) store cx) := by
    unfold CallSite.yieldCandidates
    split
    · exact .pure []
    · exact .mapM fun _ _ => .bind (p.holds_qualify _ _) fun _ => .pure _
  have memberCandidates : ∀ members, p.Holds (site.memberCandidates store cx members) :=
    fun _ => .bind (.mapM fun _ _ => .bind (p.holds_methodsNamed _ _) fun _ =>
      p.holds_inferPins cx _ block arguments _) fun _ => .pure _
  refine .ite superCandidates (.ite yieldCandidates ?_)
  split
  · exact .bind (memberCandidates _) fun _ => .ite (.pure _) (.pure _)
  · exact .pure _

end

/-! ### Chains -/

section

variable {typeOf : Pin → List Pin → m Ty} (each : ∀ pin locals, p.Holds (typeOf pin locals))
include each

theorem holds_unionOfPins (pins locals : List Pin) : p.Holds (unionOfPins typeOf pins locals) :=
  .bind (.mapM fun pin _ => each pin locals) fun _ => .pure _

theorem holds_receiverTy (nullable : Bool) (pins locals : List Pin) :
    p.Holds (receiverTy typeOf nullable pins locals) :=
  .bind (p.holds_unionOfPins each pins locals) fun _ => .pure _

theorem holds_chainTy (nullable : Bool) (pins locals : List Pin) :
    p.Holds (chainTy typeOf nullable pins locals) :=
  .bind (p.holds_unionOfPins each pins locals) fun _ => .pure _

theorem holds_followLinks {candidates : Link → LinkSite → m (List Pin)}
    (eachLink : ∀ link cx, p.Holds (candidates link cx)) (nullable : Bool) (links : List Link)
    (cx : LinkSite) : p.Holds (followLinks candidates typeOf nullable links cx) := by
  induction links generalizing cx with
  | nil => exact .pure []
  | cons link rest ih =>
    cases rest with
    | nil => exact eachLink link cx
    | cons next rest =>
      exact .bind (eachLink link cx) fun pins =>
        .bind (p.holds_receiverTy each nullable pins cx.locals) fun t => .ite (.pure []) (ih _)

end

omit [LawfulMonad m] in
theorem holds_constantCandidates (name : String) (cx : LinkSite) :
    p.Holds (constantCandidates (m := m) store name cx) := by
  unfold constantCandidates
  refine .ite ?_ (.bind (p.holds_lookup name _) fun found => ?_)
  · split <;> exact .pure _
  · cases found <;> exact .pure _

theorem holds_inferEach {infer : Chain → m Ty} (each : ∀ chain, p.Holds (infer chain))
    (chains : List Chain) : p.Holds (inferEach infer chains) :=
  .mapM fun chain _ => .bind (each chain) fun _ => .pure _

theorem holds_typeOfWith {engine : Option (Engine m)}
    (each : ∀ e ∈ engine, ∀ chain lexical locals,
      p.Holds (e.candidates chain lexical locals) ∧ p.Holds (e.infer chain lexical locals))
    (pin : Pin) (locals : List Pin) : p.Holds (typeOfWith store engine pin locals) := by
  refine .ite ?_ (p.holds_qualify _ _)
  cases engine with
  | none => exact .pure _
  | some e =>
    dsimp only
    split
    · exact (each e rfl _ _ locals).2
    · unfold blockParamTy
      split
      · refine .bind (each e rfl _ _ locals).1 fun _ => .bind (.mapM fun method _ => ?_)
          fun _ => .pure _
        split
        · exact p.holds_qualify _ _
        · exact .pure _
      · exact .pure _
    · exact .pure _

/-- If the property holds of all queries that are made on the way, it holds of the query. -/
theorem holds_answer {calls : Answers m}
    (each : ∀ budget q, p.Holds (calls budget q)) (budget : Nat) (q : Query) :
    p.Holds (q.answer store calls budget) := by
  have infers : ∀ lexical locals chain, p.Holds (calls.infer budget chain lexical locals) :=
    fun lexical locals chain => each budget (.infer chain lexical locals)
  have typeOf : ∀ pin locals, p.Holds (calls.typeOf budget pin locals) :=
    fun pin locals => each budget (.typeOf pin locals)
  cases q with
  | candidates chain lexical locals =>
    exact .ite (.pure _) (p.holds_followLinks typeOf (fun link cx => each budget (.link link cx))
      chain.nullable chain.links _)
  | infer chain lexical locals =>
    exact .bind (each budget (.candidates chain lexical locals)) fun pins =>
      p.holds_chainTy typeOf chain.nullable pins locals
  | typeOf pin locals =>
    refine p.holds_typeOfWith (fun e engine chain lexical locals => ?_) pin locals
    cases budget with
    | zero => exact absurd engine (by simp [Answers.engine?])
    | succ budget =>
      obtain rfl : Engine.mk (calls.candidates budget) (calls.infer budget) = e := by
        simpa [Answers.engine?] using engine
      exact ⟨each budget (.candidates chain lexical locals),
        each budget (.infer chain lexical locals)⟩
  | link link cx =>
    cases link with
    | constant name => exact p.holds_constantCandidates name cx
    | call c =>
      refine p.holds_resolve cx (fun scope => ?_)
        (p.holds_inferEach (infers cx.lexical cx.locals) c.arguments)
      dsimp only [siteOf]
      cases c.block with
      | none => exact .pure _
      | some chain => exact infers scope cx.locals chain
    | array items =>
      exact .bind (p.holds_inferEach (infers cx.lexical cx.locals) items) fun _ => .pure _
    | hash entries =>
      exact .bind (.mapM fun entry _ => .bind (infers cx.lexical cx.locals entry.key) fun _ =>
        .bind (infers cx.lexical cx.locals entry.value) fun _ => .pure _) fun _ => .pure _
    | _ => exact .pure _

/-- The property holds of whatever is asked of an analyzer. -/
theorem holds_answers (asked : Nat × Query) :
    p.Holds (Analyzer.answers store asked.1 asked.2) := by
  classical
  induction asked using wellFounded_precedes.induction with
  | _ asked ih =>
    -- queries that come later are not made, so that any computation with the property may stand in
    -- for theirs
    have some : ∀ q : Query, ∃ answer : m q.Answer, p.Holds answer := by
      intro q
      cases q with
      | candidates _ _ _ => exact ⟨(pure [] : m (List Pin)), .pure _⟩
      | infer _ _ _ => exact ⟨(pure .undefined : m Ty), .pure _⟩
      | typeOf _ _ => exact ⟨(pure .undefined : m Ty), .pure _⟩
      | link _ _ => exact ⟨(pure [] : m (List Pin)), .pure _⟩
    choose nothing holds using some
    let calls : Answers m := fun budget q =>
      if Precedes (budget, q) asked then Analyzer.answers store budget q else nothing q
    have same : ∀ budget q, Precedes (budget, q) asked →
        Analyzer.answers store budget q = calls budget q :=
      fun budget q precedes => (if_pos precedes).symm
    rw [← Analyzer.answers_eq, (callsBelow_answer store asked.1 asked.2).congr same]
    refine p.holds_answer (fun budget q => ?_) asked.1 asked.2
    by_cases precedes : Precedes (budget, q) asked
    · rw [← same budget q precedes]
      exact ih (budget, q) precedes
    · simp only [calls, if_neg precedes]
      exact holds q

end

/-! ### Problems -/

section

variable {an : Analyzer} (p : LookupProperty m an.store)

theorem holds_typeOf (pin : Pin) (locals : List Pin) : p.Holds (an.typeOf pin locals : m Ty) :=
  p.holds_answers (an.budget, .typeOf pin locals)

theorem holds_candidates (chain : Chain) (lexical : Pin) (locals : List Pin) :
    p.Holds (an.candidates chain lexical locals : m (List Pin)) :=
  p.holds_answers (an.budget, .candidates chain lexical locals)

theorem holds_infer (chain : Chain) (lexical : Pin) (locals : List Pin) :
    p.Holds (an.infer chain lexical locals : m Ty) :=
  p.holds_answers (an.budget, .infer chain lexical locals)

theorem holds_linkCandidates (link : Link) (cx : LinkSite) :
    p.Holds (linkCandidates (m := m) an.store an.typeOf link cx) :=
  p.holds_answers (an.budget, .link link cx)

theorem holds_linksCandidates (nullable : Bool) (links : List Link) (cx : LinkSite) :
    p.Holds (linksCandidates (m := m) an.store an.typeOf nullable links cx) := by
  rw [linksCandidates_eq]
  exact p.holds_followLinks (p.holds_typeOf) (p.holds_linkCandidates) nullable links cx

theorem holds_argumentProblem? (c : Call) (cx : LinkSite) (pins : List Pin) :
    p.Holds (an.argumentProblem? c cx pins : m (Option ProblemKind)) := by
  unfold Analyzer.argumentProblem?
  rw [inferAll_eq]
  exact .bind (p.holds_inferEach (fun chain => p.holds_infer chain _ _) _) fun args =>
    .bind (.mapM fun pin _ => p.holds_select? pin _ args) fun _ => .pure _

theorem holds_problemWith? (link : Link) (cx : LinkSite) (pins : List Pin) :
    p.Holds (an.problemWith? link cx pins : m (Option ProblemKind)) := by
  unfold Analyzer.problemWith?
  split
  · exact .ite (.pure _) (.pure none)
  · exact .ite (.pure none) (.ite
      (.map some (.bind (p.holds_nearestMethods _ _) fun _ => .pure _))
      (p.holds_argumentProblem? _ cx pins))
  · exact .pure none

theorem holds_problemAlong? (chain : Chain) (links : List Link) (cx : LinkSite) :
    p.Holds (an.problemAlong? chain links cx : m (Option Problem)) := by
  induction links generalizing cx with
  | nil => exact .pure none
  | cons link links ih =>
    refine .bind (p.holds_linkCandidates link cx) fun pins =>
      .bind (p.holds_problemWith? link cx pins) fun problem => ?_
    cases problem with
    | some kind => exact .pure _
    | none =>
      exact .bind (p.holds_receiverTy (p.holds_typeOf) _ pins _) fun t =>
        .ite (.pure none) (ih _)

end

end DuckInfer.LookupProperty
