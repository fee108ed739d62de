import DuckInfer.Infer.Analyzer

/-!
The recursion of inference, one level at a time. Finding out what a chain may refer to, the type of
a chain, the type that a pin evaluates to, and what a link may refer to are four kinds of queries,
and answering one of them makes more queries. Main statement: each of these precedes the query that
makes it, as it has a smaller budget, or the same budget and is about a smaller expression.
-/

namespace DuckInfer

/-! ### Sizes of expressions -/

mutual

/-- The number of chains and links in a chain. -/
def Chain.size : Chain → Nat
  | ⟨links, _, _⟩ => Link.sizes links + 1

def Link.size : Link → Nat
  | .call c => c.size + 1
  | .array items => Chain.sizes items + 1
  | .hash entries => ChainPair.sizes entries + 1
  | _ => 1

def Call.size : Call → Nat
  | ⟨_, _, arguments, block⟩ => Chain.sizes arguments + Chain.blockSize block

def ChainPair.size : ChainPair → Nat
  | ⟨key, value⟩ => key.size + value.size

def Link.sizes : List Link → Nat
  | [] => 0
  | link :: links => link.size + Link.sizes links

def Chain.sizes : List Chain → Nat
  | [] => 0
  | chain :: chains => chain.size + Chain.sizes chains

def ChainPair.sizes : List ChainPair → Nat
  | [] => 0
  | entry :: entries => entry.size + ChainPair.sizes entries

def Chain.blockSize : Option Chain → Nat
  | none => 0
  | some block => block.size

end

theorem Link.size_le_sizes {link : Link} {links : List Link} (member : link ∈ links) :
    link.size ≤ Link.sizes links := by
  induction member with
  | head => exact Nat.le_add_right _ _
  | tail _ _ ih => exact Nat.le_trans ih (Nat.le_add_left _ _)

theorem Chain.size_le_sizes {chain : Chain} {chains : List Chain} (member : chain ∈ chains) :
    chain.size ≤ Chain.sizes chains := by
  induction member with
  | head => exact Nat.le_add_right _ _
  | tail _ _ ih => exact Nat.le_trans ih (Nat.le_add_left _ _)

theorem ChainPair.size_le_sizes {entry : ChainPair} {entries : List ChainPair}
    (member : entry ∈ entries) : entry.key.size + entry.value.size ≤ ChainPair.sizes entries := by
  obtain ⟨key, value⟩ := entry
  induction member with
  | head => exact Nat.le_add_right _ _
  | tail _ _ ih => exact Nat.le_trans ih (Nat.le_add_left _ _)

theorem Chain.size_pos (chain : Chain) : 0 < chain.size := by
  obtain ⟨links, location, nullable⟩ := chain
  exact Nat.succ_pos _

/-- A link is smaller than its chain. -/
theorem Chain.size_link_lt {chain : Chain} {link : Link} (member : link ∈ chain.links) :
    link.size < chain.size := by
  obtain ⟨links, location, nullable⟩ := chain
  exact Nat.lt_succ_of_le (Link.size_le_sizes member)

theorem Call.size_argument_le {c : Call} {chain : Chain} (member : chain ∈ c.arguments) :
    chain.size ≤ c.size := by
  obtain ⟨word, location, arguments, block⟩ := c
  exact Nat.le_trans (Chain.size_le_sizes member) (Nat.le_add_right _ _)

theorem Call.size_block_le {c : Call} {chain : Chain} (passed : c.block = some chain) :
    chain.size ≤ c.size := by
  obtain ⟨word, location, arguments, block⟩ := c
  obtain rfl : block = some chain := passed
  exact Nat.le_add_left _ _

/-! ### Queries -/

/-- What is asked while a chain is resolved. -/
inductive Query where
  /-- what a chain may refer to -/
  | candidates (chain : Chain) (lexical : Pin) (locals : List Pin)
  /-- the type of a chain -/
  | infer (chain : Chain) (lexical : Pin) (locals : List Pin)
  /-- the type that a pin evaluates to -/
  | typeOf (pin : Pin) (locals : List Pin)
  /-- what a link may refer to: a literal of any form, a call, a constant or a variable -/
  | link (link : Link) (cx : LinkSite)

/-- What a query is answered with. -/
def Query.Answer : Query → Type
  | .candidates _ _ _ => List Pin
  | .infer _ _ _ => Ty
  | .typeOf _ _ => Ty
  | .link _ _ => List Pin

/-- Size of the expression that a query is about, counted twice: the type of a chain is found by way
of its candidates and is one more. The types of pins are asked on the way to both. -/
def Query.size : Query → Nat
  | .candidates chain _ _ => 2 * chain.size
  | .infer chain _ _ => 2 * chain.size + 1
  | .typeOf _ _ => 0
  | .link l _ => 2 * l.size

/-- A query, with the budget left for it, precedes another one: less budget is left, or as much and
the expression is smaller. -/
def Precedes (p q : Nat × Query) : Prop :=
  Prod.Lex (· < ·) (· < ·) (p.1, p.2.size) (q.1, q.2.size)

theorem Precedes.of_budget {b b' : Nat} (less : b < b') (q q' : Query) :
    Precedes (b, q) (b', q') :=
  .left _ _ less

theorem Precedes.of_size {q q' : Query} (less : q.size < q'.size) (b : Nat) :
    Precedes (b, q) (b, q') :=
  .right _ less

theorem wellFounded_precedes : WellFounded Precedes :=
  InvImage.wf (fun p : Nat × Query => (p.1, p.2.size)) (Prod.lex Nat.lt_wfRel Nat.lt_wfRel).wf

/-- Answers to all queries, for each budget. -/
abbrev Answers (m : Type → Type) :=
  Nat → (q : Query) → m q.Answer

namespace Answers

variable {m : Type → Type}

def candidates (calls : Answers m) (budget : Nat) (chain : Chain) (lexical : Pin)
    (locals : List Pin) : m (List Pin) :=
  calls budget (.candidates chain lexical locals)

def infer (calls : Answers m) (budget : Nat) (chain : Chain) (lexical : Pin)
    (locals : List Pin) : m Ty :=
  calls budget (.infer chain lexical locals)

def typeOf (calls : Answers m) (budget : Nat) (pin : Pin) (locals : List Pin) : m Ty :=
  calls budget (.typeOf pin locals)

def link (calls : Answers m) (budget : Nat) (link : Link) (cx : LinkSite) : m (List Pin) :=
  calls budget (.link link cx)

/-- The engine that answers with one step of the budget less, if one is left. -/
def engine? (calls : Answers m) : Nat → Option (Engine m)
  | 0 => none
  | budget + 1 => some ⟨calls.candidates budget, calls.infer budget⟩

end Answers

/-! ### One level of the recursion -/

section

variable {m : Type → Type} [Monad m] [ConstantLookup m]

/-- What the last of several links may refer to, given what each of them may. -/
def followLinks (candidates : Link → LinkSite → m (List Pin)) (typeOf : Pin → List Pin → m Ty)
    (nullable : Bool) : List Link → LinkSite → m (List Pin)
  | [], _ => return []
  | [link], cx => candidates link cx
  | link :: next :: rest, cx => do
    let pins ← candidates link cx
    let t ← receiverTy typeOf nullable pins cx.locals
    if t.isUndefined then return []
    else
      followLinks candidates typeOf nullable (next :: rest)
        { cx with receiver := .valueIn cx.lexical t, head := false }

/-- The types of several chains, with literals widened to their classes. -/
def inferEach (infer : Chain → m Ty) (chains : List Chain) : m (List Ty) :=
  chains.mapM fun chain => do return (← infer chain).widenLiterals

/-- The types of the key and the value of an entry, with literals widened to their classes. -/
def inferPair (infer : Chain → m Ty) (entry : ChainPair) : m (Ty × Ty) := do
  let key ← infer entry.key
  let value ← infer entry.value
  return (key.widenLiterals, value.widenLiterals)

/-- A call, with its arguments and its block inferred when they are needed. -/
def siteOf (infer : Chain → Pin → List Pin → m Ty) (c : Call) (cx : LinkSite) : CallSite m :=
  { word := c.word
    location := c.location
    argTys := inferEach (infer · cx.lexical cx.locals) c.arguments
    withBlock := c.block.isSome
    blockSymbol := c.passedSymbol?
    blockLocation := c.block.bind Chain.location
    blockTy := fun scope =>
      match c.block with
      | none => return .undefined
      | some chain => infer chain scope cx.locals }

/-- The answer to a query, with `calls` to answer the queries that are made on the way. -/
def Query.answer (store : Store) (calls : Answers m) (budget : Nat) : (q : Query) → m q.Answer
  | .candidates chain lexical locals =>
    if chain.links.any Chain.isUnknownLink then (return [] : m (List Pin))
    else
      followLinks (calls.link budget) (calls.typeOf budget) chain.nullable chain.links
        ⟨lexical, lexical, locals, chain.location.map fun l => l.range.start, true⟩
  | .infer chain lexical locals => show m Ty from do
    let pins ← calls.candidates budget chain lexical locals
    chainTy (calls.typeOf budget) chain.nullable pins locals
  | .typeOf pin locals => typeOfWith store (calls.engine? budget) pin locals
  | .link (.constant name) cx => constantCandidates store name cx
  | .link (.call c) cx => (siteOf (calls.infer budget) c cx).resolve store cx
  | .link (.array items) cx => show m (List Pin) from do
    let tys ← inferEach (calls.infer budget · cx.lexical cx.locals) items
    return [.value (arrayTy tys)]
  | .link (.hash entries) cx => show m (List Pin) from do
    let tys ← entries.mapM (inferPair (calls.infer budget · cx.lexical cx.locals))
    return [.value (hashTy (tys.map Prod.fst) (tys.map Prod.snd))]
  | .link (.literal t) _ => (return [.value t] : m (List Pin))
  | .link (.blockSymbol _) _ => (return [.value (.absolute "Proc")] : m (List Pin))
  | .link .receiver cx => (return [.valueIn cx.lexical cx.receiver.context] : m (List Pin))
  | .link (.variable kind name) cx => (return variableCandidates store kind name cx : m (List Pin))
  | .link .unknown _ => (return [] : m (List Pin))

/-- The answers of the analyzers. -/
def Analyzer.answers (store : Store) : Answers m
  | budget, .candidates chain lexical locals =>
    Analyzer.candidates ⟨store, budget⟩ chain lexical locals
  | budget, .infer chain lexical locals => Analyzer.infer ⟨store, budget⟩ chain lexical locals
  | budget, .typeOf pin locals => Analyzer.typeOf ⟨store, budget⟩ pin locals
  | budget, .link link cx => linkCandidates store (Analyzer.typeOf ⟨store, budget⟩) link cx

end

/-! ### The analyzers' answers, level by level -/

section

variable {m : Type → Type} [Monad m] [ConstantLookup m] (store : Store)
  (typeOf : Pin → List Pin → m Ty)

theorem linksCandidates_eq (nullable : Bool) (links : List Link) (cx : LinkSite) :
    linksCandidates store typeOf nullable links cx =
      followLinks (linkCandidates store typeOf) typeOf nullable links cx := by
  induction links generalizing cx with
  | nil => rfl
  | cons link rest ih =>
    cases rest with
    | nil => rfl
    | cons next rest =>
      simp only [linksCandidates, followLinks]
      refine bind_congr fun pins => bind_congr fun t => ?_
      rw [ih]

variable [LawfulMonad m]

theorem inferAll_eq (chains : List Chain) (lexical : Pin) (locals : List Pin) :
    inferAll store typeOf chains lexical locals =
      inferEach (inferWith store typeOf · lexical locals) chains := by
  induction chains with
  | nil => rfl
  | cons chain chains ih =>
    unfold inferEach at ih ⊢
    simp only [inferAll, List.mapM_cons, ih, inferWith, bind_assoc, pure_bind]

theorem inferEntries_eq (entries : List ChainPair) (lexical : Pin) (locals : List Pin) :
    inferEntries store typeOf entries lexical locals =
      entries.mapM (inferPair (inferWith store typeOf · lexical locals)) := by
  induction entries with
  | nil => rfl
  | cons entry entries ih =>
    obtain ⟨key, value⟩ := entry
    simp only [inferEntries, inferEntry, inferPair, List.mapM_cons, ih, inferWith, bind_assoc,
      pure_bind]

theorem callCandidates_eq (c : Call) (cx : LinkSite) :
    callCandidates store typeOf c cx = (siteOf (inferWith store typeOf) c cx).resolve store cx := by
  obtain ⟨word, location, arguments, block⟩ := c
  simp only [callCandidates, siteOf, inferAll_eq]
  cases block <;> rfl

/-- The analyzers answer every query by one level of the recursion. -/
theorem Analyzer.answers_eq (budget : Nat) (q : Query) :
    q.answer store (Analyzer.answers (m := m) store) budget = Analyzer.answers store budget q := by
  cases q with
  | candidates chain lexical locals =>
    obtain ⟨links, location, nullable⟩ := chain
    simp only [Query.answer, Analyzer.answers, Analyzer.candidates, candidatesWith,
      linksCandidates_eq]
    rfl
  | infer chain lexical locals => rfl
  | typeOf pin locals => cases budget <;> rfl
  | link link cx =>
    cases link with
    | call c =>
      simp only [Query.answer, Analyzer.answers, linkCandidates, callCandidates_eq]
      rfl
    | array items =>
      simp only [Query.answer, Analyzer.answers, linkCandidates, inferAll_eq]
      rfl
    | hash entries =>
      simp only [Query.answer, Analyzer.answers, linkCandidates, inferEntries_eq]
      rfl
    | _ => rfl

end

/-! ### Only smaller queries are made -/

/-- The program makes no query but such that precede `p`: it makes none at all, or just one, or it
goes on with the result of such a program. -/
inductive CallsBelow {m : Type → Type} [Monad m] (p : Nat × Query) :
    {α : Type} → (Answers m → m α) → Prop where
  | none {α : Type} (x : m α) : CallsBelow p fun _ => x
  | one (budget : Nat) (q : Query) :
      Precedes (budget, q) p → CallsBelow p fun calls => calls budget q
  | bind {α β : Type} {e : Answers m → m α} {f : α → Answers m → m β} :
      CallsBelow p e → (∀ a, CallsBelow p (f a)) → CallsBelow p fun calls => e calls >>= (f · calls)

section

variable {m : Type → Type} [Monad m] {p : Nat × Query}

theorem CallsBelow.ite {α : Type} {c : Prop} {decide : Answers m → Decidable c}
    {e e' : Answers m → m α} (yes : CallsBelow p e) (no : CallsBelow p e') :
    CallsBelow p fun calls => @ite (m α) c (decide calls) (e calls) (e' calls) := by
  by_cases holds : c
  · simpa only [if_pos holds] using yes
  · simpa only [if_neg holds] using no

variable [LawfulMonad m]

theorem CallsBelow.mapM {α β : Type} {f : Answers m → α → m β} {xs : List α}
    (each : ∀ x ∈ xs, CallsBelow p (f · x)) : CallsBelow p fun calls => xs.mapM (f calls) := by
  induction xs with
  | nil => exact .none _
  | cons x xs ih =>
    simp only [List.mapM_cons]
    exact .bind (each x List.mem_cons_self) fun y =>
      .bind (ih fun x member => each x (List.mem_cons_of_mem _ member)) fun ys => .none _

theorem callsBelow_unionOfPins {typeOf : Answers m → Pin → List Pin → m Ty}
    (each : ∀ pin locals, CallsBelow p (typeOf · pin locals)) (pins locals : List Pin) :
    CallsBelow p fun calls => unionOfPins (typeOf calls) pins locals :=
  .bind (.mapM fun pin _ => each pin locals) fun _ => .none _

theorem callsBelow_followLinks {candidates : Answers m → Link → LinkSite → m (List Pin)}
    {typeOf : Answers m → Pin → List Pin → m Ty} {links : List Link}
    (each : ∀ link ∈ links, ∀ cx, CallsBelow p (candidates · link cx))
    (eachPin : ∀ pin locals, CallsBelow p (typeOf · pin locals)) (nullable : Bool) (cx : LinkSite) :
    CallsBelow p fun calls =>
      followLinks (candidates calls) (typeOf calls) nullable links cx := by
  induction links generalizing cx with
  | nil => exact .none _
  | cons link rest ih =>
    cases rest with
    | nil => exact each link List.mem_cons_self cx
    | cons next rest =>
      simp only [followLinks]
      refine .bind (each link List.mem_cons_self cx) fun pins =>
        .bind (.bind (callsBelow_unionOfPins eachPin pins cx.locals) fun _ => .none _) fun t => ?_
      exact .ite (.none _) (ih (fun link member => each link (List.mem_cons_of_mem _ member)) _)

theorem callsBelow_inferEach {infer : Answers m → Chain → m Ty} {chains : List Chain}
    (each : ∀ chain ∈ chains, CallsBelow p (infer · chain)) :
    CallsBelow p fun calls => inferEach (infer calls) chains :=
  .mapM fun chain member => .bind (each chain member) fun _ => .none _

end

/-! In a call, the arguments and the block make queries. -/

section

variable {m : Type → Type} [Monad m] [ConstantLookup m] {p : Nat × Query}
  {args : Answers m → m (List Ty)} {blockTy : Answers m → Pin → m Ty} (site : CallSite m)
  (store : Store) (cx : LinkSite) (context : Ty)

theorem callsBelow_knownBlockTy (block : ∀ scope, CallsBelow p (blockTy · scope))
    (signature : Signature) :
    CallsBelow p fun calls =>
      { site with argTys := args calls, blockTy := blockTy calls }.knownBlockTy store cx signature
        context := by
  dsimp only [CallSite.knownBlockTy]
  refine .ite ?_ (.none _)
  cases site.blockSymbol with
  | some name => exact .none _
  | none => exact .bind (block _) fun _ => .none _

theorem callsBelow_answerFrom (block : ∀ scope, CallsBelow p (blockTy · scope)) (tys : List Ty)
    (pin : Pin) (last : Option (Signature × Ty)) (signatures : List Signature) :
    CallsBelow p fun calls =>
      { site with argTys := args calls, blockTy := blockTy calls }.answerFrom store cx context tys
        pin last signatures := by
  induction signatures generalizing last with
  | nil => exact .none _
  | cons signature signatures ih =>
    simp only [CallSite.answerFrom]
    refine .ite (.bind (.none _) fun mismatch => ?_) (ih last)
    cases mismatch with
    | some wrong => exact ih last
    | none =>
      have answer : CallsBelow p fun calls =>
          { site with argTys := args calls, blockTy := blockTy calls }.answer store cx context tys
            pin signature :=
        .bind (callsBelow_knownBlockTy site store cx context block signature) fun _ => .none _
      exact .bind answer fun found => .ite (ih (some found)) (.none _)

/-- A method is reduced without more queries than those about the block. -/
theorem callsBelow_inferPin (block : ∀ scope, CallsBelow p (blockTy · scope)) (tys : List Ty)
    (pin : Pin) :
    CallsBelow p fun calls =>
      { site with argTys := args calls, blockTy := blockTy calls }.inferPin store cx context tys
        pin := by
  have returnTy : CallsBelow p fun calls =>
      { site with argTys := args calls, blockTy := blockTy calls }.returnTy store cx context tys
        pin := by
    unfold CallSite.returnTy
    cases Overload.ordered pin with
    | nil => exact .none _
    | cons signature signatures =>
      refine .bind (callsBelow_answerFrom site store cx context block tys pin none _)
        fun found => ?_
      cases found <;> exact .none _
  exact .bind returnTy fun found => .ite (.none _) (.none _)

/-- Following a block asks for the candidates of the call that it is passed to. -/
theorem callsBelow_blockParamTy {budget : Nat} (earlier : ∀ q, Precedes (budget, q) p)
    (block : Pin) (index : Nat) (locals : List Pin) :
    CallsBelow p fun calls : Answers m =>
      blockParamTy store ⟨calls.candidates budget, calls.infer budget⟩ block index locals := by
  unfold blockParamTy
  split
  · rename_i receiver _ _
    exact .bind (.one budget (.candidates receiver _ locals) (earlier _)) fun _ => .none _
  · exact .none _

variable [LawfulMonad m]

theorem callsBelow_inferPins (arguments : CallsBelow p args)
    (block : ∀ scope, CallsBelow p (blockTy · scope)) (pins : List Pin) :
    CallsBelow p fun calls =>
      { site with argTys := args calls, blockTy := blockTy calls }.inferPins store cx context
        pins := by
  cases pins with
  | nil => exact .none _
  | cons pin pins =>
    exact .bind arguments fun tys =>
      .mapM fun pin _ => callsBelow_inferPin site store cx context block tys pin

theorem callsBelow_resolve (arguments : CallsBelow p args)
    (block : ∀ scope, CallsBelow p (blockTy · scope)) :
    CallsBelow p fun calls =>
      { site with argTys := args calls, blockTy := blockTy calls }.resolve store cx := by
  have superCandidates : CallsBelow p fun calls =>
      { site with argTys := args calls, blockTy := blockTy calls }.superCandidates store cx := by
    unfold CallSite.superCandidates
    cases cx.lexical.methodAround? with
    | none => exact .none _
    | some method =>
      exact .bind (.none _) fun stack => callsBelow_inferPins site store cx _ arguments block _
  have memberCandidates : ∀ members, CallsBelow p fun calls =>
      { site with argTys := args calls, blockTy := blockTy calls }.memberCandidates store cx
        members := by
    intro members
    dsimp only [CallSite.memberCandidates]
    exact .bind (.mapM fun member _ => .bind (.none _) fun stack =>
      callsBelow_inferPins site store cx _ arguments block stack) fun _ => .none _
  dsimp only [CallSite.resolve, CallSite.visibleLocals]
  refine .ite superCandidates (.ite (.none _) ?_)
  split
  · exact .bind (memberCandidates _) fun found => .ite (.none _) (.none _)
  · exact .none _

/-- Answering a query makes only queries that precede it. -/
theorem callsBelow_answer (budget : Nat) (q : Query) :
    CallsBelow (budget, q) fun calls : Answers m => q.answer store calls budget := by
  cases q with
  | candidates chain lexical locals =>
    refine .ite (.none _) (callsBelow_followLinks ?_ ?_ _ _)
    · intro link member cx
      have smaller := Chain.size_link_lt member
      exact .one budget (.link link cx) (.of_size (by simp only [Query.size]; omega) budget)
    · intro pin locals
      have positive := chain.size_pos
      exact .one budget (.typeOf pin locals) (.of_size (by simp only [Query.size]; omega) budget)
  | infer chain lexical locals =>
    refine .bind (.one budget (.candidates chain lexical locals) ?_) fun pins => ?_
    · exact .of_size (Nat.lt_succ_self _) budget
    · refine .bind (callsBelow_unionOfPins (fun pin locals => ?_) pins locals) fun _ => .none _
      exact .one budget (.typeOf pin locals) (.of_size (by simp only [Query.size]; omega) budget)
  | typeOf pin locals =>
    refine .ite ?_ (.none _)
    cases budget with
    | zero => exact .none _
    | succ budget =>
      have earlier : ∀ q : Query, Precedes (budget, q) (budget + 1, .typeOf pin locals) :=
        fun q => .of_budget (Nat.lt_succ_self budget) q _
      dsimp only [Answers.engine?]
      split
      · rename_i chain _
        exact .one budget (.infer chain _ locals) (earlier _)
      · rename_i block _ _ _
        exact callsBelow_blockParamTy store earlier block _ locals
      · exact .none _
  | link link cx =>
    have inner : ∀ {chain : Chain}, chain.size < link.size → ∀ lexical locals,
        CallsBelow (budget, .link link cx) fun calls : Answers m =>
          calls.infer budget chain lexical locals := by
      intro chain smaller lexical locals
      exact .one budget (.infer chain lexical locals)
        (.of_size (by simp only [Query.size]; omega) budget)
    cases link with
    | call c =>
      refine callsBelow_resolve (siteOf (fun _ _ _ => return .undefined) c cx) store cx
        (callsBelow_inferEach fun chain member => inner ?_ _ _) fun scope => ?_
      · exact Nat.lt_succ_of_le (Call.size_argument_le member)
      · cases passed : c.block with
        | none => exact .none _
        | some chain => exact inner (Nat.lt_succ_of_le (Call.size_block_le passed)) _ _
    | array items =>
      refine .bind (callsBelow_inferEach fun chain member => inner ?_ _ _) fun tys => .none _
      exact Nat.lt_succ_of_le (Chain.size_le_sizes member)
    | hash entries =>
      refine .bind (.mapM fun entry member => ?_) fun tys => .none _
      have smaller : entry.key.size + entry.value.size < (Link.hash entries).size :=
        Nat.lt_succ_of_le (ChainPair.size_le_sizes member)
      exact .bind (inner (by omega) _ _) fun key =>
        .bind (inner (by omega) _ _) fun value => .none _
    | _ => exact .none _

end

end DuckInfer
