import Lox.Grammar.Source
import Lox.Proofs.Grammar.Ledger
import Lox.Proofs.Grammar.Statement

namespace Lox.Grammar

/-- Whether a break is caught here. -/
def Context.looping (c : Context) : Bool :=
  c.loops ≠ 0

/-- Every rule accounts for what it reads. -/
structure Rules.Accounted (r : Rules) : Prop where
  expression : ∀ c level, Accounts c 0 (r.expression level) Expr.ledger
  statement : ∀ c : Context, Accounts c 0 r.statement (Stmt.ledger c.looping)
  declaration : ∀ c : Context,
    Accounts c 0 r.declaration fun entry => entry.elim 0 (Stmt.ledger c.looping)

variable {c : Context} {credit : Ledger}

private theorem statement?_break {kind : TokenKind} (h : statement? kind = some .break) :
    kind = .break := by
  cases kind <;> cases h
  rfl

/-- What a chain of operators accounts for: its operands, and what has been read before them. -/
theorem accounts_chainFrom {op : Type} {operand : Reader Expr} {operator? : TokenKind → Option op}
    {join : op → Mark → Expr → Expr → Expr} (hoperand : Accounts c 0 operand Expr.ledger)
    (hjoin : ∀ o mark left right, (join o mark left right).ledger = left.ledger + right.ledger)
    (operators : Nat) (left : Expr) :
    Accounts c left.ledger (chainFrom operand operator? join operators left) Expr.ledger := by
  induction operators generalizing left with
  | zero => exact accounts_pure le_rfl
  | succ operators ih =>
    refine (accounts_take? _).skip fun found => ?_
    cases found with
    | none => exact accounts_pure le_rfl
    | some found =>
      obtain ⟨o, mark⟩ := found
      refine hoperand.bind fun right => ?_
      rw [← hjoin o mark]
      exact ih (join o mark left right)

theorem accounts_chain {op : Type} {operand : Reader Expr} {operator? : TokenKind → Option op}
    {join : op → Mark → Expr → Expr → Expr} (hoperand : Accounts c 0 operand Expr.ledger)
    (hjoin : ∀ o mark left right, (join o mark left right).ledger = left.ledger + right.ledger)
    (operators : Nat) : Accounts c 0 (chain operators operand operator? join) Expr.ledger :=
  hoperand.seq fun first => accounts_chainFrom hoperand hjoin operators first

namespace Rules

variable {r : Rules} (hr : r.Accounted)
include hr

/-- Declarations account for their bodies. One that fails is left out, and what it has given out is
    on the safe side. -/
theorem accounts_declarations (count : Nat) (before : List Stmt) :
    Accounts c (before.map (Stmt.ledger c.looping)).sum (r.declarations count before) fun body =>
      (body.map (Stmt.ledger c.looping)).sum := by
  induction count generalizing before with
  | zero => exact accounts_reverse before
  | succ count ih =>
    refine accounts_atEnd.skip fun ended => (accounts_next _).skip fun closed => ?_
    split
    · exact accounts_reverse before
    · refine (hr.declaration c).bind fun entry => ?_
      cases entry with
      | none => simpa using ih before
      | some s => simpa [add_comm] using ih (s :: before)

theorem accounts_block : Accounts c 0 r.block fun body =>
    .of (Stmt.idsAll body) (Stmt.breaksAll c.looping body) := by
  refine (accounts_declarations hr _ []).bind fun body => ?_
  refine (accounts_expect _).skip fun _ => accounts_pure ?_
  rw [zero_add, Stmt.ledger_all]

/-- The code of a function starts afresh, so no loop around it catches its breaks. -/
theorem accounts_code (role : CodeRole) : Accounts c 0 (r.code role) Lambda.ledger := by
  have hrest (params : List Mark) : Accounts c 0 (do
      let _ ← expect .parametersEnd
      let _ ← expect (.body role)
      let body ← within .body r.block
      return (⟨params, body⟩ : Lambda)) Lambda.ledger := by
    refine (accounts_expect _).skip fun _ => (accounts_expect _).skip fun _ => ?_
    -- No loop reaches into the body, whatever the context.
    have hbody : Accounts c 0 (within .body r.block) fun body => Lambda.ledger ⟨params, body⟩ :=
      (accounts_block hr).within
    exact hbody.bind fun body => accounts_pure (by rw [zero_add])
  refine (accounts_expect _).skip fun _ => (accounts_next _).skip fun empty => ?_
  split
  · exact hrest []
  · have hparams : Accounts c 0 (separated .tooManyParameters (expectName .parameter) r.bound [])
        fun _ => 0 :=
      (accounts_separated (by decide) (accounts_expectName _) r.bound []).mono fun _ => zero_le
    exact hparams.skip hrest

/-- A primary expression accounts for the number of its name, if it has one. -/
theorem accounts_primary : Accounts c 0 r.primary Expr.ledger := by
  refine (accounts_take? _).skip fun found => ?_
  cases found with
  | none => exact accounts_fail nofun
  | some found =>
    obtain ⟨start, mark⟩ := found
    cases start with
    | literal value => exact accounts_pure le_rfl
    | name | this => exact accounts_freshId.bind fun id => accounts_pure (by rw [zero_add]; rfl)
    | super =>
      refine (accounts_expect _).skip fun _ => (accounts_expectName _).skip fun method => ?_
      exact accounts_freshId.bind fun id => accounts_pure (by rw [zero_add]; rfl)
    | lambda => exact (accounts_code hr _).bind fun code => accounts_pure (by rw [zero_add]; rfl)
    | grouping =>
      refine (hr.expression _ _).within.bind fun inner => (accounts_expect _).skip fun _ => ?_
      exact accounts_pure (by rw [zero_add]; rfl)

theorem accounts_arguments : Accounts c 0 r.arguments fun arguments =>
    .of (Expr.idsAll arguments) (Expr.breaksAll arguments) := by
  refine (accounts_next _).skip fun empty => ?_
  split
  · exact accounts_pure le_rfl
  · refine (accounts_separated (by decide) (hr.expression c .assignment) r.bound []).mono fun arguments => ?_
    rw [Expr.ledger_all]

/-- A callee accounts for its calls and properties, whose arguments come behind it. -/
theorem accounts_callFrom (suffixes : Nat) (callee : Expr) :
    Accounts c callee.ledger (r.callFrom suffixes callee) Expr.ledger := by
  induction suffixes generalizing callee with
  | zero => exact accounts_pure le_rfl
  | succ suffixes ih =>
    refine (accounts_take? _).skip fun found => ?_
    cases found with
    | none => exact accounts_pure le_rfl
    | some found =>
      obtain ⟨suffix, mark⟩ := found
      cases suffix with
      | arguments =>
        refine (accounts_arguments hr).within.bind fun arguments => (accounts_expect _).skip fun paren => ?_
        exact ih (.call callee paren arguments)
      | property => exact (accounts_expectName _).skip fun property => ih (.get callee property)

theorem accounts_call : Accounts c 0 r.call Expr.ledger :=
  (accounts_primary hr).seq fun callee => accounts_callFrom hr _ callee

/-- A sign accounts for its operand, also where it cannot be a sign. -/
theorem accounts_unary : Accounts c 0 r.unary Expr.ledger := by
  refine (accounts_take? _).skip fun found => ?_
  cases found with
  | some found =>
    exact (hr.expression _ _).bind fun right => accounts_pure (by rw [zero_add]; rfl)
  | none =>
    refine (accounts_take? _).skip fun found => ?_
    cases found with
    | some found =>
      refine (accounts_report (by decide) _).skip fun _ => (hr.expression _ _).bind fun right => ?_
      exact accounts_pure (by rw [zero_add]; rfl)
    | none => exact accounts_call hr

theorem accounts_factor : Accounts c 0 r.factor Expr.ledger :=
  accounts_chain (accounts_unary hr) (fun _ _ _ _ => rfl) _

theorem accounts_term : Accounts c 0 r.term Expr.ledger :=
  accounts_chain (accounts_factor hr) (fun _ _ _ _ => rfl) _

theorem accounts_comparison : Accounts c 0 r.comparison Expr.ledger :=
  accounts_chain (accounts_term hr) (fun _ _ _ _ => rfl) _

theorem accounts_equality : Accounts c 0 r.equality Expr.ledger :=
  accounts_chain (accounts_comparison hr) (fun _ _ _ _ => rfl) _

theorem accounts_comma : Accounts c 0 r.comma Expr.ledger := by
  refine accounts_get fun s _ => ?_
  split
  · exact accounts_chain (accounts_equality hr) (fun _ _ _ _ => rfl) _
  · exact accounts_equality hr

theorem accounts_conditional : Accounts c 0 r.conditional Expr.ledger := by
  refine (accounts_comma hr).bind fun condition => (accounts_accept _).skip fun question => ?_
  cases question with
  | none => exact accounts_pure (by rw [zero_add])
  | some _ =>
    refine (hr.expression _ _).bind fun yes => (accounts_expect _).skip fun _ => ?_
    exact (hr.expression _ _).bind fun no => accounts_pure (by rw [zero_add]; rfl)

theorem accounts_and : Accounts c 0 r.and Expr.ledger :=
  accounts_chain (accounts_conditional hr) (fun _ _ _ _ => rfl) _

theorem accounts_or : Accounts c 0 r.or Expr.ledger :=
  accounts_chain (accounts_and hr) (fun _ _ _ _ => rfl) _

/-- A name that is assigned to gets a number of its own, and that of its reading is dropped. What cannot
    be assigned to stays, and the value is dropped. -/
theorem accounts_assignment : Accounts c 0 r.assignment Expr.ledger := by
  refine (accounts_or hr).bind fun target => (accounts_accept _).skip fun equals => ?_
  cases equals with
  | none => exact accounts_pure (by rw [zero_add])
  | some equals =>
    refine (hr.expression _ _).bind fun value => ?_
    rw [zero_add]
    split
    · rename_i ref
      refine accounts_freshId.bind fun id => accounts_pure ?_
      have hassign : (Expr.assign ⟨id, ref.mark⟩ value).ledger = value.ledger + .of [id] [] := by
        rw [Expr.ledger, Expr.ids, Expr.breaks]
        exact Prod.ext rfl (add_zero _).symm
      rw [hassign, add_assoc]
      exact le_add_self
    · rename_i object property
      exact accounts_pure (add_comm value.ledger object.ledger).le
    · exact (accounts_report (by decide) _).skip fun _ => accounts_pure le_self_add

/-- Every level accounts for what it reads, in whatever context. -/
theorem accounts_expressionAt (c : Context) (level : Level) :
    Accounts c 0 (r.expressionAt level) Expr.ledger := by
  cases level with
  | assignment => exact accounts_assignment hr
  | or => exact accounts_or hr
  | and => exact accounts_and hr
  | conditional => exact accounts_conditional hr
  | comma => exact accounts_comma hr
  | equality => exact accounts_equality hr
  | comparison => exact accounts_comparison hr
  | term => exact accounts_term hr
  | factor => exact accounts_factor hr
  | unary => exact accounts_unary hr

omit hr in
/-- What a loop comes down to has what its clauses and its body have; only the body is in the loop. -/
theorem ledger_forLoop (inLoop : Bool) (line : Nat) (initial : Option Stmt)
    (condition increment : Option Expr) (body : Stmt) :
    (forLoop line initial condition increment body).ledger inLoop =
      initial.elim 0 (Stmt.ledger inLoop) + condition.elim 0 Expr.ledger +
        (increment.elim 0 Expr.ledger + body.ledger true) := by
  have hiteration : (iteration increment body).ledger true =
      increment.elim 0 Expr.ledger + body.ledger true := by
    cases increment with
    | none => exact (zero_add _).symm
    | some e =>
      rw [add_comm]
      simp [iteration, Stmt.ledger, Expr.ledger, Stmt.ids, Stmt.idsAll, Stmt.breaks, Stmt.breaksAll,
        Ledger.of]
  have hloop : (Stmt.while (condition.getD (.literal (.bool true) line))
      (iteration increment body)).ledger inLoop =
        condition.elim 0 Expr.ledger + (increment.elim 0 Expr.ledger + body.ledger true) := by
    rw [← hiteration]
    cases condition <;> rfl
  cases initial with
  | none => rw [Option.elim_none, zero_add, ← hloop]; rfl
  | some s =>
    rw [add_assoc, ← hloop]
    simp [forLoop, Stmt.ledger, Stmt.ids, Stmt.idsAll, Stmt.breaks, Stmt.breaksAll, Ledger.of]

theorem accounts_expressionStatement (inLoop : Bool) :
    Accounts c 0 r.expressionStatement (Stmt.ledger inLoop) := by
  refine (accounts_assignment hr).bind fun value => (accounts_expect _).skip fun _ => ?_
  exact accounts_pure (by rw [zero_add]; rfl)

theorem accounts_readVar (inLoop : Bool) : Accounts c 0 r.readVar (Stmt.ledger inLoop) := by
  refine (accounts_expectName _).skip fun name => (accounts_accept _).skip fun equals => ?_
  cases equals with
  | none =>
    exact (accounts_expect _).skip fun _ => accounts_pure le_rfl
  | some _ =>
    refine (accounts_assignment hr).some.bind fun initial => (accounts_expect _).skip fun _ => ?_
    cases initial with
    | none => exact accounts_pure (by rw [zero_add]; rfl)
    | some initial => exact accounts_pure (by rw [zero_add]; rfl)

theorem accounts_expressionUnless (kind : TokenKind) :
    Accounts c 0 (r.expressionUnless kind) fun found => found.elim 0 Expr.ledger := by
  refine (accounts_next _).skip fun absent => ?_
  split
  · exact accounts_pure le_rfl
  · exact (accounts_assignment hr).some

/-- All of a loop is read in its context, though a break in its clauses is in some function there. -/
theorem accounts_readFor (hc : c.looping) (inLoop : Bool) (line : Nat) :
    Accounts c 0 (r.readFor line) (Stmt.ledger inLoop) := by
  have hrest (initial : Option Stmt) : Accounts c (initial.elim 0 (Stmt.ledger inLoop)) (do
      let condition ← r.expressionUnless .semicolon
      let _ ← expect .forCondition
      let increment ← r.expressionUnless .rightParen
      let _ ← expect .forClausesEnd
      let body ← r.statement
      return forLoop line initial condition increment body) (Stmt.ledger inLoop) := by
    refine (accounts_expressionUnless hr _).bind fun condition => (accounts_expect _).skip fun _ => ?_
    refine (accounts_expressionUnless hr _).bind fun increment => (accounts_expect _).skip fun _ => ?_
    refine (hr.statement c).bind fun body => accounts_pure ?_
    rw [hc, ledger_forLoop, add_assoc _ _ (body.ledger true)]
  refine (accounts_expect _).skip fun _ => (accounts_accept _).skip fun semicolon => ?_
  cases semicolon with
  | some _ => exact hrest Option.none
  | none =>
    refine (accounts_accept _).skip fun var => ?_
    cases var with
    | some _ => exact (accounts_readVar hr inLoop).some.seq hrest
    | none => exact (accounts_expressionStatement hr inLoop).some.seq hrest

/-- A loop accounts for its body, which is read with one loop more around it. -/
theorem accounts_readWhile (hc : c.looping) (inLoop : Bool) :
    Accounts c 0 r.readWhile (Stmt.ledger inLoop) := by
  refine (accounts_expect _).skip fun _ => (accounts_assignment hr).bind fun condition => ?_
  refine (accounts_expect _).skip fun _ => (hr.statement c).bind fun body => accounts_pure ?_
  rw [hc, zero_add]
  rfl

theorem accounts_readIf : Accounts c 0 r.readIf (Stmt.ledger c.looping) := by
  refine (accounts_expect _).skip fun _ => (accounts_assignment hr).bind fun condition => ?_
  refine (accounts_expect _).skip fun _ => (hr.statement c).bind fun yes => ?_
  refine (accounts_accept _).skip fun keyword => ?_
  cases keyword with
  | none => exact accounts_pure (by rw [zero_add]; rfl)
  | some _ =>
    refine (hr.statement c).some.bind fun no => accounts_pure ?_
    rw [zero_add]
    cases no with
    | none => exact le_self_add
    | some no => rfl

theorem accounts_readPrint (keyword : Mark) (inLoop : Bool) :
    Accounts c 0 (r.readPrint keyword) (Stmt.ledger inLoop) := by
  refine (accounts_assignment hr).bind fun value => (accounts_expect _).skip fun _ => ?_
  exact accounts_pure (by rw [zero_add]; rfl)

theorem accounts_readReturn (keyword : Mark) (inLoop : Bool) :
    Accounts c 0 (r.readReturn keyword) (Stmt.ledger inLoop) := by
  refine (accounts_expressionUnless hr _).bind fun value => (accounts_expect _).skip fun _ => ?_
  cases value with
  | none => exact accounts_pure (zero_le)
  | some value => exact accounts_pure (by rw [zero_add]; rfl)

omit hr in
/-- A break is on record with the keyword that has been taken for it. -/
theorem accounts_readBreak {token : Token} {more : List Token} {s : State} (hkind : token.kind = .break)
    (hrest : s.rest = token :: more) :
    AccountsAt 0 s (Stmt.ledger s.context.looping)
      (readBreak token.toMark { s with current := s.current + 1 }) := by
  have hmarks : breakMarks [token] = {token.toMark} := by simp [breakMarks, hkind]
  have htaken : s.rest = [token] ++ State.rest { s with current := s.current + 1 } := by
    rw [State.rest_succ hrest, hrest, List.singleton_append]
  have hend (s₁ : State) (hrecords : Records s s₁ (.of [] [⟨token.toMark, !s.context.looping⟩])) :
      AccountsAt 0 s (Stmt.ledger s.context.looping)
        ((do let _ ← expect .breakEnd; return Stmt.break token.toMark : Reader Stmt) s₁) := by
    refine .of_records hrecords ?_
    exact (accounts_expect _).skip (fun _ => accounts_pure (by rw [zero_add]; rfl)) s₁ rfl
  have hread : readBreak token.toMark { s with current := s.current + 1 } = (do
      if s.context.loops = 0 then report .breakOutsideLoop (.ofMark token.toMark)
      let _ ← expect .breakEnd
      return Stmt.break token.toMark : Reader Stmt) { s with current := s.current + 1 } := rfl
  rw [hread]
  by_cases hloops : s.context.loops = 0
  · rw [if_pos hloops]
    refine hend { s with
        current := s.current + 1
        errors := ⟨.breakOutsideLoop, .ofMark token.toMark⟩ :: s.errors }
      ⟨rfl, le_rfl, by simp [Ledger.of], ⟨[token], htaken, ?_⟩, ⟨[_], rfl, ?_⟩⟩
    · rw [hmarks]; rfl
    · simp [breakSites, SyntaxError.breakSite?, straySites, Ledger.of, Context.looping, hloops,
        Multiset.filter_singleton]
  · rw [if_neg hloops]
    refine hend { s with current := s.current + 1 }
      ⟨rfl, le_rfl, by simp [Ledger.of], ⟨[token], htaken, ?_⟩, ⟨[], rfl, ?_⟩⟩
    · rw [hmarks]; rfl
    · simp [breakSites, straySites, Ledger.of, Context.looping, hloops]

/-- A statement accounts for itself, with its breaks as the context tells them. -/
theorem accounts_statementRule : Accounts c 0 r.statementRule (Stmt.ledger c.looping) := by
  refine accounts_token (accounts_expressionStatement hr _) fun start token more s hstart hrest hs => ?_
  cases start with
  | «for» =>
    refine Accounts.behind (.within (accounts_readFor hr ?_ _ _)) hrest hs
    rfl
  | «if» => exact (accounts_readIf hr).behind hrest hs
  | «while» =>
    refine Accounts.behind (.within (accounts_readWhile hr ?_ _)) hrest hs
    rfl
  | «return» => exact (accounts_readReturn hr _ _).behind hrest hs
  | «break» =>
    exact hs ▸ accounts_readBreak (statement?_break hstart) hrest
  | block =>
    have hblock : Accounts c 0 (do return Stmt.block (← r.block)) (Stmt.ledger c.looping) :=
      (accounts_block hr).bind fun body => accounts_pure (by rw [zero_add]; rfl)
    exact hblock.behind hrest hs
  | print => exact (accounts_readPrint hr _ _).behind hrest hs

theorem accounts_definition (role : CodeRole) (name : NameRole) :
    Accounts c 0 (r.definition role name) fun d => d.code.ledger := by
  refine (accounts_expectName _).skip fun name => (accounts_code hr _).bind fun code => ?_
  exact accounts_pure (by rw [zero_add])

/-- Methods account for their code, behind those already read. -/
theorem accounts_methods (count : Nat) (before : List Definition) :
    Accounts c (before.map fun d => d.code.ledger).sum (r.methods count before) fun methods =>
      (methods.map fun d => d.code.ledger).sum := by
  induction count generalizing before with
  | zero => exact accounts_reverse before
  | succ count ih =>
    refine accounts_atEnd.skip fun ended => (accounts_next _).skip fun closed => ?_
    split
    · exact accounts_reverse before
    · refine (accounts_definition hr _ _).bind fun method => ?_
      simpa [add_comm] using ih (method :: before)

/-- A class accounts for its superclass and its methods, whatever loop is around it. -/
theorem accounts_readClass (inLoop : Bool) : Accounts c 0 r.readClass (Stmt.ledger inLoop) := by
  have hrest (name : Mark) (superclass : Option Ref) :
      Accounts c (.of (superclass.map Ref.id).toList []) (do
        let _ ← expect .classBody
        let methods ← r.methods r.bound []
        let _ ← expect .classEnd
        return Stmt.class name superclass methods) (Stmt.ledger inLoop) := by
    refine (accounts_expect _).skip fun _ => (accounts_methods hr _ []).bind fun methods => ?_
    refine (accounts_expect _).skip fun _ => accounts_pure ?_
    rw [← Definition.ledger_all]
    cases superclass with
    | none => exact (zero_add _).ge
    | some parent => exact le_rfl
  refine (accounts_expectName _).skip fun name => (accounts_accept _).skip fun less => ?_
  cases less with
  | none => exact hrest name Option.none
  | some _ =>
    refine (accounts_expectName _).skip fun mark => accounts_freshId.bind fun id => ?_
    rw [zero_add]
    exact hrest name (some ⟨id, mark⟩)

omit hr in
theorem accounts_definesFunction : Accounts c 0 definesFunction fun _ => 0 :=
  fun s _ => ⟨0, .refl s, le_rfl⟩

theorem accounts_declare : Accounts c 0 r.declare (Stmt.ledger c.looping) := by
  refine (accounts_accept _).skip fun «class» => ?_
  cases «class» with
  | some _ => exact accounts_readClass hr _
  | none =>
    refine accounts_definesFunction.skip fun defines => ?_
    split
    · refine (accounts_accept _).skip fun _ => (accounts_definition hr _ _).bind fun d => ?_
      obtain ⟨name, code⟩ := d
      exact accounts_pure (by rw [zero_add]; rfl)
    · refine (accounts_accept _).skip fun var => ?_
      cases var with
      | some _ => exact accounts_readVar hr _
      | none => exact accounts_statementRule hr

/-- A declaration that fails is of no account: its error is not about a break, and what is skipped is
    not read at all. -/
theorem accounts_declarationRule :
    Accounts c 0 r.declarationRule fun entry => entry.elim 0 (Stmt.ledger c.looping) := by
  intro s hs
  have hdeclare := accounts_declare hr s hs
  unfold declarationRule
  cases hresult : r.declare s with
  | ok stmt s' =>
    rw [hresult] at hdeclare
    exact hdeclare
  | error e s' =>
    rw [hresult] at hdeclare
    obtain ⟨hcause, l, hl⟩ := hdeclare
    obtain ⟨hcontext, hid, herrors⟩ := synchronize_same { s' with errors := e :: s'.errors }
    have hskip : Records { s' with errors := e :: s'.errors }
        (synchronize { s' with errors := e :: s'.errors }) 0 :=
      .pass (passes_synchronize _) hcontext hid herrors
    exact ⟨l + 0 + 0, (hl.trans (.error _ hcause)).trans hskip, zero_le⟩

theorem Accounted.nest : r.nest.Accounted :=
  ⟨accounts_expressionAt hr, fun _ => accounts_statementRule hr, fun _ => accounts_declarationRule hr⟩

omit hr in
/-- The rules of every depth account for what they read. The induction is on the depth. -/
theorem accounted_below (count : Nat) : (below count).Accounted := by
  induction count with
  | zero =>
    exact ⟨fun _ _ => accounts_fail nofun, fun _ => accounts_fail nofun, fun _ => accounts_fail nofun⟩
  | succ count ih =>
    have hnest := Accounted.nest ih
    exact ⟨hnest.expression, hnest.statement, hnest.declaration⟩

end Rules

/-- The entries of a program account for the declarations that could be read. -/
theorem accounts_entriesFrom {declaration : Reader (Option Stmt)} {content : Stmt → Ledger}
    (h : Accounts c 0 declaration fun entry => entry.elim 0 content) (count : Nat)
    (before : List (Option Stmt)) :
    Accounts c (before.map fun entry => entry.elim 0 content).sum (entriesFrom declaration count before)
      fun entries => (entries.map fun entry => entry.elim 0 content).sum := by
  induction count generalizing before with
  | zero => exact accounts_reverse before
  | succ count ih =>
    refine accounts_atEnd.skip fun ended => ?_
    split
    · exact accounts_reverse before
    · refine h.bind fun entry => ?_
      simpa [add_comm] using ih (entry :: before)

/-- Entries that could not be read are of no account. -/
private theorem sum_entries (content : Stmt → Ledger) (entries : List (Option Stmt)) :
    (entries.map fun entry => entry.elim 0 content).sum = ((entries.filterMap id).map content).sum := by
  induction entries with
  | nil => rfl
  | cons entry rest ih =>
    cases entry with
    | none => simpa using ih
    | some s => simp [ih]

/-- What a reading gives out and comes to: the numbers on the ledger are all those from the first one on,
    the breaks on it have their keywords among the tokens, and those that no loop catches are reported.
    All of the program that comes out is on the ledger. -/
theorem parse_accounts (tokens : List Token) (firstId : Nat) :
    ∃ l : Ledger, firstId ≤ (parse tokens firstId).nextId ∧
      l.1 = Multiset.Ico firstId (parse tokens firstId).nextId ∧
      l.2.map Break.keyword ≤ breakMarks tokens ∧
      breakSites (parse tokens firstId).errors = straySites l.2 ∧
      .of (Stmt.idsAll (parse tokens firstId).program)
        (Stmt.breaksAll false (parse tokens firstId).program) ≤ l := by
  -- Tokens behind the first end are never read, so their breaks are not reported.
  have hmarks : breakMarks (State.start tokens firstId).rest ≤ breakMarks tokens := by
    have hsplit := List.takeWhile_append_dropWhile (p := fun token => !isEnd token) (l := tokens)
    have hsum := congrArg breakMarks hsplit
    rw [breakMarks_append] at hsum
    rw [rest_start, ← hsum]
    exact le_self_add
  -- Whichever way the parse ends, what it has recorded is about the tokens before the end.
  have hstart (s' : State) (l : Ledger) (hl : Records (State.start tokens firstId) s' l) :
      firstId ≤ s'.nextId ∧ l.1 = Multiset.Ico firstId s'.nextId ∧
        l.2.map Break.keyword ≤ breakMarks tokens ∧ breakSites s'.errors.reverse = straySites l.2 := by
    obtain ⟨taken, htaken, hle⟩ := hl.tokens
    obtain ⟨found, hfound, hsites⟩ := hl.errors
    rw [htaken, breakMarks_append] at hmarks
    refine ⟨hl.forward, hl.ids, hle.trans (le_self_add.trans hmarks), ?_⟩
    rw [hfound, ← hsites, breakSites_reverse]
    exact congrArg breakSites (List.append_nil found)
  have hrules := Rules.accounted_below (tokens.length + 1)
  have hread := accounts_entriesFrom (hrules.declaration ⟨0, true⟩) tokens.length []
    (State.start tokens firstId) rfl
  unfold parse
  dsimp only
  cases hresult : entriesFrom _ _ [] (State.start tokens firstId) with
  | ok entries s' =>
    rw [hresult] at hread
    obtain ⟨l, hl, hle⟩ := hread
    obtain ⟨hforward, hids, htokens, herrors⟩ := hstart s' l hl
    refine ⟨l, hforward, hids, htokens, herrors, ?_⟩
    rw [List.map_nil, List.sum_nil, zero_add] at hle
    rw [Stmt.ledger_all, Parsed.program, ← sum_entries]
    exact hle
  | error e s' =>
    rw [hresult] at hread
    obtain ⟨hcause, l, hl⟩ := hread
    obtain ⟨hforward, hids, htokens, herrors⟩ := hstart s' l hl
    refine ⟨l, hforward, hids, htokens, ?_, zero_le⟩
    rw [breakSites_reverse, breakSites_cons hcause, ← breakSites_reverse]
    exact herrors

end Lox.Grammar
