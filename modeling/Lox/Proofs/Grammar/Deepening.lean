import Lox.Proofs.Grammar.Derivation
import Lox.Proofs.Grammar.Statement
import Lox.Proofs.Grammar.Steadiness

namespace Lox.Grammar

variable {α : Type} {bound : Nat} {read read' : Reader α}

/-- An item and the comma that may follow it. -/
private theorem steady_commaBehind (x : α) (before : List α) :
    Steady bound (do return (x :: before, (← accept .comma).isSome) : Reader (List α × Bool))
      (do return (x :: before, (← accept .comma).isSome)) :=
  (steady_accept _).bind fun _ => steady_pure _

/-- One item more is read the same if the item is. -/
theorem steady_oneMore (tooMany : SyntaxCause) (h : Steady bound read read') (before : List α) :
    Steady bound (oneMore tooMany read before) (oneMore tooMany read' before) := by
  have hitem := h.bind fun x => steady_commaBehind x before
  unfold oneMore
  split
  · exact (steady_reportHere _).bind fun _ => hitem
  · exact hitem

/-- Where a comma follows the item, it has been taken. -/
theorem shortens_oneMore (tooMany : SyntaxCause) (h : Steady bound read read') (before : List α) :
    Shortens (oneMore tooMany read before) fun found => found.2 := by
  have hcomma (x : α) : Shortens
      (do return (x :: before, (← accept .comma).isSome) : Reader (List α × Bool))
      fun found => found.2 := by
    have haccept : Steady 0 (accept .comma) _ := steady_accept _
    have hpure (found : Option Mark) : Steady 0 (pure (x :: before, found.isSome) : Reader _) _ :=
      steady_pure _
    refine (shortens_accept _).bind haccept hpure fun found hnone => ?_
    cases found with
    | none => exact ⟨fun hread hcomma => by cases hread; cases hcomma⟩
    | some _ => exact (hnone rfl).elim
  have hsteady (x : α) : Steady bound _ _ := steady_commaBehind x before
  have hreport : Steady bound (reportHere tooMany) _ := steady_reportHere tooMany
  unfold oneMore
  split
  · exact .later hreport (fun _ => h.bind hsteady) fun _ => .later h hsteady hcomma
  · exact .later h hsteady hcomma

/-- Items in a row are read the same from inputs that leave room for their commas. -/
theorem steady_separated (tooMany : SyntaxCause) (h : Steady bound read read') (commas : Nat)
    (before : List α) (hbound : bound ≤ commas + 1) :
    Steady bound (separated tooMany read commas before)
      (separated tooMany read' (commas + 1) before) := by
  induction commas generalizing before bound with
  | zero =>
    refine (steady_oneMore tooMany h before).bind_shorter (shortens_oneMore tooMany h before) ?_ ?_
    · rintro ⟨items, comma⟩ (rfl : comma = true)
      have hpure : Steady bound (pure items.reverse) _ := steady_pure items.reverse
      exact hpure.of_none (by omega)
    · rintro ⟨items, _ | _⟩ hnone
      · exact steady_pure items.reverse
      · exact (hnone rfl).elim
  | succ commas ih =>
    refine (steady_oneMore tooMany h before).bind_shorter (shortens_oneMore tooMany h before) ?_ ?_
    · rintro ⟨items, comma⟩ (rfl : comma = true)
      exact ih (h.less (by omega)) items (by omega)
    · rintro ⟨items, _ | _⟩ hnone
      · exact steady_pure items.reverse
      · exact (hnone rfl).elim

/-- A chain of operators is read the same if its operands are. -/
theorem steady_chainFrom {op : Type} {operand operand' : Reader Expr}
    {operator? : TokenKind → Option op} {join : op → Mark → Expr → Expr → Expr}
    (h : Steady bound operand operand') (operators : Nat) (left : Expr)
    (hbound : bound ≤ operators + 1) :
    Steady bound (chainFrom operand operator? join operators left)
      (chainFrom operand' operator? join (operators + 1) left) := by
  induction operators generalizing left bound with
  | zero =>
    refine fun s => ⟨rfl, .refl s, fun hshort => ?_⟩
    have hnil : s.rest = [] := List.eq_nil_of_length_eq_zero (by omega)
    show (take? operator? >>= _) s = .ok left s
    rw [bind_apply, take?_of_nil hnil]
    rfl
  | succ operators ih =>
    refine (steady_take? _).found (shortens_take? _) (fun ⟨o, mark⟩ => ?_) (steady_pure left)
    have hless := h.less (Nat.sub_le bound 1)
    exact hless.bind fun right => ih hless (join o mark left right) (by omega)

theorem steady_chain {op : Type} {operand operand' : Reader Expr} {operator? : TokenKind → Option op}
    {join : op → Mark → Expr → Expr → Expr} (operators : Nat)
    (h : Steady bound operand operand') (hbound : bound ≤ operators + 1) :
    Steady bound (chain operators operand operator? join)
      (chain (operators + 1) operand' operator? join) :=
  h.bind fun first => steady_chainFrom h operators first hbound

/-- Reading on, unless what is read ends here. -/
def unlessClosed (x : α) (read : Reader α) : Reader α := do
  if (← atEnd) || (← next .rightBrace) then return x
  read

theorem unlessClosed_nil {x : α} {s : State} (h : s.rest = []) : unlessClosed x read s = .ok x s := by
  simp [unlessClosed, bind_apply, atEnd, next, State.next?_of_nil h, pure, EStateM.pure]

/-- Where a token is left that is no closing brace, one item more is read. -/
theorem unlessClosed_cons {x : α} {s : State} {token : Token} {rest : List Token}
    (h : s.rest = token :: rest) :
    unlessClosed x read s = if token.kind = .rightBrace then .ok x s else read s := by
  by_cases hclosed : token.kind = .rightBrace
  · simp [unlessClosed, bind_apply, atEnd, next, State.next?_of_rest h, hclosed, pure, EStateM.pure]
  · simp [unlessClosed, bind_apply, atEnd, next, State.next?_of_rest h, hclosed]

private theorem steady_unlessClosed {x : α}
    (h : ∀ s, s.rest ≠ [] → SteadyAt (s.rest.length < bound) read read' s) :
    Steady bound (unlessClosed x read) (unlessClosed x read') := by
  intro s
  have hpure : SteadyAt (s.rest.length < bound) (pure x) (pure x) s := steady_pure x s
  cases hrest : s.rest with
  | nil => exact hrest ▸ hpure.congr (unlessClosed_nil hrest) (unlessClosed_nil hrest)
  | cons token rest =>
    rw [← hrest]
    by_cases hclosed : token.kind = .rightBrace
    · refine hpure.congr ?_ ?_ <;> (rw [unlessClosed_cons hrest, if_pos hclosed]; rfl)
    · refine (h s (by simp [hrest])).congr ?_ ?_ <;> rw [unlessClosed_cons hrest, if_neg hclosed]

namespace Rules

/-- The second rules are the first ones, nested once more. From fewer tokens than the first ones are for,
    both read the same. -/
structure Deepen (r r' : Rules) : Prop where
  bound : r'.bound = r.bound + 1
  expression : ∀ level, Steady r.bound (r.expression level) (r'.expression level)
  statement : Steady r.bound r.statement r'.statement
  declaration : Steady r.bound r.declaration r'.declaration
  shortens : ∀ {s entry s'}, s.rest ≠ [] → r.declaration s = .ok entry s' →
    s'.rest.length < s.rest.length

variable {r r' : Rules} (hr : r.Deepen r')

section
include hr

/-- Declarations are read the same from inputs that are short enough for them. -/
theorem steady_declarations (hbound : bound ≤ r.bound) (count : Nat) (before : List Stmt)
    (hcount : bound ≤ count + 1) :
    Steady bound (r.declarations count before) (r'.declarations (count + 1) before) := by
  induction count generalizing before bound with
  | zero =>
    refine fun s => ⟨rfl, .refl s, fun hshort => ?_⟩
    exact unlessClosed_nil (List.eq_nil_of_length_eq_zero (by omega))
  | succ count ih =>
    refine steady_unlessClosed fun s hrest => ?_
    refine ((hr.declaration.less hbound) s).bind fun entry s' hread _ => ?_
    have hless := hr.shortens hrest hread
    have hmore (before : List Stmt) : SteadyAt (s.rest.length < bound)
        (r.declarations count before) (r'.declarations (count + 1) before) s' :=
      have hsteady : Steady (bound - 1) _ _ := ih (by omega) before (by omega)
      (hsteady s').mono fun hshort => by omega
    cases entry with
    | none => exact hmore before
    | some stmt => exact hmore (stmt :: before)

theorem steady_block : Steady r.bound r.block r'.block := by
  unfold block
  rw [hr.bound]
  exact (steady_declarations hr (Nat.le_refl _) r.bound [] (by omega)).bind fun body =>
    (steady_expect _).bind fun _ => steady_pure body

/-- Code is read the same one token further out, since it takes one before it nests. -/
theorem steady_code (role : CodeRole) : Steady (r.bound + 1) (r.code role) (r'.code role) := by
  have hrest (params : List Mark) : Steady (r.bound + 1)
      (do
        let _ ← expect .parametersEnd
        let _ ← expect (.body role)
        let body ← within .body r.block
        return (⟨params, body⟩ : Lambda))
      (do
        let _ ← expect .parametersEnd
        let _ ← expect (.body role)
        let body ← within .body r'.block
        return (⟨params, body⟩ : Lambda)) := by
    have hbody : Steady r.bound (do return (⟨params, ← within .body r.block⟩ : Lambda))
        (do return (⟨params, ← within .body r'.block⟩ : Lambda)) :=
      ((steady_block hr).within _).bind fun body => steady_pure (Lambda.mk params body)
    have hbrace : Proceeds (r.bound + 1) (expect (.body role)) _ := proceeds_expect _
    exact (steady_expect _).bind fun _ => (hbrace.bind fun _ => hbody).steady
  refine (steady_expect _).bind fun _ => (steady_next _).bind fun empty => ?_
  rw [hr.bound]
  split
  · exact hrest []
  · exact (steady_separated _ (steady_expectName _) r.bound [] (Nat.le_refl _)).bind hrest

/-- A primary expression is read the same one token further out. -/
theorem steady_primary : Steady (r.bound + 1) r.primary r'.primary := by
  refine (steady_take? _).found (shortens_take? _) (fun ⟨start, mark⟩ => ?_) (steady_fail _)
  cases start with
  | literal value => exact steady_pure (Expr.literal value mark.line)
  | name => exact steady_freshId.bind fun id => steady_pure (Expr.name ⟨id, mark⟩)
  | this => exact steady_freshId.bind fun id => steady_pure (Expr.this ⟨id, mark⟩)
  | super =>
    exact (steady_expect _).bind fun _ => (steady_expectName _).bind fun method =>
      steady_freshId.bind fun id => steady_pure (Expr.super ⟨id, mark⟩ method)
  | lambda =>
    exact ((steady_code hr _).less (Nat.le_succ _)).bind fun code =>
      steady_pure (Expr.lambda mark code)
  | grouping =>
    exact ((hr.expression _).within _).bind fun inner => (steady_expect _).bind fun _ =>
      steady_pure (Expr.grouping inner)

theorem steady_arguments : Steady r.bound r.arguments r'.arguments := by
  refine (steady_next _).bind fun empty => ?_
  rw [hr.bound]
  split
  · exact steady_pure []
  · exact steady_separated _ (hr.expression _) r.bound [] (by omega)

/-- Calls and properties are read the same from inputs that leave room for them. -/
theorem steady_callFrom (suffixes : Nat) (callee : Expr) (hbound : bound ≤ r.bound + 1)
    (hsuffixes : bound ≤ suffixes + 1) :
    Steady bound (r.callFrom suffixes callee) (r'.callFrom (suffixes + 1) callee) := by
  induction suffixes generalizing callee bound with
  | zero =>
    refine fun s => ⟨rfl, .refl s, fun hshort => ?_⟩
    have hnil : s.rest = [] := List.eq_nil_of_length_eq_zero (by omega)
    show (take? _ >>= _) s = .ok callee s
    rw [bind_apply, take?_of_nil hnil]
    rfl
  | succ suffixes ih =>
    refine (steady_take? _).found (shortens_take? _) (fun ⟨suffix, mark⟩ => ?_) (steady_pure callee)
    have hmore (callee : Expr) : Steady (bound - 1) (r.callFrom suffixes callee) _ :=
      ih callee (by omega) (by omega)
    cases suffix with
    | arguments =>
      exact (((steady_arguments hr).less (by omega)).within _).bind fun arguments =>
        (steady_expect _).bind fun paren => hmore (.call callee paren arguments)
    | property =>
      exact (steady_expectName _).bind fun property => hmore (.get callee property)

theorem steady_call : Steady (r.bound + 1) r.call r'.call := by
  unfold call
  rw [hr.bound]
  exact (steady_primary hr).bind fun callee =>
    steady_callFrom hr r.bound callee (Nat.le_refl _) (Nat.le_refl _)

theorem steady_unary : Steady (r.bound + 1) r.unary r'.unary := by
  refine (steady_take? _).found (shortens_take? _) (fun ⟨op, mark⟩ => ?_) ?_
  · exact (hr.expression _).bind fun right => steady_pure (Expr.unary op mark right)
  refine (steady_take? _).found (shortens_take? _) (fun ⟨op, mark⟩ => ?_) (steady_call hr)
  exact (steady_report _ _).bind fun _ => (hr.expression _).bind fun right =>
    steady_pure (Expr.unpaired op mark right)

/-- A level is a chain of operands of the next tighter one. -/
private theorem steady_level {op : Type} {operator? : TokenKind → Option op}
    {join : op → Mark → Expr → Expr → Expr} {operand operand' : Reader Expr}
    (h : Steady (r.bound + 1) operand operand') :
    Steady (r.bound + 1) (chain r.bound operand operator? join)
      (chain r'.bound operand' operator? join) :=
  hr.bound ▸ steady_chain r.bound h (Nat.le_refl _)

theorem steady_factor : Steady (r.bound + 1) r.factor r'.factor :=
  steady_level hr (steady_unary hr)

theorem steady_term : Steady (r.bound + 1) r.term r'.term :=
  steady_level hr (steady_factor hr)

theorem steady_comparison : Steady (r.bound + 1) r.comparison r'.comparison :=
  steady_level hr (steady_term hr)

theorem steady_equality : Steady (r.bound + 1) r.equality r'.equality :=
  steady_level hr (steady_comparison hr)

theorem steady_comma : Steady (r.bound + 1) r.comma r'.comma := by
  refine steady_get.bind fun s => ?_
  split
  · exact steady_level hr (steady_equality hr)
  · exact steady_equality hr

theorem steady_conditional : Steady (r.bound + 1) r.conditional r'.conditional := by
  refine (steady_comma hr).bind fun condition => ?_
  refine (steady_accept _).found (shortens_accept _) (fun _ => ?_) (steady_pure condition)
  exact (hr.expression _).bind fun yes => (steady_expect _).bind fun _ =>
    (hr.expression _).bind fun no => steady_pure (Expr.conditional condition yes no)

theorem steady_and : Steady (r.bound + 1) r.and r'.and :=
  steady_level hr (steady_conditional hr)

theorem steady_or : Steady (r.bound + 1) r.or r'.or :=
  steady_level hr (steady_and hr)

/-- Assignments are read the same one token further out. -/
theorem steady_assignment : Steady (r.bound + 1) r.assignment r'.assignment := by
  refine (steady_or hr).bind fun target => ?_
  refine (steady_accept _).found (shortens_accept _) (fun equals => ?_) (steady_pure target)
  refine (hr.expression _).bind fun value => ?_
  cases target with
  | name ref => exact steady_freshId.bind fun id => steady_pure (Expr.assign ⟨id, ref.mark⟩ value)
  | get object property => exact steady_pure (Expr.set object property value)
  | _ => exact (steady_report _ _).bind fun _ => steady_pure (_ : Expr)

/-- Every level is read the same one token further out. -/
theorem steady_expressionAt (level : Level) :
    Steady (r.bound + 1) (r.expressionAt level) (r'.expressionAt level) := by
  cases level with
  | assignment => exact steady_assignment hr
  | or => exact steady_or hr
  | and => exact steady_and hr
  | conditional => exact steady_conditional hr
  | comma => exact steady_comma hr
  | equality => exact steady_equality hr
  | comparison => exact steady_comparison hr
  | term => exact steady_term hr
  | factor => exact steady_factor hr
  | unary => exact steady_unary hr

theorem proceeds_expressionStatement :
    Proceeds (r.bound + 1) r.expressionStatement r'.expressionStatement :=
  .later (steady_assignment hr) fun value => (proceeds_expect _).bind fun _ =>
    steady_pure (Stmt.expression value)

theorem proceeds_readVar : Proceeds (r.bound + 1) r.readVar r'.readVar := by
  have hrest (name : Mark) (initial : Option Expr) : Proceeds (r.bound + 1)
      (do let _ ← expect .variableEnd; return Stmt.var name initial)
      (do let _ ← expect .variableEnd; return Stmt.var name initial) :=
    (proceeds_expect _).bind fun _ => steady_pure (Stmt.var name initial)
  refine .later (steady_expectName _) fun name => .later (steady_accept _) fun equals => ?_
  cases equals with
  | none => exact hrest name .none
  | some _ => exact .later (steady_assignment hr).some (hrest name)

theorem steady_expressionUnless (kind : TokenKind) :
    Steady (r.bound + 1) (r.expressionUnless kind) (r'.expressionUnless kind) := by
  refine (steady_next _).bind fun absent => ?_
  split
  · exact steady_pure Option.none
  · exact (steady_assignment hr).some

theorem steady_readFor (line : Nat) : Steady r.bound (r.readFor line) (r'.readFor line) := by
  have hassignment := (steady_assignment hr).less (Nat.le_succ _)
  have hexpression (kind : TokenKind) := (steady_expressionUnless hr kind).less (Nat.le_succ _)
  have hrest (initial : Option Stmt) : Steady r.bound
      (do
        let condition ← r.expressionUnless .semicolon
        let _ ← expect .forCondition
        let increment ← r.expressionUnless .rightParen
        let _ ← expect .forClausesEnd
        let body ← r.statement
        return forLoop line initial condition increment body)
      (do
        let condition ← r'.expressionUnless .semicolon
        let _ ← expect .forCondition
        let increment ← r'.expressionUnless .rightParen
        let _ ← expect .forClausesEnd
        let body ← r'.statement
        return forLoop line initial condition increment body) := by
    refine (hexpression _).bind fun condition => (steady_expect _).bind fun _ => ?_
    refine (hexpression _).bind fun increment => (steady_expect _).bind fun _ => ?_
    exact hr.statement.bind fun body =>
      steady_pure (forLoop line initial condition increment body)
  refine (steady_expect _).bind fun _ => (steady_accept _).bind fun empty => ?_
  cases empty with
  | some _ => exact hrest .none
  | none =>
    refine (steady_accept _).bind fun declared => ?_
    cases declared with
    | some _ => exact ((proceeds_readVar hr).steady.less (Nat.le_succ _)).some.bind hrest
    | none => exact ((proceeds_expressionStatement hr).steady.less (Nat.le_succ _)).some.bind hrest

theorem steady_readWhile : Steady r.bound r.readWhile r'.readWhile :=
  (steady_expect _).bind fun _ => ((steady_assignment hr).less (Nat.le_succ _)).bind fun condition =>
    (steady_expect _).bind fun _ => hr.statement.bind fun body => steady_pure (Stmt.while condition body)

theorem steady_readIf : Steady r.bound r.readIf r'.readIf := by
  refine (steady_expect _).bind fun _ =>
    ((steady_assignment hr).less (Nat.le_succ _)).bind fun condition => ?_
  refine (steady_expect _).bind fun _ => hr.statement.bind fun yes => ?_
  refine (steady_accept _).bind fun alternative => ?_
  cases alternative with
  | none => exact steady_pure (Stmt.if condition yes .none)
  | some _ => exact hr.statement.some.bind fun no => steady_pure (Stmt.if condition yes no)

theorem steady_readPrint (keyword : Mark) :
    Steady (r.bound + 1) (r.readPrint keyword) (r'.readPrint keyword) :=
  (steady_assignment hr).bind fun value => (steady_expect _).bind fun _ =>
    steady_pure (Stmt.print keyword value)

theorem steady_readReturn (keyword : Mark) :
    Steady (r.bound + 1) (r.readReturn keyword) (r'.readReturn keyword) :=
  (steady_expressionUnless hr _).bind fun value => (steady_expect _).bind fun _ =>
    steady_pure (Stmt.return keyword value)

omit hr in
theorem steady_readBreak (keyword : Mark) : Steady bound (readBreak keyword) (readBreak keyword) := by
  have hrest : Steady bound (do let _ ← expect .breakEnd; return Stmt.break keyword)
      (do let _ ← expect .breakEnd; return Stmt.break keyword) :=
    (steady_expect _).bind fun _ => steady_pure (Stmt.break keyword)
  refine steady_get.bind fun s => ?_
  split
  · exact (steady_report _ _).bind fun _ => hrest
  · exact hrest

/-- A statement takes a token or fails, and is read the same one token further out. -/
theorem proceeds_statementRule : Proceeds (r.bound + 1) r.statementRule r'.statementRule := by
  refine .found (steady_take? _) (shortens_take? _) (fun ⟨start, mark⟩ => ?_)
    (proceeds_expressionStatement hr)
  cases start with
  | «for» => exact (steady_readFor hr mark.line).within _
  | «if» => exact steady_readIf hr
  | «while» => exact (steady_readWhile hr).within _
  | «return» => exact (steady_readReturn hr mark).less (Nat.le_succ _)
  | «break» => exact steady_readBreak mark
  | block => exact (steady_block hr).bind fun body => steady_pure (Stmt.block body)
  | print => exact (steady_readPrint hr mark).less (Nat.le_succ _)

theorem proceeds_definition (role : CodeRole) (name : NameRole) :
    Proceeds (r.bound + 1) (r.definition role name) (r'.definition role name) :=
  (proceeds_expectName _).bind fun name => ((steady_code hr _).less (Nat.le_succ _)).bind fun code =>
    steady_pure (Definition.mk name code)

/-- Methods are read the same from inputs that are short enough for them. -/
theorem steady_methods (hbound : bound ≤ r.bound + 1) (count : Nat) (before : List Definition)
    (hcount : bound ≤ count + 1) :
    Steady bound (r.methods count before) (r'.methods (count + 1) before) := by
  induction count generalizing before bound with
  | zero =>
    refine fun s => ⟨rfl, .refl s, fun hshort => ?_⟩
    exact unlessClosed_nil (List.eq_nil_of_length_eq_zero (by omega))
  | succ count ih =>
    have hmore (method : Definition) : Steady (bound - 1) (r.methods count (method :: before)) _ :=
      ih (by omega) (method :: before) (by omega)
    exact steady_unlessClosed fun s _ =>
      (((proceeds_definition hr .method .method).less hbound).bind hmore).steady s

/-- A class takes a token or fails, and is read the same one token further out. -/
theorem proceeds_readClass : Proceeds (r.bound + 1) r.readClass r'.readClass := by
  have hrest (name : Mark) (superclass : Option Ref) : Steady r.bound
      (do
        let _ ← expect .classBody
        let methods ← r.methods r.bound []
        let _ ← expect .classEnd
        return Stmt.class name superclass methods)
      (do
        let _ ← expect .classBody
        let methods ← r'.methods r'.bound []
        let _ ← expect .classEnd
        return Stmt.class name superclass methods) := by
    rw [hr.bound]
    exact (steady_expect _).bind fun _ =>
      (steady_methods hr (Nat.le_succ _) r.bound [] (Nat.le_succ _)).bind fun methods =>
        (steady_expect _).bind fun _ => steady_pure (Stmt.class name superclass methods)
  refine (proceeds_expectName _).bind fun name => (steady_accept _).bind fun inherits => ?_
  cases inherits with
  | none => exact hrest name .none
  | some _ =>
    exact (steady_expectName _).bind fun mark => steady_freshId.bind fun id => hrest name (some ⟨id, mark⟩)

omit hr in
theorem steady_definesFunction : Steady bound definesFunction definesFunction :=
  fun _ => steadyAt_of_stateAfter rfl

theorem proceeds_declare : Proceeds (r.bound + 1) r.declare r'.declare := by
  refine .later (steady_accept _) fun isClass => ?_
  cases isClass with
  | some _ => exact proceeds_readClass hr
  | none =>
    refine .later steady_definesFunction fun isFunction => ?_
    split
    · exact .later (steady_accept _) fun _ => (proceeds_definition hr _ _).bind fun definition =>
        steady_pure (Stmt.function definition)
    · refine .later (steady_accept _) fun isVar => ?_
      cases isVar with
      | some _ => exact proceeds_readVar hr
      | none => exact proceeds_statementRule hr

/-- A declaration is read the same, and recovers the same where it fails. -/
theorem steady_declarationRule : Steady (r.bound + 1) r.declarationRule r'.declarationRule := by
  intro s
  have hdeclare := (proceeds_declare hr).steady s
  have hsame (hshort : s.rest.length < r.bound + 1) : r'.declarationRule s = r.declarationRule s := by
    unfold declarationRule
    rw [hdeclare.same hshort]
  cases hread : r.declare s with
  | ok stmt after =>
    have hafter : stateAfter r.declarationRule s = stateAfter r.declare s := by
      unfold stateAfter declarationRule
      rw [hread]
    exact ⟨hafter ▸ hdeclare.context, hafter ▸ hdeclare.passes, hsame⟩
  | error e after =>
    have hafter : stateAfter r.declarationRule s =
        synchronize { after with errors := e :: after.errors } := by
      unfold stateAfter declarationRule
      rw [hread]
    obtain ⟨hcontext, -, -⟩ := synchronize_same { after with errors := e :: after.errors }
    have hfailed := stateAfter_of_error hread
    refine ⟨?_, ?_, hsame⟩
    · rw [hafter, hcontext, ← hdeclare.context, hfailed]
    · rw [hafter]
      have hnoted : State.Passes after { after with errors := e :: after.errors } := .of_same rfl rfl
      exact ((hfailed ▸ hdeclare.passes).trans hnoted).trans (passes_synchronize _)

/-- A declaration that fails is skipped by a token at least, so there is always something gone. -/
theorem shortens_declarationRule {s s' : State} {entry : Option Stmt} (hmore : s.rest ≠ [])
    (hread : r.declarationRule s = .ok entry s') : s'.rest.length < s.rest.length := by
  unfold declarationRule at hread
  cases hdeclare : r.declare s with
  | ok stmt after =>
    rw [hdeclare] at hread
    cases hread
    exact (proceeds_declare hr).shortens.ok hdeclare trivial
  | error e after =>
    rw [hdeclare] at hread
    cases hread
    have hle := (stateAfter_of_error hdeclare ▸ ((proceeds_declare hr).steady s).rest).length_le
    have hskipped := (synchronize_suffix { after with errors := e :: after.errors }).length_le
    have hpos := List.length_pos_iff.mpr hmore
    rw [List.length_tail] at hskipped
    have hsame : State.rest { after with errors := e :: after.errors } = after.rest := rfl
    rw [hsame] at hskipped
    omega

/-- Rules with the same rules nested in them read the same from one token more. -/
theorem Deepen.nest : r.nest.Deepen r'.nest where
  bound := congrArg (· + 1) hr.bound
  expression := steady_expressionAt hr
  statement := (proceeds_statementRule hr).steady
  declaration := steady_declarationRule hr
  shortens := shortens_declarationRule hr

end

/-- Rules that may nest once more read the same from tokens that are few enough. -/
theorem deepen_below (count : Nat) : (below count).Deepen (below (count + 1)) := by
  induction count with
  | zero =>
    have hfail {α : Type} : Steady 0 (fail .expectedExpression : Reader α) _ := steady_fail _
    exact ⟨rfl, fun _ => hfail.of_none rfl, hfail.of_none rfl, hfail.of_none rfl,
      fun _ hread => nomatch hread⟩
  | succ count ih =>
    have hnest := ih.nest
    have hle : count + 1 ≤ (below count).nest.bound :=
      Nat.le_of_eq (congrArg (· + 1) (bound_below count).symm)
    exact ⟨rfl, fun level => (hnest.expression level).less hle, hnest.statement.less hle,
      hnest.declaration.less hle, hnest.shortens⟩

end Rules

end Lox.Grammar
