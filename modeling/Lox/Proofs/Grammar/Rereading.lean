import Lox.Grammar.Source
import Lox.Proofs.Grammar.Equivariance

namespace Lox.Grammar

variable {f : Relabeling} {before : List SyntaxError}

/-- Every rule reads the same behind other errors and with other labels. -/
structure Rules.Commute (f : Relabeling) (before : List SyntaxError) (r : Rules) : Prop where
  expression : ∀ level, Commutes f before (Expr.relabel f) (r.expression level) (r.expression level)
  statement : Commutes f before (Stmt.relabel f) r.statement r.statement
  declaration : Commutes f before (Option.map (Stmt.relabel f)) r.declaration r.declaration

namespace Rules

variable {r : Rules} (hid : ∀ n, f.id (n + 1) = f.id n + 1) (hr : r.Commute f before)

section
include hr

/-- Declarations are read on both sides, behind those already read. -/
theorem commutes_declarations (count : Nat) (body : List Stmt) :
    Commutes f before (List.map (Stmt.relabel f)) (r.declarations count body)
      (r.declarations count (body.map (Stmt.relabel f))) := by
  induction count generalizing body with
  | zero => exact commutes_pure_reverse _ body
  | succ count ih =>
    refine commutes_atEnd.bind fun ended => (commutes_next _).bind fun closed => ?_
    split
    · exact commutes_pure_reverse _ body
    · refine hr.declaration.bind fun entry => ?_
      cases entry with
      | none => exact ih body
      | some s => exact ih (s :: body)

theorem commutes_block : Commutes f before (Stmt.relabelAll f) r.block r.block := by
  refine (commutes_declarations hr r.bound []).bind fun body => (commutes_expect _).bind fun _ => ?_
  rw [← Stmt.relabelAll_eq_map]
  exact commutes_pure body

theorem commutes_code (role : CodeRole) :
    Commutes f before (Lambda.relabel f) (r.code role) (r.code role) := by
  have hrest (params : List Mark) : Commutes f before (Lambda.relabel f)
      (do
        let _ ← expect .parametersEnd
        let _ ← expect (.body role)
        let body ← within .body r.block
        return (⟨params, body⟩ : Lambda))
      (do
        let _ ← expect .parametersEnd
        let _ ← expect (.body role)
        let body ← within .body r.block
        return (⟨params.map (Mark.relabel f), body⟩ : Lambda)) :=
    (commutes_expect _).bind fun _ => (commutes_expect _).bind fun _ =>
      ((commutes_block hr).within _).bind fun body => commutes_pure (Lambda.mk params body)
  refine (commutes_expect _).bind fun _ => (commutes_next _).bind fun empty => ?_
  split
  · exact hrest []
  · exact (commutes_separated _ (commutes_expectName _) r.bound []).bind hrest

include hid in
/-- A primary expression is read on both sides, its name with the next number on each. -/
theorem commutes_primary : Commutes f before (Expr.relabel f) r.primary r.primary := by
  refine (commutes_take? _).bind fun found => ?_
  cases found with
  | none => exact commutes_fail _ _
  | some found =>
    obtain ⟨start, mark⟩ := found
    cases start with
    | literal value => exact commutes_pure (Expr.literal value mark.line)
    | name => exact (commutes_freshId hid).bind fun id => commutes_pure (Expr.name ⟨id, mark⟩)
    | this => exact (commutes_freshId hid).bind fun id => commutes_pure (Expr.this ⟨id, mark⟩)
    | super =>
      exact (commutes_expect _).bind fun _ => (commutes_expectName _).bind fun method =>
        (commutes_freshId hid).bind fun id => commutes_pure (Expr.super ⟨id, mark⟩ method)
    | lambda => exact (commutes_code hr _).bind fun code => commutes_pure (Expr.lambda mark code)
    | grouping =>
      exact ((hr.expression _).within _).bind fun inner => (commutes_expect _).bind fun _ =>
        commutes_pure (Expr.grouping inner)

theorem commutes_arguments : Commutes f before (Expr.relabelAll f) r.arguments r.arguments := by
  rw [show Expr.relabelAll f = List.map (Expr.relabel f) from funext (Expr.relabelAll_eq_map f)]
  refine (commutes_next _).bind fun empty => ?_
  split
  · exact commutes_pure []
  · exact commutes_separated _ (hr.expression _) r.bound []

/-- Calls and properties are read on both sides behind callees that go with each other. -/
theorem commutes_callFrom (suffixes : Nat) (callee : Expr) :
    Commutes f before (Expr.relabel f) (r.callFrom suffixes callee)
      (r.callFrom suffixes (callee.relabel f)) := by
  induction suffixes generalizing callee with
  | zero => exact commutes_pure callee
  | succ suffixes ih =>
    refine (commutes_take? _).bind fun found => ?_
    cases found with
    | none => exact commutes_pure callee
    | some found =>
      obtain ⟨suffix, mark⟩ := found
      cases suffix with
      | arguments =>
        exact ((commutes_arguments hr).within _).bind fun arguments => (commutes_expect _).bind
          fun paren => ih (.call callee paren arguments)
      | property => exact (commutes_expectName _).bind fun property => ih (.get callee property)

include hid

theorem commutes_call : Commutes f before (Expr.relabel f) r.call r.call :=
  (commutes_primary hid hr).bind (commutes_callFrom hr r.bound)

/-- A sign is read on both sides, and is out of place on both or on neither. -/
theorem commutes_unary : Commutes f before (Expr.relabel f) r.unary r.unary := by
  refine (commutes_take? _).bind fun found => ?_
  cases found with
  | some found =>
    obtain ⟨op, mark⟩ := found
    exact (hr.expression _).bind fun right => commutes_pure (Expr.unary op mark right)
  | none =>
    refine (commutes_take? _).bind fun found => ?_
    cases found with
    | some found =>
      obtain ⟨op, mark⟩ := found
      exact (commutes_report _ _).bind fun _ => (hr.expression _).bind fun right =>
        commutes_pure (Expr.unpaired op mark right)
    | none => exact commutes_call hid hr

theorem commutes_factor : Commutes f before (Expr.relabel f) r.factor r.factor :=
  commutes_chain r.bound (commutes_unary hid hr) fun _ _ _ _ => rfl

theorem commutes_term : Commutes f before (Expr.relabel f) r.term r.term :=
  commutes_chain r.bound (commutes_factor hid hr) fun _ _ _ _ => rfl

theorem commutes_comparison : Commutes f before (Expr.relabel f) r.comparison r.comparison :=
  commutes_chain r.bound (commutes_term hid hr) fun _ _ _ _ => rfl

theorem commutes_equality : Commutes f before (Expr.relabel f) r.equality r.equality :=
  commutes_chain r.bound (commutes_comparison hid hr) fun _ _ _ _ => rfl

theorem commutes_comma : Commutes f before (Expr.relabel f) r.comma r.comma := by
  refine commutes_get fun s s' hs => ?_
  rw [hs.context]
  split
  · exact commutes_chain r.bound (commutes_equality hid hr) fun _ _ _ _ => rfl
  · exact commutes_equality hid hr

theorem commutes_conditional : Commutes f before (Expr.relabel f) r.conditional r.conditional := by
  refine (commutes_comma hid hr).bind fun condition => (commutes_accept _).bind fun question => ?_
  cases question with
  | none => exact commutes_pure condition
  | some _ =>
    exact (hr.expression _).bind fun yes => (commutes_expect _).bind fun _ =>
      (hr.expression _).bind fun no => commutes_pure (Expr.conditional condition yes no)

theorem commutes_and : Commutes f before (Expr.relabel f) r.and r.and :=
  commutes_chain r.bound (commutes_conditional hid hr) fun _ _ _ _ => rfl

theorem commutes_or : Commutes f before (Expr.relabel f) r.or r.or :=
  commutes_chain r.bound (commutes_and hid hr) fun _ _ _ _ => rfl

/-- An assignment is read on both sides. The targets go with each other, and so does an error about
    them. -/
theorem commutes_assignment : Commutes f before (Expr.relabel f) r.assignment r.assignment := by
  refine (commutes_or hid hr).bind fun target => (commutes_accept _).bind fun equals => ?_
  cases equals with
  | none => exact commutes_pure target
  | some equals =>
    refine (hr.expression _).bind fun value => ?_
    cases target with
    | name ref =>
      exact (commutes_freshId hid).bind fun id => commutes_pure (Expr.assign ⟨id, ref.mark⟩ value)
    | get object property => exact commutes_pure (Expr.set object property value)
    | _ => exact (commutes_report _ _).bind fun _ => commutes_pure (_ : Expr)

theorem commutes_expressionAt (level : Level) :
    Commutes f before (Expr.relabel f) (r.expressionAt level) (r.expressionAt level) := by
  cases level with
  | assignment => exact commutes_assignment hid hr
  | or => exact commutes_or hid hr
  | and => exact commutes_and hid hr
  | conditional => exact commutes_conditional hid hr
  | comma => exact commutes_comma hid hr
  | equality => exact commutes_equality hid hr
  | comparison => exact commutes_comparison hid hr
  | term => exact commutes_term hid hr
  | factor => exact commutes_factor hid hr
  | unary => exact commutes_unary hid hr

theorem commutes_expressionStatement :
    Commutes f before (Stmt.relabel f) r.expressionStatement r.expressionStatement :=
  (commutes_assignment hid hr).bind fun value => (commutes_expect _).bind fun _ =>
    commutes_pure (Stmt.expression value)

theorem commutes_readVar : Commutes f before (Stmt.relabel f) r.readVar r.readVar := by
  have hrest (name : Mark) (initial : Option Expr) : Commutes f before (Stmt.relabel f)
      (do let _ ← expect .variableEnd; return Stmt.var name initial)
      (do
        let _ ← expect .variableEnd
        return Stmt.var (name.relabel f) (initial.map (Expr.relabel f))) := by
    rw [← Stmt.relabel_var]
    exact (commutes_expect _).bind fun _ => commutes_pure _
  refine (commutes_expectName _).bind fun name => (commutes_accept _).bind fun equals => ?_
  cases equals with
  | none => exact hrest name .none
  | some _ => exact (commutes_assignment hid hr).some.bind (hrest name)

theorem commutes_expressionUnless (kind : TokenKind) :
    Commutes f before (Option.map (Expr.relabel f)) (r.expressionUnless kind)
      (r.expressionUnless kind) := by
  refine (commutes_next _).bind fun absent => ?_
  split
  · exact commutes_pure Option.none
  · exact (commutes_assignment hid hr).some

/-- A loop over clauses is read on both sides and comes down to trees that go with each other. -/
theorem commutes_readFor (line : Nat) :
    Commutes f before (Stmt.relabel f) (r.readFor line) (r.readFor (f.line line)) := by
  have hrest (initial : Option Stmt) : Commutes f before (Stmt.relabel f)
      (do
        let condition ← r.expressionUnless .semicolon
        let _ ← expect .forCondition
        let increment ← r.expressionUnless .rightParen
        let _ ← expect .forClausesEnd
        let body ← r.statement
        return forLoop line initial condition increment body)
      (do
        let condition ← r.expressionUnless .semicolon
        let _ ← expect .forCondition
        let increment ← r.expressionUnless .rightParen
        let _ ← expect .forClausesEnd
        let body ← r.statement
        return forLoop (f.line line) (initial.map (Stmt.relabel f)) condition increment body) := by
    refine (commutes_expressionUnless hid hr _).bind fun condition => (commutes_expect _).bind fun _ => ?_
    refine (commutes_expressionUnless hid hr _).bind fun increment => (commutes_expect _).bind fun _ => ?_
    refine hr.statement.bind fun body => ?_
    rw [← forLoop_relabel]
    exact commutes_pure _
  refine (commutes_expect _).bind fun _ => (commutes_accept _).bind fun empty => ?_
  cases empty with
  | some _ => exact hrest .none
  | none =>
    refine (commutes_accept _).bind fun declared => ?_
    cases declared with
    | some _ => exact (commutes_readVar hid hr).some.bind hrest
    | none => exact (commutes_expressionStatement hid hr).some.bind hrest

theorem commutes_readWhile : Commutes f before (Stmt.relabel f) r.readWhile r.readWhile :=
  (commutes_expect _).bind fun _ => (commutes_assignment hid hr).bind fun condition =>
    (commutes_expect _).bind fun _ => hr.statement.bind fun body =>
      commutes_pure (Stmt.while condition body)

theorem commutes_readIf : Commutes f before (Stmt.relabel f) r.readIf r.readIf := by
  refine (commutes_expect _).bind fun _ => (commutes_assignment hid hr).bind fun condition => ?_
  refine (commutes_expect _).bind fun _ => hr.statement.bind fun yes => ?_
  refine (commutes_accept _).bind fun alternative => ?_
  cases alternative with
  | none => exact commutes_pure (Stmt.if condition yes .none)
  | some _ =>
    refine hr.statement.some.bind fun no => ?_
    cases no with
    | none => exact commutes_pure (Stmt.if condition yes .none)
    | some no => exact commutes_pure (Stmt.if condition yes (.some no))

theorem commutes_readPrint (keyword : Mark) :
    Commutes f before (Stmt.relabel f) (r.readPrint keyword) (r.readPrint (keyword.relabel f)) :=
  (commutes_assignment hid hr).bind fun value => (commutes_expect _).bind fun _ =>
    commutes_pure (Stmt.print keyword value)

theorem commutes_readReturn (keyword : Mark) :
    Commutes f before (Stmt.relabel f) (r.readReturn keyword) (r.readReturn (keyword.relabel f)) := by
  refine (commutes_expressionUnless hid hr _).bind fun value => (commutes_expect _).bind fun _ => ?_
  rw [← Stmt.relabel_return]
  exact commutes_pure _

omit hid hr in
theorem commutes_readBreak (keyword : Mark) :
    Commutes f before (Stmt.relabel f) (readBreak keyword) (readBreak (keyword.relabel f)) := by
  have hrest : Commutes f before (Stmt.relabel f)
      (do let _ ← expect .breakEnd; return Stmt.break keyword)
      (do let _ ← expect .breakEnd; return Stmt.break (keyword.relabel f)) :=
    (commutes_expect _).bind fun _ => commutes_pure (Stmt.break keyword)
  refine commutes_get fun s s' hs => ?_
  rw [hs.context]
  split
  · exact (commutes_report _ _).bind fun _ => hrest
  · exact hrest

/-- A statement is read on both sides. -/
theorem commutes_statementRule : Commutes f before (Stmt.relabel f) r.statementRule r.statementRule := by
  refine (commutes_take? _).bind fun found => ?_
  cases found with
  | none => exact commutes_expressionStatement hid hr
  | some found =>
    obtain ⟨start, mark⟩ := found
    cases start with
    | «for» => exact (commutes_readFor hid hr mark.line).within _
    | «if» => exact commutes_readIf hid hr
    | «while» => exact (commutes_readWhile hid hr).within _
    | «return» => exact commutes_readReturn hid hr mark
    | «break» => exact commutes_readBreak mark
    | block => exact (commutes_block hr).bind fun body => commutes_pure (Stmt.block body)
    | print => exact commutes_readPrint hid hr mark

omit hid in
theorem commutes_definition (role : CodeRole) (name : NameRole) :
    Commutes f before (Definition.relabel f) (r.definition role name) (r.definition role name) :=
  (commutes_expectName _).bind fun name => (commutes_code hr _).bind fun code =>
    commutes_pure (Definition.mk name code)

omit hid in
theorem commutes_methods (count : Nat) (methods : List Definition) :
    Commutes f before (Definition.relabelAll f) (r.methods count methods)
      (r.methods count (methods.map (Definition.relabel f))) := by
  rw [show Definition.relabelAll f = List.map (Definition.relabel f) from
    funext (Definition.relabelAll_eq_map f)]
  induction count generalizing methods with
  | zero => exact commutes_pure_reverse _ methods
  | succ count ih =>
    refine commutes_atEnd.bind fun ended => (commutes_next _).bind fun closed => ?_
    split
    · exact commutes_pure_reverse _ methods
    · exact (commutes_definition hr _ _).bind fun method => ih (method :: methods)

/-- A class is read on both sides. -/
theorem commutes_readClass : Commutes f before (Stmt.relabel f) r.readClass r.readClass := by
  have hrest (name : Mark) (superclass : Option Ref) : Commutes f before (Stmt.relabel f)
      (do
        let _ ← expect .classBody
        let methods ← r.methods r.bound []
        let _ ← expect .classEnd
        return Stmt.class name superclass methods)
      (do
        let _ ← expect .classBody
        let methods ← r.methods r.bound []
        let _ ← expect .classEnd
        return Stmt.class (name.relabel f) (superclass.map (Ref.relabel f)) methods) :=
    (commutes_expect _).bind fun _ => (commutes_methods hr r.bound []).bind fun methods =>
      (commutes_expect _).bind fun _ => commutes_pure (Stmt.class name superclass methods)
  refine (commutes_expectName _).bind fun name => (commutes_accept _).bind fun inherits => ?_
  cases inherits with
  | none => exact hrest name .none
  | some _ =>
    exact (commutes_expectName _).bind fun mark => (commutes_freshId hid).bind fun id =>
      hrest name (some ⟨id, mark⟩)

omit hid hr in
theorem commutes_definesFunction :
    Commutes f before (fun a => a) definesFunction definesFunction := by
  intro s s' hs
  have hany (kind : TokenKind) (token? : Option Token) :
      (token?.map (Token.relabel f)).any (·.kind = kind) = token?.any (·.kind = kind) := by
    cases token? <;> rfl
  have hsame : (s'.next?.any (·.kind = .fun) && s'.second?.any (·.kind = .identifier)) =
      (s.next?.any (·.kind = .fun) && s.second?.any (·.kind = .identifier)) := by
    rw [hs.next?, hany]
    cases hnext : s.next? with
    | none => rfl
    | some token => rw [hs.second? (by rw [hnext]; rfl), hany]
  unfold definesFunction
  rw [hsame]
  exact .ok hs

theorem commutes_declare : Commutes f before (Stmt.relabel f) r.declare r.declare := by
  refine (commutes_accept _).bind fun isClass => ?_
  cases isClass with
  | some _ => exact commutes_readClass hid hr
  | none =>
    refine commutes_definesFunction.bind fun isFunction => ?_
    split
    · exact (commutes_accept _).bind fun _ => (commutes_definition hr _ _).bind fun definition =>
        commutes_pure (Stmt.function definition)
    · refine (commutes_accept _).bind fun isVar => ?_
      cases isVar with
      | some _ => exact commutes_readVar hid hr
      | none => exact commutes_statementRule hid hr

omit hid hr in
/-- Recovery goes by the kinds of tokens alone, and by those before the next end. -/
theorem skipped_relabel (last : TokenKind) {tokens tokens' : List Token}
    (h : (tokens'.takeWhile fun token => !isEnd token) =
      (tokens.takeWhile fun token => !isEnd token).map (Token.relabel f)) :
    skipped last tokens' = skipped last tokens := by
  induction tokens generalizing last tokens' with
  | nil =>
    cases tokens' with
    | nil => rfl
    | cons token rest =>
      by_cases hend : isEnd token
      · simp [skipped, hend]
      · simp [hend] at h
  | cons token rest ih =>
    by_cases hend : isEnd token
    · rw [List.takeWhile_cons, if_neg (by simp [hend]), List.map_nil] at h
      cases tokens' with
      | nil => simp [skipped, hend]
      | cons first more =>
        by_cases hfirst : isEnd first
        · simp [skipped, hend, hfirst]
        · simp [hfirst] at h
    · rw [List.takeWhile_cons, if_pos (by simp [hend]), List.map_cons] at h
      cases tokens' with
      | nil => cases h
      | cons first more =>
        by_cases hfirst : isEnd first
        · simp [hfirst] at h
        · rw [List.takeWhile_cons, if_pos (by simp [hfirst])] at h
          obtain ⟨rfl, hmore⟩ := List.cons.inj h
          rw [skipped, skipped, ih _ hmore]
          rfl

omit hid hr in
/-- Recovery skips the same tokens on both sides, since it goes by kinds and places. -/
theorem behind_synchronize {s s' : State} (hs : s.Behind f before s') :
    (synchronize s).Behind f before (synchronize s') := by
  cases hrest : s.rest with
  | nil =>
    have hnext : s.next? = .none := State.next?_of_nil hrest
    unfold synchronize
    rw [hs.next?, hnext]
    exact hs
  | cons token more =>
    have hnext : s.next? = some token := State.next?_of_rest hrest
    have hrest' : s'.rest = token.relabel f :: more.map (Token.relabel f) := by
      rw [hs.rest, hrest, List.map_cons]
    have hleft : (s.tokens.drop (s.current + 1)).takeWhile (fun token => !isEnd token) = more :=
      State.rest_succ hrest
    have hleft' : (s'.tokens.drop (s'.current + 1)).takeWhile (fun token => !isEnd token) =
        more.map (Token.relabel f) := State.rest_succ hrest'
    have hcount : skipped (token.relabel f).kind (s'.tokens.drop (s'.current + 1)) =
        skipped token.kind (s.tokens.drop (s.current + 1)) :=
      skipped_relabel _ (by rw [hleft, hleft'])
    obtain ⟨taken, left, htaken, hlength⟩ := exists_skipped token.kind (s.tokens.drop (s.current + 1))
    have hall := congrArg List.length (hleft.symm.trans htaken)
    unfold synchronize
    rw [hs.next?, hnext]
    dsimp only [Option.map_some]
    rw [hcount, Nat.add_assoc, Nat.add_assoc]
    refine hs.forward ?_
    rw [List.length_append] at hall
    rw [hrest, List.length_cons]
    omega

/-- A declaration is read on both sides, or is skipped on both. -/
theorem commutes_declarationRule :
    Commutes f before (Option.map (Stmt.relabel f)) r.declarationRule r.declarationRule := by
  intro s s' hs
  have hread := commutes_declare hid hr s s' hs
  unfold declarationRule
  generalize r.declare s = result at hread ⊢
  generalize r.declare s' = result' at hread ⊢
  cases hread with
  | ok hafter => exact .ok hafter
  | @error e after after' hafter =>
    have hnoted : State.Behind f before { after with errors := e :: after.errors }
        { after' with errors := e.relabel f :: after'.errors } :=
      ⟨hafter.rest, hafter.endLine, hafter.context, hafter.nextId, congrArg (_ :: ·) hafter.errors⟩
    exact .ok (behind_synchronize hnoted)

theorem Commute.nest : r.nest.Commute f before :=
  ⟨commutes_expressionAt hid hr, commutes_statementRule hid hr, commutes_declarationRule hid hr⟩

end

include hid in
/-- The rules of every depth commute. The induction is on the depth. -/
theorem commute_below (count : Nat) : (below count).Commute f before := by
  induction count with
  | zero => exact ⟨fun _ => commutes_fail _ _, commutes_fail _ _, commutes_fail _ _⟩
  | succ count ih =>
    have hnest := ih.nest hid
    exact ⟨hnest.expression, hnest.statement, hnest.declaration⟩

end Rules

/-- The entries of a program are read on both sides. -/
theorem commutes_entriesFrom {declaration : Reader (Option Stmt)}
    (h : Commutes f before (Option.map (Stmt.relabel f)) declaration declaration) (count : Nat)
    (entries : List (Option Stmt)) :
    Commutes f before (List.map (Option.map (Stmt.relabel f))) (entriesFrom declaration count entries)
      (entriesFrom declaration count (entries.map (Option.map (Stmt.relabel f)))) := by
  induction count generalizing entries with
  | zero => exact commutes_pure_reverse _ entries
  | succ count ih =>
    refine commutes_atEnd.bind fun ended => ?_
    split
    · exact commutes_pure_reverse _ entries
    · exact h.bind fun entry => ih (entry :: entries)

/-- The same declarations and errors with other labels. -/
def Parsed.relabel (f : Relabeling) (p : Parsed) : Parsed :=
  ⟨p.entries.map (Option.map (Stmt.relabel f)), p.errors.map (SyntaxError.relabel f), f.id p.nextId⟩

/-- An end is supplied on both sides or on neither. -/
theorem ended_relabel (hline : f.line 1 = 1) (tokens : List Token) :
    ended (tokens.map (Token.relabel f)) = (ended tokens).map (Token.relabel f) := by
  unfold ended
  rw [List.getLast?_map]
  cases tokens.getLast? with
  | none => exact congrArg (fun line => [(⟨⟨"", line⟩, .eof⟩ : Token)]) hline.symm
  | some last =>
    have hend : isEnd (last.relabel f) = isEnd last := rfl
    simp only [Option.map_some, hend]
    split
    · rfl
    · rw [List.map_append]
      rfl

/-- A relabelled program starts where the program starts. -/
theorem behind_start (hline : f.line 1 = 1) (tokens : List Token) (firstId : Nat) :
    (State.start tokens firstId).Behind f [] (State.start (tokens.map (Token.relabel f)) (f.id firstId)) := by
  have hend : (fun token => !isEnd token) ∘ Token.relabel f = fun token => !isEnd token := rfl
  refine ⟨?_, ?_, rfl, rfl, rfl⟩
  · rw [rest_start, rest_start, List.takeWhile_map, hend]
  · obtain ⟨last, after, hbeyond⟩ := exists_beyond_start tokens firstId
    have hbeyond' : (State.start (tokens.map (Token.relabel f)) (f.id firstId)).beyond =
        (last :: after).map (Token.relabel f) := by
      rw [← hbeyond, beyond_start, beyond_start, ended_relabel hline, List.dropWhile_map, hend]
    rw [State.endLine, State.endLine, hbeyond, hbeyond']
    rfl

/-- Tokens on other lines, numbered from elsewhere, are read as the same declarations with the same
    errors, whether they are a program or not. -/
theorem parse_relabel (hid : ∀ n, f.id (n + 1) = f.id n + 1) (hline : f.line 1 = 1)
    (tokens : List Token) (firstId : Nat) :
    parse (tokens.map (Token.relabel f)) (f.id firstId) = (parse tokens firstId).relabel f := by
  have hrules : (Rules.below (tokens.length + 1)).Commute f [] := Rules.commute_below hid _
  have hread :=
    commutes_entriesFrom hrules.declaration tokens.length [] _ _ (behind_start hline tokens firstId)
  rw [List.map_nil] at hread
  unfold parse
  dsimp only
  rw [List.length_map]
  generalize entriesFrom (Rules.below (tokens.length + 1)).declaration tokens.length []
    (State.start tokens firstId) = result at hread ⊢
  generalize entriesFrom (Rules.below (tokens.length + 1)).declaration tokens.length []
    (State.start (tokens.map (Token.relabel f)) (f.id firstId)) = result' at hread ⊢
  cases hread with
  | ok hafter => simp [Parsed.relabel, hafter.errors, hafter.nextId]
  | error hafter => simp [Parsed.relabel, hafter.errors, hafter.nextId]

end Lox.Grammar
