import Lox.Grammar.Program
import Lox.Proofs.Grammar.Soundness.Expression

namespace Lox.Grammar

/-- A finished statement says the same wherever it stands. -/
theorem Derives.saysStatement {c : Context} {s : Stmt} {ts rest : List Token} {lo hi : Nat}
    (h : Derives c (.statement false s) ts lo hi) : SaysStatement c s ts lo hi rest :=
  ⟨false, h, nofun⟩

namespace Rules

variable {r : Rules}

section Function

variable (hr : r.Faithful)
include hr

theorem takes_expressionStatement : Takes (r.bound + 1) r.expressionStatement fun c s ts lo hi _ =>
    ∃ value semicolon ts', s = .expression value ∧ semicolon.kind = .semicolon ∧
      ts = ts' ++ [semicolon] ∧ Derives c (.expression value) ts' lo hi := by
  refine (takes_assignment hr).bind fun value => Takes.expect fun semicolon hsemicolon => ?_
  exact Takes.pure fun c n rest ts lo hvalue => ⟨value, semicolon, ts, rfl, hsemicolon, rfl, hvalue.1⟩

theorem takes_readVar : Takes r.bound r.readVar fun c s ts lo hi _ =>
    ∃ name initial, s = .var name initial ∧ Derives c (.variable name initial) ts lo hi := by
  have hrest : ∀ name initial, Takes r.bound (do
      let _ ← expect .variableEnd
      return Stmt.var name initial) fun _ s ts lo hi _ => s = .var name initial ∧ lo = hi ∧
        ∃ semicolon : Token, semicolon.kind = .semicolon ∧ ts = [semicolon] := fun name initial =>
    Takes.expect fun semicolon hsemicolon =>
      Takes.pure fun c n rest => ⟨rfl, rfl, semicolon, hsemicolon, rfl⟩
  refine Takes.expectName fun name hname => Takes.accept ?_ fun equal hequal => ?_
  · refine (hrest name.toMark .none).mono ?_
    rintro c s ts lo hi rest ⟨rfl, rfl, semicolon, hsemicolon, rfl⟩ _
    exact ⟨_, _, rfl, .uninitialized hname hsemicolon⟩
  · refine ((takes_assignment hr).less (Nat.le_succ _)).some.bind fun initial => ?_
    refine (hrest name.toMark initial).mono ?_
    rintro c s _ mid hi rest ⟨rfl, rfl, semicolon, hsemicolon, rfl⟩ ts lo ⟨value, rfl, hvalue, _⟩
    exact ⟨_, _, rfl, .initialized hname hequal hvalue hsemicolon⟩

/-- An optional expression is derived by no token or by those of the expression. -/
theorem takes_expressionUnless (kind : TokenKind) : Takes r.bound (r.expressionUnless kind)
    fun c value ts lo hi _ => Derives c (.value value) ts lo hi := by
  refine Takes.next fun absent => ?_
  cases absent with
  | true => exact Takes.pure fun c n rest => .noValue
  | false =>
    refine ((takes_assignment hr).less (Nat.le_succ _)).some.mono ?_
    rintro c _ ts lo hi rest ⟨value, rfl, hvalue, _⟩
    exact .value hvalue

theorem takes_readPrint (keyword : Token) (hkeyword : keyword.kind = .print) :
    Takes r.bound (r.readPrint keyword.toMark) fun c s ts lo hi _ =>
      Derives c (.statement false s) (keyword :: ts) lo hi ∧ s.isDeclaration = false := by
  refine ((takes_assignment hr).less (Nat.le_succ _)).bind fun value => ?_
  refine Takes.expect fun semicolon hsemicolon => Takes.pure fun c n rest ts lo hvalue => ?_
  exact ⟨.print hkeyword hvalue.1 hsemicolon, rfl⟩

theorem takes_readReturn (keyword : Token) (hkeyword : keyword.kind = .return) :
    Takes r.bound (r.readReturn keyword.toMark) fun c s ts lo hi _ =>
      Derives c (.statement false s) (keyword :: ts) lo hi ∧ s.isDeclaration = false := by
  refine (takes_expressionUnless hr .semicolon).bind fun value => ?_
  refine Takes.expect fun semicolon hsemicolon => Takes.pure fun c n rest ts lo hvalue => ?_
  exact ⟨.return hkeyword hvalue hsemicolon, rfl⟩

omit hr in
theorem takes_readBreak (keyword : Token) (hkeyword : keyword.kind = .break) :
    Takes r.bound (readBreak keyword.toMark) fun c s ts lo hi _ =>
      Derives c (.statement false s) (keyword :: ts) lo hi ∧ s.isDeclaration = false := by
  have hend : Takes r.bound (do
      let _ ← expect .breakEnd
      return (Stmt.break keyword.toMark)) fun c s ts lo hi _ => c.loops ≠ 0 →
        Derives c (.statement false s) (keyword :: ts) lo hi ∧ s.isDeclaration = false :=
    Takes.expect fun semicolon hsemicolon => Takes.pure fun c n rest hloops =>
      ⟨.break hkeyword hloops hsemicolon, rfl⟩
  refine Takes.get fun s => ?_
  split
  · exact Takes.report hend
  · rename_i hloops
    exact hend.mono fun h hcontext => h (hcontext ▸ hloops)

/-- A condition is derived, and takes every `else` that it can. -/
theorem takes_readIf (keyword : Token) (hkeyword : keyword.kind = .if) :
    Takes r.bound r.readIf fun c s ts lo hi rest =>
      SaysStatement c s (keyword :: ts) lo hi rest ∧ s.isDeclaration = false := by
  refine Takes.expect fun left hleft => ?_
  refine ((takes_assignment hr).less (Nat.le_succ _)).bind fun condition => ?_
  refine Takes.expect fun right hright => hr.statement.bind fun yes => ?_
  refine Takes.accept ?_ fun middle hmiddle => ?_
  · refine Takes.pure ?_
    rintro c n rest hrest ts' mid ⟨⟨unfinished, hyes, _⟩, hplain⟩ ts lo hcondition
    rw [List.append_nil]
    exact ⟨⟨true, .if hkeyword hleft hcondition.1 hright hyes hplain, fun _ => hrest⟩, rfl⟩
  · refine hr.statement.some.bind fun no => Takes.pure ?_
    rintro c n rest ts'' mid' ⟨s, rfl, ⟨unfinished, hs, hrest⟩, hplain'⟩ ts' mid
      ⟨⟨_, hyes, hnext⟩, hplain⟩
      ts lo hcondition
    -- The `else` that follows shows that the first branch is finished.
    obtain rfl := Bool.eq_false_iff.mpr fun hunfinished => hnext hunfinished middle rfl hmiddle
    rw [List.append_nil]
    exact ⟨⟨unfinished, .ifElse hkeyword hleft hcondition.1 hright hyes hplain hmiddle hs hplain',
      hrest⟩, rfl⟩

/-- The context is the one inside the loop. -/
theorem takes_readWhile (keyword : Token) (hkeyword : keyword.kind = .while) :
    Takes r.bound (within .loop r.readWhile) fun c s ts lo hi rest =>
      SaysStatement c s (keyword :: ts) lo hi rest ∧ s.isDeclaration = false := by
  have hloop : Takes r.bound r.readWhile fun inside s ts lo hi rest => ∀ c : Context,
      c.inLoop = inside → SaysStatement c s (keyword :: ts) lo hi rest ∧ s.isDeclaration = false := by
    refine Takes.expect fun left hleft => ?_
    refine ((takes_assignment hr).less (Nat.le_succ _)).bind fun condition => ?_
    refine Takes.expect fun right hright => hr.statement.bind fun body => Takes.pure ?_
    rintro _ n rest ts' mid ⟨⟨unfinished, hbody, hnext⟩, hplain⟩ ts lo hcondition c rfl
    rw [List.append_nil]
    exact ⟨⟨unfinished, .while hkeyword hleft hcondition.1 hright hbody hplain, hnext⟩, rfl⟩
  exact hloop.within.mono fun h => h _ rfl

/-- A loop over clauses is derived with its clauses in their order. -/
theorem takes_readFor (keyword : Token) (hkeyword : keyword.kind = .for) :
    Takes r.bound (within .loop (r.readFor keyword.line)) fun c s ts lo hi rest =>
      SaysStatement c s (keyword :: ts) lo hi rest ∧ s.isDeclaration = false := by
  -- Behind the first clause all three forms of the loop are read alike.
  have hrest : ∀ initial, Takes r.bound (do
      let condition ← r.expressionUnless .semicolon
      let _ ← expect .forCondition
      let increment ← r.expressionUnless .rightParen
      let _ ← expect .forClausesEnd
      let body ← r.statement
      return forLoop keyword.line initial condition increment body) fun inside s ts' mid hi rest =>
        ∀ (c : Context) (left : Token) ts lo, c.inLoop = inside → left.kind = .leftParen →
          Derives inside (.initial initial) ts lo mid →
          SaysStatement c s (keyword :: left :: (ts ++ ts')) lo hi rest ∧ s.isDeclaration = false := by
    intro initial
    refine (takes_expressionUnless hr _).bind fun condition => Takes.expect fun semicolon hsemicolon => ?_
    refine (takes_expressionUnless hr _).bind fun increment => Takes.expect fun right hright => ?_
    refine hr.statement.bind fun body => Takes.pure ?_
    rintro _ n rest ts₃ mid'' ⟨⟨unfinished, hbody, hnext⟩, hplain⟩ ts'' mid' hincrement ts' mid
      hcondition
      c left ts lo rfl hleft hinitial
    rw [List.append_nil]
    refine ⟨⟨unfinished, .for hkeyword hleft hinitial hcondition hsemicolon hincrement hright hbody
      hplain, hnext⟩, ?_⟩
    cases initial <;> rfl
  have hloop : Takes r.bound (r.readFor keyword.line) fun inside s ts lo hi rest => ∀ c : Context,
      c.inLoop = inside → SaysStatement c s (keyword :: ts) lo hi rest ∧ s.isDeclaration = false := by
    refine Takes.expect fun left hleft => ?_
    refine Takes.accept (Takes.accept ?_ fun var hvar => ?_) fun semicolon hsemicolon => ?_
    · refine ((takes_expressionStatement hr).less (Nat.le_succ _)).some.bind fun initial => ?_
      refine (hrest initial).mono ?_
      rintro _ s ts' mid hi rest hloop _ lo ⟨_, rfl, value, semicolon, ts, rfl, hsemicolon, rfl, hvalue⟩
        _ _ c rfl
      exact hloop c left _ lo rfl hleft (.expressionInitial hvalue hsemicolon)
    · refine (takes_readVar hr).some.bind fun initial => (hrest initial).mono ?_
      rintro _ s ts' mid hi rest hloop ts lo ⟨_, rfl, name, value, rfl, hvariable⟩ _ c rfl
      exact hloop c left (var :: ts) lo rfl hleft (.varInitial hvar hvariable)
    · refine (hrest .none).mono ?_
      rintro _ s ts' mid hi rest hloop c rfl
      exact hloop c left [semicolon] mid rfl hleft (.noInitial hsemicolon)
  exact hloop.within.mono fun h => h _ rfl

/-- A statement that is no declaration is derived by the tokens taken. -/
theorem takes_statementRule : Takes (r.bound + 1) r.statementRule fun c s ts lo hi rest =>
    SaysStatement c s ts lo hi rest ∧ s.isDeclaration = false := by
  refine Takes.take?_succ ?_ fun start token htoken => ?_
  · refine (takes_expressionStatement hr).mono ?_
    rintro c _ _ lo hi rest ⟨value, semicolon, ts, rfl, hsemicolon, rfl, hvalue⟩ _
    exact ⟨(Derives.expression hvalue hsemicolon).saysStatement, rfl⟩
  · have hkind := (statement?_eq_some _).mp htoken
    cases start with
    | «for» => exact takes_readFor hr token hkind
    | «if» => exact takes_readIf hr token hkind
    | «while» => exact takes_readWhile hr token hkind
    | «return» => exact (takes_readReturn hr token hkind).mono fun hs => ⟨hs.1.saysStatement, hs.2⟩
    | «break» => exact (takes_readBreak token hkind).mono fun hs => ⟨hs.1.saysStatement, hs.2⟩
    | block =>
      refine (takes_block hr).bind fun body => Takes.pure ?_
      rintro c n rest _ lo ⟨ts, close, rfl, hclose, hbody⟩
      rw [List.append_nil]
      exact ⟨(Derives.block hkind hbody hclose).saysStatement, rfl⟩
    | print => exact (takes_readPrint hr token hkind).mono fun hs => ⟨hs.1.saysStatement, hs.2⟩

theorem takes_definition (role : CodeRole) (nameRole : NameRole) :
    Takes r.bound (r.definition role nameRole) fun c d ts lo hi _ =>
      ∃ name ts', name.kind = .identifier ∧ d.name = name.toMark ∧ ts = name :: ts' ∧
        Derives c (.code d.code) ts' lo hi := by
  refine Takes.expectName fun name hname => (takes_code hr role).bind fun code => Takes.pure ?_
  intro c n rest ts lo hcode
  rw [List.append_nil]
  exact ⟨name, ts, hname, rfl, rfl, hcode⟩

/-- Methods are derived behind those already read. -/
theorem takes_methods (count : Nat) (before : List Definition) :
    Takes r.bound (r.methods count before) fun c methods ts lo hi _ =>
      ∃ added, methods = before.reverse ++ added ∧ Derives c (.methods added) ts lo hi := by
  induction count generalizing before with
  | zero => exact Takes.pure fun c n rest => ⟨[], by simp, .noMethods⟩
  | succ count ih =>
    have hstop : Takes r.bound (Pure.pure before.reverse) fun c (methods : List Definition) ts lo hi _ =>
        ∃ added, methods = before.reverse ++ added ∧ Derives c (.methods added) ts lo hi :=
      Takes.pure fun c n rest => ⟨[], by simp, .noMethods⟩
    refine Takes.atEnd (Takes.next fun _ => hstop.mono fun h _ => h) (Takes.next fun closed => ?_)
    cases closed with
    | true => exact hstop
    | false =>
      refine (takes_definition hr _ _).bind fun d => (ih (d :: before)).mono ?_
      intro c methods ts'' mid hi rest hmethods _ lo hd
      obtain ⟨name, code⟩ := d
      obtain ⟨added, rfl, hadded⟩ := hmethods
      obtain ⟨token, ts, htoken, rfl, rfl, hcode⟩ := hd
      exact ⟨_ :: added, by simp, .method htoken hcode hadded⟩

/-- A class is derived with its superclass and its methods. -/
theorem takes_readClass (keyword : Token) (hkeyword : keyword.kind = .class) :
    Takes r.bound r.readClass fun c s ts lo hi _ =>
      Derives c (.statement false s) (keyword :: ts) lo hi := by
  have hrest : ∀ name superclass, Takes r.bound (do
      let _ ← expect .classBody
      let methods ← r.methods r.bound []
      let _ ← expect .classEnd
      return Stmt.class name superclass methods) fun c s ts lo hi _ =>
        ∃ methods brace ts' close, s = .class name superclass methods ∧
          brace.kind = .leftBrace ∧ ts = brace :: (ts' ++ [close]) ∧ close.kind = .rightBrace ∧
          Derives c (.methods methods) ts' lo hi := by
    intro name superclass
    refine Takes.expect fun brace hbrace => (takes_methods hr _ []).bind fun methods => ?_
    refine Takes.expect fun close hclose => Takes.pure ?_
    rintro c n rest ts lo ⟨added, rfl, hadded⟩
    exact ⟨_, brace, ts, close, rfl, hbrace, rfl, hclose, hadded⟩
  refine Takes.expectName fun name hname => Takes.accept ?_ fun less hless => ?_
  · refine (hrest name.toMark .none).mono ?_
    rintro c _ _ lo hi rest ⟨methods, brace, ts, close, rfl, hbrace, rfl, hclose, hmethods⟩ _
    exact .class hkeyword hname hbrace hmethods hclose
  · refine Takes.expectName fun parent hparent => Takes.freshId fun id => ?_
    refine (hrest name.toMark (some ⟨id, parent.toMark⟩)).mono ?_
    rintro c _ _ _ hi rest ⟨methods, brace, ts, close, rfl, hbrace, rfl, hclose, hmethods⟩ rfl
    exact .subclass hkeyword hname hless hparent hbrace hmethods hclose

omit hr in
/-- Looking ahead takes nothing, and where a definition is announced its keyword is there to be taken. -/
private theorem takes_definesFunction {β : Type} {n : Nat} {definition other : Reader β}
    {S : Account β} (hdefinition : ∀ keyword : Token, keyword.kind = .fun →
      Takes n definition fun c b ts lo hi rest => S c b (keyword :: ts) lo hi rest)
    (hother : Takes (n + 1) other S) :
    Takes (n + 1) (do
      if ← definesFunction then
        let _ ← accept .fun
        definition
      else other) S where
  ok {s b s'} hread hnone := by
    simp only [bind, EStateM.bind] at hread
    rcases definesFunction_cases s with ⟨hlook, first, second, more, htokens, hfun, -⟩ | ⟨hlook, -⟩
    · simp only [hlook, accept, take?, bind, EStateM.bind, State.next?_of_rest htokens, hfun,
        if_true] at hread
      obtain ⟨hbefore, htakes⟩ := (hdefinition first hfun).ok hread hnone
      rw [State.rest_succ htokens] at htakes
      refine ⟨hbefore, fun hbound => ?_⟩
      rw [htokens] at hbound
      obtain ⟨hcontext, ts, hrest, hS⟩ := htakes (Nat.lt_of_succ_lt_succ hbound)
      exact ⟨hcontext, first :: ts, htokens.trans (congrArg (first :: ·) hrest), hS⟩
    · simp only [hlook] at hread
      exact hother.ok hread hnone

theorem takes_declare : Takes (r.bound + 1) r.declare SaysStatement := by
  refine Takes.accept_succ (takes_definesFunction ?_ ?_) fun keyword hkeyword => ?_
  · intro keyword hkeyword
    refine (takes_definition hr .function .function).bind fun d => Takes.pure ?_
    rintro c n rest _ lo ⟨name, ts, hname, hd, rfl, hcode⟩ _
    obtain ⟨_, code⟩ := d
    cases hd
    rw [List.append_nil]
    exact (Derives.function hkeyword hname hcode).saysStatement
  · refine Takes.accept_succ ?_ fun keyword hkeyword => ?_
    · exact (takes_statementRule hr).mono fun hs _ _ => hs.1
    · refine (takes_readVar hr).mono ?_
      rintro c _ ts lo hi rest ⟨name, initial, rfl, hvariable⟩ _
      exact (Derives.var hkeyword hvariable).saysStatement
  · exact (takes_readClass hr keyword hkeyword).mono fun hs => hs.saysStatement

/-- A declaration is derived, as no error means that none was skipped. -/
theorem takes_declarationRule : Takes (r.bound + 1) r.declarationRule SaysDeclaration where
  ok {s entry s'} hread hnone := by
    unfold declarationRule at hread
    split at hread
    · rename_i stmt after hdeclare
      cases hread
      obtain ⟨hbefore, htakes⟩ := (takes_declare hr).ok hdeclare hnone
      refine ⟨hbefore, fun hbound => ?_⟩
      obtain ⟨hcontext, ts, hrest, hs⟩ := htakes hbound
      exact ⟨hcontext, ts, hrest, stmt, rfl, hs⟩
    · cases hread
      rw [(synchronize_same _).2.2] at hnone
      cases hnone

theorem Faithful.nest : r.nest.Faithful :=
  ⟨takes_expressionAt hr, takes_statementRule hr, takes_declarationRule hr⟩

end Function

/-- The rules of every depth derive what they read. The induction is on the depth. -/
theorem faithful_below (count : Nat) : (below count).Faithful := by
  induction count with
  | zero => exact ⟨fun _ => Takes.fail _, Takes.fail _, Takes.fail _⟩
  | succ count ih =>
    obtain ⟨hexpression, hstatement, hdeclaration⟩ := ih.nest
    have hbound : (below count).nest.bound = count + 1 := congrArg (· + 1) (bound_below count)
    rw [hbound] at hexpression hstatement hdeclaration
    exact ⟨hexpression, hstatement, hdeclaration⟩

end Rules

/-- As each declaration takes a token, none is left out if there is room for one a token. -/
theorem takes_entriesFrom {declaration : Reader (Option Stmt)} {n : Nat}
    (h : Takes n declaration SaysDeclaration) (count : Nat) (before : List (Option Stmt)) :
    Takes n (entriesFrom declaration count before) fun c entries ts lo hi rest =>
      (ts ++ rest).length ≤ count →
        rest = [] ∧ ∃ program, entries = before.reverse ++ program.map some ∧
        Derives c (.program program) ts lo hi := by
  induction count generalizing before with
  | zero =>
    refine Takes.pure fun c n rest hlength => ?_
    exact ⟨List.eq_nil_of_length_eq_zero (Nat.le_zero.mp hlength), [], by simp, .nil⟩
  | succ count ih =>
    refine Takes.atEnd (Takes.pure fun c n rest hend _ => ⟨hend, [], by simp, .nil⟩) ?_
    refine h.bind fun entry => (ih (entry :: before)).mono ?_
    rintro c entries ts' mid hi rest hentries ts lo ⟨s, rfl, unfinished, hs, _⟩ hlength
    have htoken := List.length_pos_iff.mpr hs.statement_ne_nil
    rw [List.append_assoc, List.length_append] at hlength
    obtain ⟨hrest, program, rfl, hprogram⟩ := hentries (by omega)
    exact ⟨hrest, s :: program, by simp, .cons hs hprogram⟩

/-- A source without a syntax error is derived by its tokens, all of them. -/
theorem derives_of_parse {tokens : List Token} {firstId : Nat}
    (h : (parse tokens firstId).errors = []) :
    ∃ program, (parse tokens firstId).entries = program.map some ∧
      Derives ⟨0, true⟩ (.program program) (tokens.takeWhile fun token => !isEnd token) firstId
        (parse tokens firstId).nextId := by
  have htakes := takes_entriesFrom (Rules.faithful_below (tokens.length + 1)).declaration tokens.length []
  have hlength := length_rest_start_le tokens firstId
  rw [Rules.bound_below] at htakes
  unfold parse at h ⊢
  simp only at h ⊢
  split at h
  · rename_i entries after hread
    obtain ⟨_, hcovers⟩ := htakes.ok hread (List.reverse_eq_nil_iff.mp h)
    obtain ⟨_, ts, hrest, hentries⟩ := hcovers (Nat.lt_succ_of_le hlength)
    obtain ⟨hend, program, hprogram, hderives⟩ := hentries (hrest ▸ hlength)
    rw [hend, List.append_nil, rest_start] at hrest
    subst hrest
    exact ⟨program, hprogram, hderives⟩
  · cases List.reverse_eq_nil_iff.mp h

end Lox.Grammar
