import Lox.Proofs.Grammar.Derivation
import Lox.Proofs.Grammar.Taking

namespace Lox.Grammar

/-- The tokens taken derive the expression, which stands at this height or above. -/
def SaysExpression (height : Nat) : Account Expr := fun c e ts lo hi _ =>
  Derives c (.expression e) ts lo hi ∧ height ≤ e.height

/-- The tokens taken derive the statement, and no `else` is left that belongs to it. -/
def SaysStatement : Account Stmt := fun c s ts lo hi rest =>
  ∃ unfinished, Derives c (.statement unfinished s) ts lo hi ∧ (unfinished = true → NotElse rest)

/-- A declaration that was read, which says its statement. -/
def SaysDeclaration : Account (Option Stmt) := fun c entry ts lo hi rest =>
  ∃ s, entry = some s ∧ SaysStatement c s ts lo hi rest

/-- Every rule accounts for the tokens it takes. -/
structure Rules.Faithful (r : Rules) : Prop where
  expression : ∀ level, Takes r.bound (r.expression level) (SaysExpression level.height)
  statement : Takes r.bound r.statement fun c s ts lo hi rest =>
    SaysStatement c s ts lo hi rest ∧ s.isDeclaration = false
  declaration : Takes r.bound r.declaration SaysDeclaration

section Separated

variable {α : Type} {item : Reader α} {P : Context → α → List Token → Nat → Nat → Prop}
  {bound : Nat}

/-- One more item within the limit, and whether a comma has been taken behind it. -/
theorem takes_oneMore (tooMany : SyntaxCause)
    (hitem : Takes bound item fun c x ts lo hi _ => P c x ts lo hi) (before : List α) :
    Takes bound (oneMore tooMany item before) fun c found ts lo hi _ =>
      before.length < maxArguments ∧ ∃ x, found.1 = x :: before ∧
        if found.2 then ∃ comma ts', comma.kind = .comma ∧ ts = ts' ++ [comma] ∧ P c x ts' lo hi
        else P c x ts lo hi := by
  have hone : Takes bound (do let x ← item; return (x :: before, (← accept .comma).isSome))
      fun c found ts lo hi _ => ∃ x, found.1 = x :: before ∧
        if found.2 then ∃ comma ts', comma.kind = .comma ∧ ts = ts' ++ [comma] ∧ P c x ts' lo hi
        else P c x ts lo hi := by
    refine hitem.bind fun x => Takes.accept ?_ fun comma hcomma => ?_
    · refine Takes.pure fun c n rest _ ts lo hx => ⟨x, rfl, ?_⟩
      simpa using hx
    · exact Takes.pure fun c n rest ts lo hx => ⟨x, rfl, comma, ts, hcomma, rfl, hx⟩
  unfold oneMore
  split
  · exact Takes.reportHere hone
  · rename_i hlimit
    exact hone.mono fun hfound => ⟨Nat.lt_of_not_le hlimit, hfound⟩

/-- As each comma takes a token, a list with room for one comma a token is read to its end. -/
theorem takes_separated (tooMany : SyntaxCause)
    (hitem : Takes bound item fun c x ts lo hi _ => P c x ts lo hi) (commas : Nat) (before : List α) :
    Takes bound (separated tooMany item commas before) fun c xs ts lo hi _ =>
      ts.length < commas + 1 → xs.length ≤ maxArguments ∧
        ∃ added, xs = before.reverse ++ added ∧ Listed (P c) added ts lo hi := by
  induction commas generalizing before with
  | zero =>
    refine (takes_oneMore tooMany hitem before).bind fun found => ?_
    obtain ⟨items, comma⟩ := found
    refine Takes.pure fun c n rest ts lo hfound hshort => ?_
    obtain ⟨hlimit, x, rfl, hx⟩ := hfound
    -- A list of this many arguments has more commas than the tokens have room for.
    rw [List.append_nil] at hshort ⊢
    cases comma with
    | false =>
      refine ⟨?_, [x], List.reverse_cons, .last (by simpa using hx)⟩
      rw [List.length_reverse]
      exact hlimit
    | true =>
      obtain ⟨comma, ts', _, rfl, _⟩ := hx
      simp at hshort
  | succ commas ih =>
    refine (takes_oneMore tooMany hitem before).bind fun found => ?_
    obtain ⟨items, comma⟩ := found
    cases comma with
    | false =>
      refine Takes.pure fun c n rest ts lo hfound hshort => ?_
      obtain ⟨hlimit, x, rfl, hx⟩ := hfound
      rw [List.append_nil]
      refine ⟨?_, [x], List.reverse_cons, .last (by simpa using hx)⟩
      rw [List.length_reverse]
      exact hlimit
    | true =>
      refine (ih items).mono fun hitems ts lo hfound hshort => ?_
      obtain ⟨_, x, rfl, comma, ts', hcomma, rfl, hx⟩ := hfound
      rw [List.length_append, List.length_append, List.length_singleton] at hshort
      obtain ⟨hlimit, added, rfl, hlisted⟩ := hitems (by omega)
      refine ⟨hlimit, x :: added, by simp, ?_⟩
      rw [List.append_assoc, List.singleton_append]
      exact .cons hx hcomma hlisted

end Separated

/-- A run of operators leans to the left, so what it has read so far is the next left operand. -/
theorem takes_chainFrom {op : Type} {operand : Reader Expr} {operator? : TokenKind → Option op}
    {join : op → Mark → Expr → Expr → Expr} {bound : Nat} {F : Context → Prop} (level : Level)
    (hoperand : Takes bound operand (SaysExpression (level.height + 1)))
    (hjoin : ∀ {c o} {token : Token} {left right ts ts' lo mid hi rest}, F c →
      operator? token.kind = some o → Derives c (.expression left) ts lo mid →
      level.height ≤ left.height → Derives c (.expression right) ts' mid hi →
      level.height < right.height →
      SaysExpression level.height c (join o token.toMark left right) (ts ++ token :: ts') lo hi rest)
    (operators : Nat) (left : Expr) :
    Takes bound (chainFrom operand operator? join operators left) fun c e ts' mid hi rest =>
      ∀ ts lo, F c → SaysExpression level.height c left ts lo mid (ts' ++ rest) →
        SaysExpression level.height c e (ts ++ ts') lo hi rest := by
  induction operators generalizing left with
  | zero =>
    refine Takes.pure fun c n rest ts lo _ hleft => ?_
    rw [List.append_nil]
    exact hleft
  | succ operators ih =>
    refine Takes.take? ?_ fun o token htoken => ?_
    · refine Takes.pure fun c n rest _ ts lo _ hleft => ?_
      rw [List.append_nil]
      exact hleft
    · refine hoperand.bind fun right => (ih (join o token.toMark left right)).mono ?_
      intro c e ts'' mid' hi rest he ts' mid hright ts lo hfits hleft
      have hjoined := he (ts ++ token :: ts') lo hfits
        (hjoin hfits htoken hleft.1 hleft.2 hright.1 hright.2)
      rwa [List.append_assoc, List.cons_append] at hjoined

/-- An operand of the next level, and operators behind it. -/
theorem takes_chain {op : Type} {operand : Reader Expr} {operator? : TokenKind → Option op}
    {join : op → Mark → Expr → Expr → Expr} {bound : Nat} {F : Context → Prop} (level : Level)
    (hoperand : Takes bound operand (SaysExpression (level.height + 1)))
    (hjoin : ∀ {c o} {token : Token} {left right ts ts' lo mid hi rest}, F c →
      operator? token.kind = some o → Derives c (.expression left) ts lo mid →
      level.height ≤ left.height → Derives c (.expression right) ts' mid hi →
      level.height < right.height →
      SaysExpression level.height c (join o token.toMark left right) (ts ++ token :: ts') lo hi rest)
    (operators : Nat) :
    Takes bound (chain operators operand operator? join) fun c e ts lo hi rest =>
      F c → SaysExpression level.height c e ts lo hi rest := by
  refine hoperand.bind fun first => (takes_chainFrom level hoperand hjoin operators first).mono ?_
  intro c e ts' mid hi rest he ts lo hfirst hfits
  exact he ts lo hfits ⟨hfirst.1, Nat.le_of_succ_le hfirst.2⟩

/-- A chain of binary operators derives what it joins. -/
theorem takes_binaryChain {operand : Reader Expr} {bound : Nat} (level : Level)
    (hoperand : Takes bound operand (SaysExpression (level.height + 1))) (operators : Nat) :
    Takes bound (chain operators operand level.binaryOp? .binary) (SaysExpression level.height) := by
  refine (takes_chain level (F := fun _ => True) hoperand ?_ operators).mono fun h => h trivial
  intro c op token left right ts ts' lo mid hi rest _ htoken hleft hle hright hlt
  obtain ⟨hkind, rfl⟩ := binaryOp?_eq_some.mp htoken
  exact ⟨.binary hleft hle hkind hright hlt, Nat.le_refl _⟩

/-- A chain of logical operators derives what it joins. -/
theorem takes_logicalChain {operand : Reader Expr} {bound : Nat} (level : Level)
    (hoperand : Takes bound operand (SaysExpression (level.height + 1))) (operators : Nat) :
    Takes bound (chain operators operand level.logicalOp? .logical) (SaysExpression level.height) := by
  refine (takes_chain level (F := fun _ => True) hoperand ?_ operators).mono fun h => h trivial
  intro c op token left right ts ts' lo mid hi rest _ htoken hleft hle hright hlt
  obtain ⟨hkind, rfl⟩ := logicalOp?_eq_some.mp htoken
  exact ⟨.logical hleft hle hkind hright hlt, Nat.le_refl _⟩

namespace Rules

variable {r : Rules}

section Function

variable (hr : r.Faithful)
include hr

/-- Declarations derive a program, behind those already read. -/
theorem takes_declarations (count : Nat) (before : List Stmt) :
    Takes r.bound (r.declarations count before) fun c body ts lo hi _ =>
      ∃ added, body = before.reverse ++ added ∧ Derives c (.program added) ts lo hi := by
  induction count generalizing before with
  | zero => exact Takes.pure fun c n rest => ⟨[], by simp, .nil⟩
  | succ count ih =>
    have hstop : Takes r.bound (Pure.pure before.reverse) fun c (body : List Stmt) ts lo hi _ =>
        ∃ added, body = before.reverse ++ added ∧ Derives c (.program added) ts lo hi :=
      Takes.pure fun c n rest => ⟨[], by simp, .nil⟩
    refine Takes.atEnd ?_ (Takes.next fun closed => ?_)
    · exact Takes.next fun _ => hstop.mono fun h _ => h
    · cases closed with
      | true => exact hstop
      | false =>
        refine hr.declaration.bind fun entry => ?_
        cases entry with
        | none =>
          refine (ih before).mono fun _ ts lo hentry => ?_
          obtain ⟨_, hnone, _⟩ := hentry
          cases hnone
        | some s =>
          refine (ih (s :: before)).mono fun hbody ts lo hentry => ?_
          obtain ⟨_, ⟨⟩, unfinished, hs, _⟩ := hentry
          obtain ⟨added, rfl, hadded⟩ := hbody
          exact ⟨s :: added, by simp, .cons hs hadded⟩

/-- Behind its opening brace. -/
theorem takes_block : Takes r.bound r.block fun c body ts lo hi _ =>
    ∃ ts' close, ts = ts' ++ [close] ∧ close.kind = .rightBrace ∧
      Derives c (.program body) ts' lo hi := by
  refine (takes_declarations hr _ []).bind fun body => Takes.expect fun close hclose => ?_
  refine Takes.pure fun c n rest ts lo hbody => ?_
  obtain ⟨added, rfl, hadded⟩ := hbody
  exact ⟨ts, close, rfl, hclose, hadded⟩

/-- Code derives parameters and a body, which starts afresh. -/
theorem takes_code (role : CodeRole) : Takes r.bound (r.code role) fun c code ts lo hi _ =>
    Derives c (.code code) ts lo hi := by
  have hrest : ∀ params : List Mark, Takes r.bound (do
      let _ ← expect .parametersEnd
      let _ ← expect (.body role)
      let body ← within .body r.block
      return (⟨params, body⟩ : Lambda)) fun c code ts' lo hi _ => ∀ left ts, left.kind = .leftParen →
        Names params ts → params.length ≤ maxArguments →
        Derives c (.code code) (left :: (ts ++ ts')) lo hi := by
    intro params
    refine Takes.expect fun right hright => ?_
    refine Takes.expect fun brace hbrace => ?_
    refine (takes_block hr).within.bind fun body => Takes.pure ?_
    intro c n rest ts' lo hbody left ts hleft hnames hlimit
    obtain ⟨tokens, close, rfl, hclose, hprogram⟩ := hbody
    rw [List.append_nil]
    exact .code hleft hnames hlimit hright hbrace hprogram hclose
  refine Takes.expect fun left hleft => Takes.next fun empty => ?_
  cases empty with
  | true =>
    exact (hrest []).mono fun hcode => hcode left [] hleft .nil (Nat.zero_le _)
  | false =>
    have hname : Takes r.bound (expectName .parameter) fun _ name ts lo hi _ =>
        IsName name ts lo hi := by
      rw [← bind_pure (expectName .parameter)]
      exact Takes.expectName fun token htoken =>
        Takes.pure fun c n rest => ⟨token, htoken, rfl, rfl, rfl⟩
    refine (takes_separated .tooManyParameters hname r.bound []).short.bind fun params => ?_
    refine (hrest params).mono fun hcode ts lo hparams => ?_
    obtain ⟨hlimit, _, rfl, hlisted⟩ := hparams.1 (Nat.lt_succ_of_lt hparams.2)
    obtain ⟨hnames, rfl⟩ := hlisted.names
    exact hcode left ts hleft hnames hlimit

/-- A primary expression is derived by the tokens taken. -/
theorem takes_primary : Takes (r.bound + 1) r.primary (SaysExpression primaryHeight) := by
  refine Takes.take?_succ (Takes.fail _) fun start token htoken => ?_
  cases start with
  | literal value =>
    exact Takes.pure fun c n rest => ⟨.literal ((start?_eq_some _).mp htoken), Nat.le_refl _⟩
  | name =>
    refine Takes.freshId fun id => Takes.pure ?_
    rintro c _ rest rfl
    exact ⟨.name ((start?_eq_some _).mp htoken), Nat.le_refl _⟩
  | this =>
    refine Takes.freshId fun id => Takes.pure ?_
    rintro c _ rest rfl
    exact ⟨.this ((start?_eq_some _).mp htoken), Nat.le_refl _⟩
  | super =>
    refine Takes.expect fun dot hdot => ?_
    refine Takes.expectName fun method hmethod => Takes.freshId fun id => Takes.pure ?_
    rintro c _ rest rfl
    exact ⟨.super ((start?_eq_some _).mp htoken) hdot hmethod, Nat.le_refl _⟩
  | lambda =>
    refine (takes_code hr .function).bind fun code => Takes.pure fun c n rest ts lo hcode => ?_
    rw [List.append_nil]
    exact ⟨.lambda ((start?_eq_some _).mp htoken) hcode, Nat.le_refl _⟩
  | grouping =>
    refine (hr.expression .assignment).within.bind fun inner => ?_
    refine Takes.expect fun right hright => Takes.pure fun c n rest ts lo hinner => ?_
    exact ⟨.grouping ((start?_eq_some _).mp htoken) hinner.1 hright, Nat.le_refl _⟩

/-- Arguments are derived in their context, and there are no more than may be. -/
theorem takes_arguments : Takes r.bound r.arguments fun c es ts lo hi _ =>
    Derives c (.arguments es) ts lo hi ∧ es.length ≤ maxArguments := by
  refine Takes.next fun empty => ?_
  cases empty with
  | true => exact Takes.pure fun c n rest => ⟨.noArguments, Nat.zero_le _⟩
  | false =>
    have hitem : Takes r.bound (r.expression .assignment) fun c e ts lo hi _ =>
        Derives c (.expression e) ts lo hi := (hr.expression .assignment).mono fun he => he.1
    refine (takes_separated .tooManyArguments hitem r.bound []).short.mono fun hes => ?_
    obtain ⟨hlimit, _, rfl, hlisted⟩ := hes.1 (Nat.lt_succ_of_lt hes.2)
    exact ⟨hlisted.arguments, hlimit⟩

/-- Calls and properties derive more of what their callee derives. -/
theorem takes_callFrom (suffixes : Nat) (callee : Expr) :
    Takes (r.bound + 1) (r.callFrom suffixes callee) fun c e ts' mid hi rest =>
      ∀ ts lo, SaysExpression callHeight c callee ts lo mid (ts' ++ rest) →
        SaysExpression callHeight c e (ts ++ ts') lo hi rest := by
  induction suffixes generalizing callee with
  | zero =>
    refine Takes.pure fun c n rest ts lo hcallee => ?_
    rw [List.append_nil]
    exact hcallee
  | succ suffixes ih =>
    refine Takes.take?_succ ?_ fun suffix token htoken => ?_
    · refine Takes.pure fun c n rest _ ts lo hcallee => ?_
      rw [List.append_nil]
      exact hcallee
    · cases suffix with
      | arguments =>
        refine (takes_arguments hr).within.bind fun arguments => ?_
        refine Takes.expect fun right hright => ?_
        refine ((ih (.call callee right.toMark arguments)).less (Nat.le_succ _)).mono ?_
        intro c e ts'' mid' hi rest he ts' mid harguments ts lo hcallee
        have hcall := he (ts ++ token :: (ts' ++ [right])) lo
          ⟨.call hcallee.1 hcallee.2 ((suffix?_eq_some _).mp htoken) harguments.1 harguments.2 hright,
            Nat.le_refl _⟩
        simpa using hcall
      | property =>
        refine Takes.expectName fun property hproperty => ?_
        refine ((ih (.get callee property.toMark)).less (Nat.le_succ _)).mono ?_
        intro c e ts' mid hi rest he ts lo hcallee
        have hget := he (ts ++ [token, property]) lo
          ⟨.get hcallee.1 hcallee.2 ((suffix?_eq_some _).mp htoken) hproperty, Nat.le_refl _⟩
        simpa using hget

theorem takes_call : Takes (r.bound + 1) r.call (SaysExpression callHeight) :=
  (takes_primary hr).bind fun callee => (takes_callFrom hr _ callee).mono fun he ts lo hcallee =>
    he ts lo ⟨hcallee.1, Nat.le_of_succ_le hcallee.2⟩

theorem takes_unary : Takes (r.bound + 1) r.unary (SaysExpression Level.unary.height) := by
  refine Takes.take?_succ ?_ fun op token htoken => ?_
  · refine Takes.take?_succ ?_ fun op token htoken => ?_
    · exact (takes_call hr).mono fun he _ _ => ⟨he.1, Nat.le_of_succ_le he.2⟩
    · refine Takes.report ((hr.expression _).bind (S := fun _ _ _ _ _ _ => True) fun right => ?_)
      exact Takes.pure fun _ _ _ _ _ _ => trivial
  · refine (hr.expression .unary).bind fun right => Takes.pure fun c n rest ts lo hright => ?_
    rw [List.append_nil]
    exact ⟨.unary (unaryOp?_eq_some.mp htoken) hright.1 hright.2, Nat.le_refl _⟩

theorem takes_factor : Takes (r.bound + 1) r.factor (SaysExpression Level.factor.height) :=
  takes_binaryChain .factor (takes_unary hr) _

theorem takes_term : Takes (r.bound + 1) r.term (SaysExpression Level.term.height) :=
  takes_binaryChain .term (takes_factor hr) _

theorem takes_comparison : Takes (r.bound + 1) r.comparison (SaysExpression Level.comparison.height) :=
  takes_binaryChain .comparison (takes_term hr) _

theorem takes_equality : Takes (r.bound + 1) r.equality (SaysExpression Level.equality.height) :=
  takes_binaryChain .equality (takes_comparison hr) _

theorem takes_comma : Takes (r.bound + 1) r.comma (SaysExpression Level.comma.height) := by
  refine Takes.get fun s => ?_
  split
  · rename_i hcommas
    have hchain : Takes (r.bound + 1)
        (chain r.bound r.equality commaOp? fun _ _ left right => .comma left right)
        fun c e ts lo hi rest => c.commas = true → SaysExpression Level.comma.height c e ts lo hi rest := by
      refine takes_chain .comma (takes_equality hr) ?_ r.bound
      intro c o token left right ts ts' lo mid hi rest hcommas htoken hleft hle hright hlt
      exact ⟨.comma hcommas hleft hle ((commaOp?_eq_some _).mp htoken) hright hlt, Nat.le_refl _⟩
    refine hchain.mono fun he hcontext => he ?_
    rwa [hcontext]
  · exact (takes_equality hr).mono fun he _ => ⟨he.1, Nat.le_of_succ_le he.2⟩

theorem takes_conditional : Takes (r.bound + 1) r.conditional (SaysExpression Level.conditional.height) := by
  refine (takes_comma hr).bind fun condition => ?_
  refine Takes.accept_succ ?_ fun question hquestion => ?_
  · refine Takes.pure fun c n rest _ ts lo hcondition => ?_
    rw [List.append_nil]
    exact ⟨hcondition.1, Nat.le_of_succ_le hcondition.2⟩
  · refine (hr.expression .assignment).bind fun yes => ?_
    refine Takes.expect fun colon hcolon => ?_
    refine (hr.expression .conditional).bind fun no => Takes.pure ?_
    intro c n rest ts'' mid' hno ts' mid hyes ts lo hcondition
    rw [List.append_nil]
    exact ⟨.conditional hcondition.1 hcondition.2 hquestion hyes.1 hcolon hno.1 hno.2, Nat.le_refl _⟩

theorem takes_and : Takes (r.bound + 1) r.and (SaysExpression Level.and.height) :=
  takes_logicalChain .and (takes_conditional hr) _

theorem takes_or : Takes (r.bound + 1) r.or (SaysExpression Level.or.height) :=
  takes_logicalChain .or (takes_and hr) _

/-- An assignment derives its target, which is a name or a property, and its value. -/
theorem takes_assignment : Takes (r.bound + 1) r.assignment (SaysExpression Level.assignment.height) := by
  refine (takes_or hr).bind fun target => ?_
  refine Takes.accept_succ ?_ fun equal hequal => ?_
  · refine Takes.pure fun c n rest _ ts lo htarget => ?_
    rw [List.append_nil]
    exact ⟨htarget.1, Nat.zero_le _⟩
  · refine (hr.expression .assignment).bind fun value => ?_
    split
    · refine Takes.freshId fun id => Takes.pure ?_
      rintro c _ rest rfl ts' mid hvalue ts lo ⟨htarget, _⟩
      cases htarget with
      | name htoken =>
        rw [List.append_nil]
        exact ⟨.assign htoken hequal hvalue.1, Nat.le_refl _⟩
    · refine Takes.pure ?_
      rintro c n rest ts' mid hvalue ts lo ⟨htarget, _⟩
      cases htarget with
      | get hobject hheight hdot hproperty =>
        rw [List.append_nil, List.append_assoc]
        exact ⟨.set hobject hheight hdot hproperty hequal hvalue.1, Nat.le_refl _⟩
    · exact Takes.report (Takes.pure (Q := fun _ _ _ _ _ _ => True) fun _ _ _ => trivial)

/-- Every level derives what it reads, at its own height or above. -/
theorem takes_expressionAt (level : Level) :
    Takes (r.bound + 1) (r.expressionAt level) (SaysExpression level.height) := by
  cases level with
  | assignment => exact takes_assignment hr
  | or => exact takes_or hr
  | and => exact takes_and hr
  | conditional => exact takes_conditional hr
  | comma => exact takes_comma hr
  | equality => exact takes_equality hr
  | comparison => exact takes_comparison hr
  | term => exact takes_term hr
  | factor => exact takes_factor hr
  | unary => exact takes_unary hr

end Function

end Rules

end Lox.Grammar
