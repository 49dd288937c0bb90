import Lox.Grammar.Program
import Lox.Proofs.Grammar.Completeness.Expression

namespace Lox.Grammar

open Rules (below bound_below)

section Reading

variable {c : Context} {ts ts' ts'' rest : List Token} {lo mid mid' hi n : Nat}

/-- The rules for inputs of these tokens read them as this program, in a block and up to the end. -/
structure ReadsProgram (c : Context) (body : List Stmt) (ts : List Token) (lo hi : Nat) : Prop where
  block : ∀ {n count : Nat} (before : List Stmt) {close : Token} {rest : List Token}, ts.length < n →
    ts.length ≤ count → close.kind = .rightBrace →
    Yields ((below n).declarations count before) c ts (before.reverse ++ body) lo hi (close :: rest)
  entries : ∀ {n count : Nat} (before : List (Option Stmt)), ts.length < n → ts.length ≤ count →
    Yields (entriesFrom (below n).declaration count before) c ts (before.reverse ++ body.map some) lo hi []

/-- The rules for inputs of these tokens read them as this statement, unless an `else` comes next that
    belongs to it. -/
structure ReadsStatement (unfinished : Bool) (c : Context) (s : Stmt) (ts : List Token)
    (lo hi : Nat) : Prop where
  declaration : ∀ {n : Nat} {rest : List Token}, ts.length ≤ n → (unfinished = true → NotElse rest) →
    Yields (below n).declare c ts s lo hi rest
  statement : ∀ {n : Nat} {rest : List Token}, s.isDeclaration = false → ts.length ≤ n →
    (unfinished = true → NotElse rest) → Yields (below n).statementRule c ts s lo hi rest

/-- The tokens are read as these methods, up to a closing brace. -/
def ReadsMethods (c : Context) (ds : List Definition) (ts : List Token) (lo hi : Nat) : Prop :=
  ∀ {n count : Nat} (before : List Definition) {close : Token} {rest : List Token}, ts.length ≤ n →
    ts.length ≤ count → close.kind = .rightBrace →
    Yields ((below n).methods count before) c ts (before.reverse ++ ds) lo hi (close :: rest)

/-- The tokens are read as a variable behind its keyword. -/
def ReadsVariable (c : Context) (name : Mark) (initial : Option Expr) (ts : List Token)
    (lo hi : Nat) : Prop :=
  ∀ {n : Nat} {rest : List Token}, ts.length ≤ n →
    Yields (below n).readVar c ts (.var name initial) lo hi rest

/-- The tokens are read as an optional expression in front of what ends it. -/
def ReadsValue (c : Context) (value : Option Expr) (ts : List Token) (lo hi : Nat) : Prop :=
  ∀ {n : Nat} {kind : TokenKind} {close : Token} {rest : List Token}, ts.length ≤ n →
    kind = .semicolon ∨ kind = .rightParen → close.kind = kind →
    Yields ((below n).expressionUnless kind) c ts value lo hi (close :: rest)

/-- What the first clause of a loop is read as. -/
inductive ReadsInitial (c : Context) : Option Stmt → List Token → Nat → Nat → Prop where
  | none {semicolon : Token} {n : Nat} : semicolon.kind = .semicolon →
    ReadsInitial c none [semicolon] n n
  | var {keyword : Token} {name : Mark} {initial : Option Expr} {ts : List Token} {lo hi : Nat} :
    keyword.kind = .var → ReadsVariable c name initial ts lo hi →
    ReadsInitial c (some (.var name initial)) (keyword :: ts) lo hi
  | expression {semicolon : Token} {value : Expr} {ts : List Token} {lo hi : Nat} :
    (Phrase.expression value).Opens ts → ReadsExpression c value ts lo hi →
    semicolon.kind = .semicolon → ReadsInitial c (some (.expression value)) (ts ++ [semicolon]) lo hi

/-- Statements are read as a block up to its closing brace. -/
theorem ReadsProgram.yields_block {body : List Stmt} {close : Token} (h : ReadsProgram c body ts lo hi)
    (hlength : ts.length < n) (hclose : close.kind = .rightBrace) :
    Yields (below n).block c (ts ++ [close]) body lo hi rest := by
  refine Leads.bind (h.block [] hlength ?_ hclose) (Leads.expect hclose .refl)
  rw [bound_below]
  exact Nat.le_of_lt hlength

/-- Parameters in parentheses and statements in braces are read as code. -/
theorem ReadsCode.code {left right brace close : Token} {params : List Mark} {body : List Stmt}
    (hleft : left.kind = .leftParen) (hnames : Names params ts)
    (hlimit : params.length ≤ maxArguments) (hright : right.kind = .rightParen)
    (hbrace : brace.kind = .leftBrace) (hbody : ReadsProgram c.inBody body ts' lo hi)
    (hclose : close.kind = .rightBrace) :
    ReadsCode c ⟨params, body⟩ (left :: (ts ++ right :: brace :: (ts' ++ [close]))) lo hi := by
  intro n role rest hlength
  simp only [List.length_cons, List.length_append, List.length_nil] at hlength
  have hrest : Yields (do
      let _ ← expect .parametersEnd
      let _ ← expect (.body role)
      let body ← within .body (below n).block
      return (⟨params, body⟩ : Lambda)) c (right :: brace :: (ts' ++ [close])) ⟨params, body⟩
      lo hi rest :=
    Leads.expect hright (Leads.expect hbrace (Leads.bind_pure
      (Leads.within (hbody.yields_block (by omega) hclose)) rfl))
  refine Leads.expect hleft ?_
  by_cases hempty : params = []
  · subst hempty
    cases hnames
    exact Leads.next_true rfl hright hrest
  · have hlisted := hnames.listed hempty lo
    obtain ⟨first, more, rfl, hfirst⟩ :
        ∃ first more, ts = first :: more ∧ first.kind = .identifier := by
      cases hnames with
      | nil => exact absurd rfl hempty
      | last hname | cons hname => exact ⟨_, _, rfl, hname⟩
    refine Leads.next_false (by rintro _ ⟨⟩; rw [hfirst]; nofun) ?_
    refine Leads.bind ?_ hrest
    refine yields_separated .tooManyParameters ?_ hlisted [] (Nat.le_refl _) ?_ (by simpa using hlimit) hright
    · rintro x _ _ _ _ _ ⟨token, htoken, rfl, rfl, rfl⟩ _ _
      rw [← bind_pure (expectName .parameter)]
      exact Leads.expectName htoken .refl
    · rw [bound_below, List.length_cons]
      rw [List.length_cons] at hlength
      omega

/-- The first token does not start a declaration, nor do the first two. -/
def NoDeclaration (ts : List Token) : Prop :=
  ∃ first more, ts = first :: more ∧ first.kind ≠ .class ∧ first.kind ≠ .var ∧
    (first.kind = .fun → ∃ second more', more = second :: more' ∧ second.kind = .leftParen)

/-- A keyword of a statement starts no declaration. -/
theorem NoDeclaration.cons {first : Token} (start : StatementStart) (h : first.kind = start.kind) :
    NoDeclaration (first :: ts) := by
  refine ⟨first, ts, rfl, ?_, ?_, ?_⟩
  all_goals
    rw [h]
    cases start <;> nofun

/-- An expression starts no declaration, since a function without a name is none. -/
theorem NoDeclaration.of_opens {e : Expr} (h : (Phrase.expression e).Opens ts) :
    NoDeclaration (ts ++ ts') := by
  obtain ⟨first, more, rfl, hstart, hfun⟩ := h
  refine ⟨first, more ++ ts', rfl, ?_, ?_, fun hkind => ?_⟩
  · intro hkind
    rw [hkind] at hstart
    rcases hstart with h | ⟨h, _⟩ <;> cases h
  · intro hkind
    rw [hkind] at hstart
    rcases hstart with h | ⟨h, _⟩ <;> cases h
  · obtain ⟨second, more', rfl, hsecond⟩ := hfun hkind
    exact ⟨second, more' ++ ts', rfl, hsecond⟩

/-- A definition needs a name behind its keyword. -/
private theorem leads_definesFunction {β : Type} {f : Bool → Reader β} {last : Reader β} {first : Token}
    {more : List Token}
    (hfun : first.kind = .fun → ∃ second more', more = second :: more' ∧ second.kind = .leftParen)
    (h : Leads (f false) last c (first :: more) lo hi rest) :
    Leads (Rules.definesFunction >>= f) last c (first :: more) lo hi rest where
  run s hrest hcontext hid := by
    have hlook : Rules.definesFunction s = .ok false s := by
      rcases definesFunction_cases s with ⟨-, _, second, _, htokens, hkind, hname⟩ | ⟨hlook, -⟩
      · rw [hrest] at htokens
        obtain ⟨rfl, hmore⟩ := List.cons.inj htokens
        obtain ⟨_, _, rfl, hparen⟩ := hfun hkind
        obtain ⟨rfl, -⟩ := List.cons.inj hmore
        rw [hparen] at hname
        cases hname
      · exact hlook
    rw [← h.run s hrest hcontext hid]
    simp only [bind, EStateM.bind, hlook]

private theorem leads_definesFunction_true {β : Type} {f : Bool → Reader β} {last : Reader β}
    {keyword name : Token} (hkeyword : keyword.kind = .fun) (hname : name.kind = .identifier)
    (h : Leads (f true) last c (keyword :: name :: ts) lo hi rest) :
    Leads (Rules.definesFunction >>= f) last c (keyword :: name :: ts) lo hi rest where
  run s hrest hcontext hid := by
    have hlook : Rules.definesFunction s = .ok true s := by
      rcases definesFunction_cases s with ⟨hlook, -⟩ | ⟨-, hno⟩
      · exact hlook
      · exact absurd hname (hno keyword name _ hrest hkeyword)
    rw [← h.run s hrest hcontext hid]
    simp only [bind, EStateM.bind, hlook]

/-- A statement is read as one that might be a declaration, if it starts none. -/
theorem ReadsStatement.of_statement {unfinished : Bool} {s : Stmt} (hstart : NoDeclaration ts)
    (h : ∀ {n rest}, ts.length ≤ n → (unfinished = true → NotElse rest) →
      Yields (below n).statementRule c ts s lo hi rest) :
    ReadsStatement unfinished c s ts lo hi where
  statement _ hlength hrest := h hlength hrest
  declaration {_ rest} hlength hrest := by
    obtain ⟨first, more, rfl, hclass, hvar, hfun⟩ := hstart
    refine Leads.accept_none (by rintro _ ⟨⟩; exact hclass) (leads_definesFunction hfun ?_)
    exact Leads.accept_none (by rintro _ ⟨⟩; exact hvar) (h hlength hrest)

/-- A declaration needs no other rule. -/
theorem ReadsStatement.of_declaration {s : Stmt} (hdeclares : s.isDeclaration = true)
    (h : ∀ {n rest}, ts.length ≤ n → Yields (below n).declare c ts s lo hi rest) :
    ReadsStatement false c s ts lo hi where
  declaration hlength _ := h hlength
  statement hplain := absurd hdeclares (Bool.eq_false_iff.mp hplain)

/-- A statement that is nested in another one. -/
theorem ReadsStatement.nested {unfinished : Bool} {s : Stmt} (h : ReadsStatement unfinished c s ts lo hi)
    (hplain : s.isDeclaration = false) (hlength : ts.length < n)
    (hrest : unfinished = true → NotElse rest) : Yields (below n).statement c ts s lo hi rest := by
  obtain ⟨n, rfl⟩ := Nat.exists_eq_add_one_of_ne_zero (Nat.ne_zero_of_lt hlength)
  exact h.statement hplain (Nat.le_of_lt_succ hlength) hrest

variable {keyword left right semicolon close brace name equal middle : Token} {value condition : Expr}
  {yes no body : Stmt} {unfinished : Bool}

/-- An expression is read in front of a mark that ends it. -/
theorem ReadsExpression.assignment (h : ReadsExpression c value ts lo hi) (hlength : ts.length ≤ n)
    (hclose : close.kind = .semicolon ∨ close.kind = .rightParen) :
    Yields (below n).assignment c ts value lo hi (close :: rest) :=
  h.yields .assignment hlength (Nat.zero_le _)
    (Stops.of_none (by rcases hclose with h | h <;> rw [h] <;> rfl))

theorem ReadsExpression.expressionStatement (h : ReadsExpression c value ts lo hi)
    (hsemicolon : semicolon.kind = .semicolon) (hlength : ts.length ≤ n) :
    Yields (below n).expressionStatement c (ts ++ [semicolon]) (.expression value) lo hi rest :=
  Leads.bind (h.assignment hlength (.inl hsemicolon)) (Leads.expect hsemicolon .refl)

theorem ReadsStatement.expression (hopens : (Phrase.expression value).Opens ts)
    (h : ReadsExpression c value ts lo hi) (hsemicolon : semicolon.kind = .semicolon) :
    ReadsStatement false c (.expression value) (ts ++ [semicolon]) lo hi := by
  refine of_statement (.of_opens hopens) fun {n rest} hlength _ => Leads.take?_none ?_ ?_
  · obtain ⟨first, more, rfl, hstart, _⟩ := hopens
    rintro _ ⟨⟩
    cases hkind : first.kind <;>
      first | rfl | (rw [hkind] at hstart; rcases hstart with h | ⟨h, _⟩ <;> cases h)
  · rw [List.length_append] at hlength
    exact h.expressionStatement hsemicolon (by omega)

theorem ReadsStatement.print (hkeyword : keyword.kind = .print) (h : ReadsExpression c value ts lo hi)
    (hsemicolon : semicolon.kind = .semicolon) :
    ReadsStatement false c (.print keyword.toMark value) (keyword :: (ts ++ [semicolon])) lo hi := by
  refine of_statement (.cons .print hkeyword) fun hlength _ => ?_
  refine Leads.take? ((statement?_eq_some .print).mpr hkeyword) ?_
  rw [List.length_cons, List.length_append] at hlength
  exact Leads.bind (h.assignment (by omega) (.inl hsemicolon)) (Leads.expect hsemicolon .refl)

theorem ReadsStatement.return {value : Option Expr} (hkeyword : keyword.kind = .return)
    (h : ReadsValue c value ts lo hi) (hsemicolon : semicolon.kind = .semicolon) :
    ReadsStatement false c (.return keyword.toMark value) (keyword :: (ts ++ [semicolon])) lo hi := by
  refine of_statement (.cons .return hkeyword) fun hlength _ => ?_
  refine Leads.take? ((statement?_eq_some .return).mpr hkeyword) ?_
  rw [List.length_cons, List.length_append] at hlength
  exact Leads.bind (h (by omega) (.inl rfl) hsemicolon) (Leads.expect hsemicolon .refl)

theorem ReadsStatement.break (hkeyword : keyword.kind = .break) (hloops : c.loops ≠ 0)
    (hsemicolon : semicolon.kind = .semicolon) :
    ReadsStatement false c (.break keyword.toMark) [keyword, semicolon] lo lo := by
  refine of_statement (.cons .break hkeyword) fun hlength _ => ?_
  refine Leads.take? ((statement?_eq_some .break).mpr hkeyword) (Leads.get fun s hs => ?_)
  rw [if_neg (hs ▸ hloops)]
  exact Leads.expect hsemicolon .refl

theorem ReadsStatement.block {body : List Stmt} (hbrace : brace.kind = .leftBrace)
    (h : ReadsProgram c body ts lo hi) (hclose : close.kind = .rightBrace) :
    ReadsStatement false c (.block body) (brace :: (ts ++ [close])) lo hi := by
  refine of_statement (.cons .block hbrace) fun hlength _ => ?_
  refine Leads.take? ((statement?_eq_some .block).mpr hbrace) ?_
  rw [List.length_cons, List.length_append] at hlength
  exact Leads.bind_pure (h.yields_block (by omega) hclose) rfl

theorem ReadsStatement.if (hkeyword : keyword.kind = .if) (hleft : left.kind = .leftParen)
    (hcondition : ReadsExpression c condition ts lo mid) (hright : right.kind = .rightParen)
    (hyes : ReadsStatement unfinished c yes ts' mid hi) (hplain : yes.isDeclaration = false) :
    ReadsStatement true c (.if condition yes none) (keyword :: left :: (ts ++ right :: ts')) lo hi := by
  refine of_statement (.cons .if hkeyword) fun hlength hrest => ?_
  refine Leads.take? ((statement?_eq_some .if).mpr hkeyword) (Leads.expect hleft ?_)
  simp only [List.length_cons, List.length_append] at hlength
  refine Leads.bind (hcondition.assignment (by omega) (.inr hright)) (Leads.expect hright ?_)
  refine Leads.bind_last (hyes.nested hplain (by omega) fun _ => hrest rfl) ?_
  exact Leads.accept_none (hrest rfl) .refl

/-- A condition takes the branch behind its `else`, whatever comes behind that. -/
theorem ReadsStatement.ifElse (hkeyword : keyword.kind = .if) (hleft : left.kind = .leftParen)
    (hcondition : ReadsExpression c condition ts lo mid) (hright : right.kind = .rightParen)
    (hyes : ReadsStatement false c yes ts' mid mid') (hplain : yes.isDeclaration = false)
    (hmiddle : middle.kind = .else) (hno : ReadsStatement unfinished c no ts'' mid' hi)
    (hplain' : no.isDeclaration = false) :
    ReadsStatement unfinished c (.if condition yes (some no))
      (keyword :: left :: (ts ++ right :: (ts' ++ middle :: ts''))) lo hi := by
  refine of_statement (.cons .if hkeyword) fun hlength hrest => ?_
  refine Leads.take? ((statement?_eq_some .if).mpr hkeyword) (Leads.expect hleft ?_)
  simp only [List.length_cons, List.length_append] at hlength
  refine Leads.bind (hcondition.assignment (by omega) (.inr hright)) (Leads.expect hright ?_)
  refine Leads.bind (hyes.nested hplain (by omega) nofun) (Leads.accept hmiddle ?_)
  exact Leads.bind_pure (hno.nested hplain' (by omega) hrest).some rfl

/-- A loop is read with its condition and its body in a context with one loop more. -/
theorem ReadsStatement.while (hkeyword : keyword.kind = .while) (hleft : left.kind = .leftParen)
    (hcondition : ReadsExpression c.inLoop condition ts lo mid) (hright : right.kind = .rightParen)
    (hbody : ReadsStatement unfinished c.inLoop body ts' mid hi) (hplain : body.isDeclaration = false) :
    ReadsStatement unfinished c (.while condition body) (keyword :: left :: (ts ++ right :: ts')) lo hi := by
  refine of_statement (.cons .while hkeyword) fun hlength hrest => ?_
  refine Leads.take? ((statement?_eq_some .while).mpr hkeyword) (Leads.within (Leads.expect hleft ?_))
  simp only [List.length_cons, List.length_append] at hlength
  refine Leads.bind (hcondition.assignment (by omega) (.inr hright)) (Leads.expect hright ?_)
  exact Leads.bind_pure (hbody.nested hplain (by omega) hrest) rfl

theorem ReadsValue.none : ReadsValue c none [] lo lo := fun _ _ hclose =>
  Leads.next_true rfl hclose .refl

theorem ReadsValue.some (hopens : (Phrase.value (some value)).Opens ts)
    (h : ReadsExpression c value ts lo hi) : ReadsValue c (some value) ts lo hi := by
  rintro n _ close rest hlength hkind rfl
  obtain ⟨first, more, rfl, hsemicolon, hright⟩ := hopens
  refine Leads.next_false ?_ (h.assignment hlength hkind).some
  rintro _ ⟨⟩
  rcases hkind with hkind | hkind <;> rw [hkind] <;> assumption

theorem ReadsVariable.uninitialized (hname : name.kind = .identifier)
    (hsemicolon : semicolon.kind = .semicolon) :
    ReadsVariable c name.toMark none [name, semicolon] lo lo := by
  intro n rest _
  refine Leads.expectName hname (Leads.accept_none ?_ (Leads.expect hsemicolon .refl))
  rintro _ ⟨⟩
  rw [hsemicolon]
  nofun

theorem ReadsVariable.initialized (hname : name.kind = .identifier) (hequal : equal.kind = .equal)
    (h : ReadsExpression c value ts lo hi) (hsemicolon : semicolon.kind = .semicolon) :
    ReadsVariable c name.toMark (some value) (name :: equal :: (ts ++ [semicolon])) lo hi := by
  intro n rest hlength
  simp only [List.length_cons, List.length_append] at hlength
  refine Leads.expectName hname (Leads.accept hequal ?_)
  exact Leads.bind (h.assignment (by omega) (.inl hsemicolon)).some (Leads.expect hsemicolon .refl)

/-- A loop over clauses is read as what it comes down to. -/
theorem ReadsStatement.for {initial : Option Stmt} {condition increment : Option Expr}
    {ts₃ : List Token} {mid'' : Nat} (hkeyword : keyword.kind = .for) (hleft : left.kind = .leftParen)
    (hinitial : ReadsInitial c.inLoop initial ts lo mid)
    (hcondition : ReadsValue c.inLoop condition ts' mid mid') (hsemicolon : semicolon.kind = .semicolon)
    (hincrement : ReadsValue c.inLoop increment ts'' mid' mid'') (hright : right.kind = .rightParen)
    (hbody : ReadsStatement unfinished c.inLoop body ts₃ mid'' hi) (hplain : body.isDeclaration = false) :
    ReadsStatement unfinished c (Rules.forLoop keyword.line initial condition increment body)
      (keyword :: left :: (ts ++ (ts' ++ semicolon :: (ts'' ++ right :: ts₃)))) lo hi := by
  refine of_statement (.cons .for hkeyword) fun {n rest} hlength hrest => ?_
  refine Leads.take? ((statement?_eq_some .for).mpr hkeyword) (Leads.within (Leads.expect hleft ?_))
  simp only [List.length_cons, List.length_append] at hlength
  -- Behind the first clause all three forms of the loop are read alike.
  have hclauses : Yields (do
      let condition ← (below n).expressionUnless .semicolon
      let _ ← expect .forCondition
      let increment ← (below n).expressionUnless .rightParen
      let _ ← expect .forClausesEnd
      let body ← (below n).statement
      return Rules.forLoop keyword.line initial condition increment body) c.inLoop
      (ts' ++ semicolon :: (ts'' ++ right :: ts₃))
      (Rules.forLoop keyword.line initial condition increment body) mid hi rest := by
    refine Leads.bind (hcondition (by omega) (.inl rfl) hsemicolon) (Leads.expect hsemicolon ?_)
    refine Leads.bind (hincrement (by omega) (.inr rfl) hright) (Leads.expect hright ?_)
    exact Leads.bind_pure (hbody.nested hplain (by omega) hrest) rfl
  cases hinitial with
  | none hkind => exact Leads.accept hkind hclauses
  | var hkind hvariable =>
    rw [List.length_cons] at hlength
    refine Leads.accept_none ?_ (Leads.accept hkind (Leads.bind (hvariable (by omega)).some hclauses))
    rintro _ ⟨⟩
    rw [hkind]
    nofun
  | expression hopens hvalue hkind =>
    rw [List.length_append] at hlength
    obtain ⟨first, more, rfl, hstart, _⟩ := hopens
    -- An expression starts with neither a `;` nor a `var`, so both other forms are tried in vain.
    refine Leads.accept_none ?_ (Leads.accept_none ?_ ?_)
    · rintro _ ⟨⟩
      exact hstart.not_closing.2.2.1
    · rintro _ ⟨⟩ hvar
      rw [hvar] at hstart
      rcases hstart with h | ⟨h, _⟩ <;> cases h
    · exact Leads.bind (hvalue.expressionStatement hkind (by omega)).some hclauses

theorem ReadsStatement.var {name : Mark} {initial : Option Expr} (hkeyword : keyword.kind = .var)
    (h : ReadsVariable c name initial ts lo hi) :
    ReadsStatement false c (.var name initial) (keyword :: ts) lo hi := by
  refine of_declaration rfl fun {n rest} hlength => ?_
  refine Leads.accept_none (by rintro _ ⟨⟩; rw [hkeyword]; nofun) ?_
  refine leads_definesFunction (by rw [hkeyword]; nofun) ?_
  exact Leads.accept hkeyword (h (Nat.le_of_succ_le hlength))

/-- Some code behind a name is read as a definition. -/
theorem ReadsCode.definition {code : Lambda} (h : ReadsCode c code ts lo hi) (hname : name.kind = .identifier)
    (role : CodeRole) (nameRole : NameRole) (hlength : ts.length ≤ n) :
    Yields ((below n).definition role nameRole) c (name :: ts) ⟨name.toMark, code⟩ lo hi rest :=
  Leads.expectName hname (Leads.bind_pure (h n role rest hlength) rfl)

theorem ReadsStatement.function {code : Lambda} (hkeyword : keyword.kind = .fun)
    (hname : name.kind = .identifier) (h : ReadsCode c code ts lo hi) :
    ReadsStatement false c (.function ⟨name.toMark, code⟩) (keyword :: name :: ts) lo hi := by
  refine of_declaration rfl fun {n rest} hlength => ?_
  simp only [List.length_cons] at hlength
  refine Leads.accept_none (by rintro _ ⟨⟩; rw [hkeyword]; nofun) ?_
  refine leads_definesFunction_true hkeyword hname (Leads.accept hkeyword ?_)
  exact Leads.bind_pure (h.definition hname .function .function (by omega)) rfl

theorem ReadsMethods.nil : ReadsMethods c [] [] lo lo := by
  intro n count before close rest _ _ hclose
  rw [List.append_nil]
  cases count with
  | zero => exact .refl
  | succ count => exact Leads.atEnd (Leads.next_true rfl hclose .refl)

/-- A method is read in front of other methods. -/
theorem ReadsMethods.cons {code : Lambda} {methods : List Definition} (hname : name.kind = .identifier)
    (hcode : ReadsCode c code ts lo mid) (h : ReadsMethods c methods ts' mid hi) :
    ReadsMethods c (⟨name.toMark, code⟩ :: methods) (name :: (ts ++ ts')) lo hi := by
  intro n count before close rest hlength hcount hclose
  rw [List.length_cons, List.length_append] at hlength hcount
  obtain ⟨count, rfl⟩ := Nat.exists_eq_add_one_of_ne_zero (show count ≠ 0 by omega)
  have hmore :
      Yields ((below n).methods count (⟨name.toMark, code⟩ :: before)) c ts' _ mid hi (close :: rest) :=
    h _ (by omega) (by omega) hclose
  rw [List.reverse_cons, List.append_assoc, List.singleton_append] at hmore
  refine Leads.atEnd (Leads.next_false (by rintro _ ⟨⟩; rw [hname]; nofun) ?_)
  exact Leads.bind (hcode.definition hname .method .method (by omega)) hmore

/-- Methods between braces are read as those of a class. -/
theorem ReadsMethods.yields_class {methods : List Definition} {mark : Mark} {superclass : Option Ref}
    (h : ReadsMethods c methods ts lo hi) (hbrace : brace.kind = .leftBrace)
    (hclose : close.kind = .rightBrace) (hlength : ts.length ≤ n) :
    Yields (do
      let _ ← expect .classBody
      let methods ← (below n).methods (below n).bound []
      let _ ← expect .classEnd
      return Stmt.class mark superclass methods) c (brace :: (ts ++ [close]))
      (.class mark superclass methods) lo hi rest := by
  refine Leads.expect hbrace (Leads.bind (h [] hlength ?_ hclose) (Leads.expect hclose .refl))
  rwa [bound_below]

theorem ReadsStatement.class {methods : List Definition} (hkeyword : keyword.kind = .class)
    (hname : name.kind = .identifier) (hbrace : brace.kind = .leftBrace)
    (h : ReadsMethods c methods ts lo hi) (hclose : close.kind = .rightBrace) :
    ReadsStatement false c (.class name.toMark none methods) (keyword :: name :: brace :: (ts ++ [close]))
      lo hi := by
  refine of_declaration rfl fun {n rest} hlength => ?_
  simp only [List.length_cons, List.length_append] at hlength
  refine Leads.accept hkeyword (Leads.expectName hname (Leads.accept_none ?_ ?_))
  · rintro _ ⟨⟩
    rw [hbrace]
    nofun
  · exact h.yields_class hbrace hclose (by omega)

theorem ReadsStatement.subclass {methods : List Definition} {less parent : Token}
    (hkeyword : keyword.kind = .class) (hname : name.kind = .identifier) (hless : less.kind = .less)
    (hparent : parent.kind = .identifier) (hbrace : brace.kind = .leftBrace)
    (h : ReadsMethods c methods ts (lo + 1) hi) (hclose : close.kind = .rightBrace) :
    ReadsStatement false c (.class name.toMark (some ⟨lo, parent.toMark⟩) methods)
      (keyword :: name :: less :: parent :: brace :: (ts ++ [close])) lo hi := by
  refine of_declaration rfl fun {n rest} hlength => ?_
  simp only [List.length_cons, List.length_append] at hlength
  refine Leads.accept hkeyword (Leads.expectName hname (Leads.accept hless ?_))
  exact Leads.expectName hparent (Leads.freshId (h.yields_class hbrace hclose (by omega)))

/-- A declaration that is nested in another one, or the next one of a program. -/
theorem ReadsStatement.yields_declaration {s : Stmt} (h : ReadsStatement unfinished c s ts lo hi)
    (hlength : ts.length < n) (hrest : unfinished = true → NotElse rest) :
    Yields (below n).declaration c ts (some s) lo hi rest where
  run state hleft hcontext hid := by
    obtain ⟨n, rfl⟩ := Nat.exists_eq_add_one_of_ne_zero (Nat.ne_zero_of_lt hlength)
    have hdeclare := h.declaration (Nat.le_of_lt_succ hlength) hrest
    show (below n).declarationRule _ = _
    unfold Rules.declarationRule
    rw [hdeclare.run state hleft hcontext hid]
    rfl

theorem ReadsProgram.nil : ReadsProgram c [] [] lo lo where
  block {n count} before {close rest} _ _ hclose := by
    rw [List.append_nil]
    cases count with
    | zero => exact .refl
    | succ count => exact Leads.atEnd (Leads.next_true rfl hclose .refl)
  entries {n count} before _ _ := by
    rw [List.map_nil, List.append_nil]
    cases count with
    | zero => exact .refl
    | succ count => exact Leads.atEnd .refl

/-- No statement starts with an `else`, so nothing that follows belongs to an unfinished one. -/
theorem ReadsProgram.cons {s : Stmt} {body : List Stmt}
    (hopens : (Phrase.statement unfinished s).Opens ts)
    (hs : ReadsStatement unfinished c s ts lo mid) (hnext : NotElse ts')
    (h : ReadsProgram c body ts' mid hi) :
    ReadsProgram c (s :: body) (ts ++ ts') lo hi := by
  obtain ⟨first, more, rfl, hbrace, _⟩ := hopens
  constructor
  · intro n count before close rest hlength hcount hclose
    rw [List.length_append, List.length_cons] at hlength hcount
    obtain ⟨count, rfl⟩ := Nat.exists_eq_add_one_of_ne_zero (show count ≠ 0 by omega)
    have hmore : Yields ((below n).declarations count (s :: before)) c ts' _ mid hi (close :: rest) :=
      h.block _ (by omega) (by omega) hclose
    rw [List.reverse_cons, List.append_assoc, List.singleton_append] at hmore
    refine Leads.atEnd (Leads.next_false (by rintro _ ⟨⟩; exact hbrace) ?_)
    refine Leads.bind (hs.yields_declaration (by simp; omega) fun _ => hnext.append ?_) hmore
    rintro _ ⟨⟩
    rw [hclose]
    nofun
  · intro n count before hlength hcount
    rw [List.length_append, List.length_cons] at hlength hcount
    obtain ⟨count, rfl⟩ := Nat.exists_eq_add_one_of_ne_zero (show count ≠ 0 by omega)
    have hmore : Yields (entriesFrom (below n).declaration count (some s :: before)) c ts' _ mid hi [] :=
      h.entries _ (by omega) (by omega)
    rw [List.reverse_cons, List.append_assoc, List.singleton_append] at hmore
    refine Leads.atEnd (Leads.bind (hs.yields_declaration (by simp; omega) fun _ => ?_) hmore)
    rwa [List.append_nil]

end Reading

/-- The rules for inputs of these tokens read them as this phrase. -/
def Phrase.Reads (c : Context) : Phrase → List Token → Nat → Nat → Prop
  | .expression e, ts, lo, hi => ReadsExpression c e ts lo hi
  | .arguments es, ts, lo, hi =>
    (es = [] → ts = [] ∧ lo = hi) ∧ (es ≠ [] → Listed (ReadsExpression c) es ts lo hi)
  | .code function, ts, lo, hi => ReadsCode c function ts lo hi
  | .value e, ts, lo, hi => ReadsValue c e ts lo hi
  | .variable name e, ts, lo, hi => ReadsVariable c name e ts lo hi
  | .initial s, ts, lo, hi => ReadsInitial c s ts lo hi
  | .statement unfinished s, ts, lo, hi => ReadsStatement unfinished c s ts lo hi
  | .program body, ts, lo, hi => ReadsProgram c body ts lo hi
  | .methods ds, ts, lo, hi => ReadsMethods c ds ts lo hi

/-- The rules read whatever the grammar derives. -/
theorem Derives.reads {c : Context} {phrase : Phrase} {ts : List Token} {lo hi : Nat}
    (h : Derives c phrase ts lo hi) : phrase.Reads c ts lo hi := by
  induction h with
  | literal hkind => exact .literal (Derives.literal (c := ⟨0, true⟩) (n := 0) hkind).opens hkind
  | grouping hleft hinner hright ih =>
    exact .grouping (Derives.grouping hleft hinner hright).opens hleft ih hright
  | unary hkind _ hheight ih => exact .unary hkind ih hheight
  | binary _ hle hkind _ hlt ih ih' => exact .binary ih hle hkind ih' hlt
  | logical _ hle hkind _ hlt ih ih' => exact .logical ih hle hkind ih' hlt
  | conditional _ hle hquestion _ hcolon _ hle' ih ih' ih'' =>
    exact .conditional ih hle hquestion ih' hcolon ih'' hle'
  | comma hcommas _ hle hkind _ hlt ih ih' => exact .comma hcommas ih hle hkind ih' hlt
  | @name c _ _ hkind => exact .name (Derives.name (c := c) hkind).opens hkind
  | @assign c _ _ _ _ n _ htarget hequal _ ih =>
    exact .assign (.name (Derives.name (c := c) htarget).opens htarget) hequal ih
  | set hobject hheight hdot hproperty hequal _ ih ih' =>
    exact .set (.get (Derives.get hobject hheight hdot hproperty).opens ih hheight hdot hproperty) hequal ih'
  | call hcallee hheight hleft harguments hlimit hright ih ih' =>
    exact .call (Derives.call hcallee hheight hleft harguments hlimit hright).opens harguments.opens ih
      hheight hleft ih'.1 ih'.2 hlimit hright
  | get hobject hheight hdot hproperty ih =>
    exact .get (Derives.get hobject hheight hdot hproperty).opens ih hheight hdot hproperty
  | @this c _ _ hkind => exact .this (Derives.this (c := c) hkind).opens hkind
  | @super c _ _ _ _ hkind hdot hmethod =>
    exact .super (Derives.super (c := c) hkind hdot hmethod).opens hkind hdot hmethod
  | lambda hkind hcode ih => exact .lambda (Derives.lambda hkind hcode).opens hkind ih
  | noArguments => exact ⟨fun _ => ⟨rfl, rfl⟩, fun h => absurd rfl h⟩
  | lastArgument _ ih => exact ⟨nofun, fun _ => .last ih⟩
  | moreArguments _ hcomma hne _ ih ih' => exact ⟨nofun, fun _ => .cons ih hcomma (ih'.2 hne)⟩
  | code hleft hnames hlimit hright hbrace _ hclose ih =>
    exact .code hleft hnames hlimit hright hbrace ih hclose
  | noValue => exact ReadsValue.none
  | value he ih => exact ReadsValue.some (Derives.value he).opens ih
  | expression he hsemicolon ih => exact .expression he.opens ih hsemicolon
  | print hkeyword _ hsemicolon ih => exact .print hkeyword ih hsemicolon
  | uninitialized hname hsemicolon => exact ReadsVariable.uninitialized hname hsemicolon
  | initialized hname hequal _ hsemicolon ih => exact ReadsVariable.initialized hname hequal ih hsemicolon
  | var hkeyword _ ih => exact .var hkeyword ih
  | function hkeyword hname _ ih => exact .function hkeyword hname ih
  | «class» hkeyword hname hbrace _ hclose ih => exact .class hkeyword hname hbrace ih hclose
  | subclass hkeyword hname hless hparent hbrace _ hclose ih =>
    exact .subclass hkeyword hname hless hparent hbrace ih hclose
  | block hbrace _ hclose ih => exact .block hbrace ih hclose
  | «if» hkeyword hleft _ hright _ hplain ih ih' => exact .if hkeyword hleft ih hright ih' hplain
  | ifElse hkeyword hleft _ hright _ hplain hmiddle _ hplain' ih ih' ih'' =>
    exact .ifElse hkeyword hleft ih hright ih' hplain hmiddle ih'' hplain'
  | «while» hkeyword hleft _ hright _ hplain ih ih' => exact .while hkeyword hleft ih hright ih' hplain
  | «for» hkeyword hleft _ _ hsemicolon _ hright _ hplain ih ih' ih'' ih₃ =>
    exact .for hkeyword hleft ih ih' hsemicolon ih'' hright ih₃ hplain
  | noInitial hsemicolon => exact .none hsemicolon
  | varInitial hkeyword _ ih => exact .var hkeyword ih
  | expressionInitial he hsemicolon ih => exact .expression he.opens ih hsemicolon
  | «return» hkeyword _ hsemicolon ih => exact .return hkeyword ih hsemicolon
  | «break» hkeyword hloops hsemicolon => exact .break hkeyword hloops hsemicolon
  | nil => exact .nil
  | cons hs hbody ih ih' => exact .cons hs.opens ih hbody.program_notElse ih'
  | noMethods => exact ReadsMethods.nil
  | method hname _ _ ih ih' => exact ReadsMethods.cons hname ih ih'

/-- Tokens that derive a program are read as it, without an error. -/
theorem parse_of_derives {tokens : List Token} {program : List Stmt} {firstId nextId : Nat}
    (h : Derives ⟨0, true⟩ (.program program) (tokens.takeWhile fun token => !isEnd token) firstId nextId) :
    parse tokens firstId = ⟨program.map some, [], nextId⟩ := by
  have hlength := length_rest_start_le tokens firstId
  rw [rest_start] at hlength
  have hentries := (h.reads.entries [] (Nat.lt_succ_of_le hlength) hlength).run (State.start tokens firstId)
    (by rw [rest_start, List.append_nil]) rfl rfl
  unfold parse
  simp only
  rw [hentries]
  rfl

end Lox.Grammar
