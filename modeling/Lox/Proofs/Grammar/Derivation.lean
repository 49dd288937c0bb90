import Lox.Grammar.Statement
import Lox.Proofs.Grammar.Ladder

namespace Lox

/-- What can only stand where a declaration can. -/
def Stmt.isDeclaration : Stmt → Bool
  | var _ _ | function _ | .class _ _ _ => true
  | _ => false

namespace Grammar

/-- What a run of tokens can say. -/
inductive Phrase where
  | expression (e : Expr)
  /-- Arguments, without the parentheses around them. -/
  | arguments (es : List Expr)
  /-- The parameters and the body of a function. -/
  | code (code : Lambda)
  /-- An expression that may be left out. -/
  | value (e : Option Expr)
  /-- A variable behind its keyword. -/
  | variable (name : Mark) (initial : Option Expr)
  /-- The first clause of a loop, with its semicolon. -/
  | initial (s : Option Stmt)
  /-- A statement or a declaration. An unfinished one ends in an `if` that an `else` could still
      belong to. -/
  | statement (unfinished : Bool) (s : Stmt)
  | program (body : List Stmt)
  | methods (ds : List Definition)

/-- Items with commas between them take these tokens. -/
inductive Listed {α : Type} (item : α → List Token → Nat → Nat → Prop) :
    List α → List Token → Nat → Nat → Prop where
  | last {x : α} {ts : List Token} {lo hi : Nat} : item x ts lo hi → Listed item [x] ts lo hi
  | cons {x : α} {xs : List α} {comma : Token} {ts ts' : List Token} {lo mid hi : Nat} :
    item x ts lo mid → comma.kind = .comma → Listed item xs ts' mid hi →
    Listed item (x :: xs) (ts ++ comma :: ts') lo hi

theorem Listed.ne_nil {α : Type} {item : α → List Token → Nat → Nat → Prop} {xs : List α}
    {ts : List Token} {lo hi : Nat} (h : Listed item xs ts lo hi) : xs ≠ [] := by
  cases h <;> exact List.cons_ne_nil _ _

/-- Names with commas between them. -/
inductive Names : List Mark → List Token → Prop where
  | nil : Names [] []
  | last {name : Token} : name.kind = .identifier → Names [name.toMark] [name]
  | cons {name comma : Token} {params : List Mark} {ts : List Token} : name.kind = .identifier →
    comma.kind = .comma → params ≠ [] → Names params ts →
    Names (name.toMark :: params) (name :: comma :: ts)

/-- The tokens say the phrase in this context, and its occurrences get the numbers from the first one
    up to the second one. Operands stand on the ladder as their operators ask, and an `else` belongs
    to the nearest `if`. -/
inductive Derives : Context → Phrase → List Token → Nat → Nat → Prop where
  | literal {c : Context} {token : Token} {value : Literal} {n : Nat} : token.kind = value.kind →
    Derives c (.expression (.literal value token.line)) [token] n n
  | grouping {c : Context} {left right : Token} {inner : Expr} {ts : List Token} {lo hi : Nat} :
    left.kind = .leftParen → Derives c.inGrouping (.expression inner) ts lo hi →
    right.kind = .rightParen →
    Derives c (.expression (.grouping inner)) (left :: (ts ++ [right])) lo hi
  | unary {c : Context} {token : Token} {op : UnaryOp} {right : Expr} {ts : List Token}
      {lo hi : Nat} :
    token.kind = op.kind → Derives c (.expression right) ts lo hi →
    Level.unary.height ≤ right.height →
    Derives c (.expression (.unary op token.toMark right)) (token :: ts) lo hi
  | binary {c : Context} {token : Token} {op : BinaryOp} {left right : Expr} {ts ts' : List Token}
      {lo mid hi : Nat} :
    Derives c (.expression left) ts lo mid → op.level.height ≤ left.height →
    token.kind = op.kind → Derives c (.expression right) ts' mid hi →
    op.level.height < right.height →
    Derives c (.expression (.binary op token.toMark left right)) (ts ++ token :: ts') lo hi
  | logical {c : Context} {token : Token} {op : LogicalOp} {left right : Expr}
      {ts ts' : List Token} {lo mid hi : Nat} :
    Derives c (.expression left) ts lo mid → op.level.height ≤ left.height →
    token.kind = op.kind → Derives c (.expression right) ts' mid hi →
    op.level.height < right.height →
    Derives c (.expression (.logical op token.toMark left right)) (ts ++ token :: ts') lo hi
  | conditional {c : Context} {question colon : Token} {condition yes no : Expr}
      {ts ts' ts'' : List Token} {lo mid mid' hi : Nat} :
    Derives c (.expression condition) ts lo mid → Level.comma.height ≤ condition.height →
    question.kind = .question → Derives c (.expression yes) ts' mid mid' →
    colon.kind = .colon → Derives c (.expression no) ts'' mid' hi →
    Level.conditional.height ≤ no.height →
    Derives c (.expression (.conditional condition yes no))
      (ts ++ question :: (ts' ++ colon :: ts'')) lo hi
  | comma {c : Context} {token : Token} {left right : Expr} {ts ts' : List Token}
      {lo mid hi : Nat} :
    c.commas = true → Derives c (.expression left) ts lo mid →
    Level.comma.height ≤ left.height → token.kind = .comma →
    Derives c (.expression right) ts' mid hi → Level.comma.height < right.height →
    Derives c (.expression (.comma left right)) (ts ++ token :: ts') lo hi
  | name {c : Context} {token : Token} {n : Nat} : token.kind = .identifier →
    Derives c (.expression (.name ⟨n, token.toMark⟩)) [token] n (n + 1)
  /-- The number that the target had as a name is left out. -/
  | assign {c : Context} {target equal : Token} {value : Expr} {ts : List Token} {lo mid : Nat} :
    target.kind = .identifier → equal.kind = .equal →
    Derives c (.expression value) ts (lo + 1) mid →
    Derives c (.expression (.assign ⟨mid, target.toMark⟩ value)) (target :: equal :: ts) lo (mid + 1)
  | set {c : Context} {dot property equal : Token} {object value : Expr} {ts ts' : List Token}
      {lo mid hi : Nat} :
    Derives c (.expression object) ts lo mid → callHeight ≤ object.height →
    dot.kind = .dot → property.kind = .identifier → equal.kind = .equal →
    Derives c (.expression value) ts' mid hi →
    Derives c (.expression (.set object property.toMark value))
      (ts ++ dot :: property :: equal :: ts') lo hi
  | call {c : Context} {left right : Token} {callee : Expr} {arguments : List Expr}
      {ts ts' : List Token} {lo mid hi : Nat} :
    Derives c (.expression callee) ts lo mid → callHeight ≤ callee.height →
    left.kind = .leftParen → Derives c.inArguments (.arguments arguments) ts' mid hi →
    arguments.length ≤ maxArguments → right.kind = .rightParen →
    Derives c (.expression (.call callee right.toMark arguments)) (ts ++ left :: (ts' ++ [right]))
      lo hi
  | get {c : Context} {dot property : Token} {object : Expr} {ts : List Token} {lo hi : Nat} :
    Derives c (.expression object) ts lo hi → callHeight ≤ object.height →
    dot.kind = .dot → property.kind = .identifier →
    Derives c (.expression (.get object property.toMark)) (ts ++ [dot, property]) lo hi
  | this {c : Context} {token : Token} {n : Nat} : token.kind = .this →
    Derives c (.expression (.this ⟨n, token.toMark⟩)) [token] n (n + 1)
  | super {c : Context} {token dot method : Token} {n : Nat} :
    token.kind = .super → dot.kind = .dot → method.kind = .identifier →
    Derives c (.expression (.super ⟨n, token.toMark⟩ method.toMark)) [token, dot, method] n (n + 1)
  | lambda {c : Context} {keyword : Token} {code : Lambda} {ts : List Token} {lo hi : Nat} :
    keyword.kind = .fun → Derives c (.code code) ts lo hi →
    Derives c (.expression (.lambda keyword.toMark code)) (keyword :: ts) lo hi
  | noArguments {c : Context} {n : Nat} : Derives c (.arguments []) [] n n
  | lastArgument {c : Context} {e : Expr} {ts : List Token} {lo hi : Nat} :
    Derives c (.expression e) ts lo hi → Derives c (.arguments [e]) ts lo hi
  | moreArguments {c : Context} {comma : Token} {e : Expr} {es : List Expr} {ts ts' : List Token}
      {lo mid hi : Nat} :
    Derives c (.expression e) ts lo mid → comma.kind = .comma → es ≠ [] →
    Derives c (.arguments es) ts' mid hi →
    Derives c (.arguments (e :: es)) (ts ++ comma :: ts') lo hi
  | code {c : Context} {left right brace close : Token} {params : List Mark} {body : List Stmt}
      {ts ts' : List Token} {lo hi : Nat} :
    left.kind = .leftParen → Names params ts → params.length ≤ maxArguments →
    right.kind = .rightParen → brace.kind = .leftBrace →
    Derives c.inBody (.program body) ts' lo hi → close.kind = .rightBrace →
    Derives c (.code ⟨params, body⟩) (left :: (ts ++ right :: brace :: (ts' ++ [close]))) lo hi
  | noValue {c : Context} {n : Nat} : Derives c (.value none) [] n n
  | value {c : Context} {e : Expr} {ts : List Token} {lo hi : Nat} :
    Derives c (.expression e) ts lo hi → Derives c (.value (some e)) ts lo hi
  | expression {c : Context} {semicolon : Token} {value : Expr} {ts : List Token} {lo hi : Nat} :
    Derives c (.expression value) ts lo hi → semicolon.kind = .semicolon →
    Derives c (.statement false (.expression value)) (ts ++ [semicolon]) lo hi
  | print {c : Context} {keyword semicolon : Token} {value : Expr} {ts : List Token} {lo hi : Nat} :
    keyword.kind = .print → Derives c (.expression value) ts lo hi →
    semicolon.kind = .semicolon →
    Derives c (.statement false (.print keyword.toMark value)) (keyword :: (ts ++ [semicolon])) lo hi
  | uninitialized {c : Context} {name semicolon : Token} {n : Nat} :
    name.kind = .identifier → semicolon.kind = .semicolon →
    Derives c (.variable name.toMark none) [name, semicolon] n n
  | initialized {c : Context} {name equal semicolon : Token} {value : Expr} {ts : List Token}
      {lo hi : Nat} :
    name.kind = .identifier → equal.kind = .equal → Derives c (.expression value) ts lo hi →
    semicolon.kind = .semicolon →
    Derives c (.variable name.toMark (some value)) (name :: equal :: (ts ++ [semicolon])) lo hi
  | var {c : Context} {keyword : Token} {name : Mark} {initial : Option Expr} {ts : List Token}
      {lo hi : Nat} :
    keyword.kind = .var → Derives c (.variable name initial) ts lo hi →
    Derives c (.statement false (.var name initial)) (keyword :: ts) lo hi
  | function {c : Context} {keyword name : Token} {code : Lambda} {ts : List Token} {lo hi : Nat} :
    keyword.kind = .fun → name.kind = .identifier → Derives c (.code code) ts lo hi →
    Derives c (.statement false (.function ⟨name.toMark, code⟩)) (keyword :: name :: ts) lo hi
  | class {c : Context} {keyword name brace close : Token} {methods : List Definition}
      {ts : List Token} {lo hi : Nat} :
    keyword.kind = .class → name.kind = .identifier → brace.kind = .leftBrace →
    Derives c (.methods methods) ts lo hi → close.kind = .rightBrace →
    Derives c (.statement false (.class name.toMark none methods))
      (keyword :: name :: brace :: (ts ++ [close])) lo hi
  | subclass {c : Context} {keyword name less parent brace close : Token}
      {methods : List Definition} {ts : List Token} {lo hi : Nat} :
    keyword.kind = .class → name.kind = .identifier → less.kind = .less →
    parent.kind = .identifier → brace.kind = .leftBrace →
    Derives c (.methods methods) ts (lo + 1) hi → close.kind = .rightBrace →
    Derives c (.statement false (.class name.toMark (some ⟨lo, parent.toMark⟩) methods))
      (keyword :: name :: less :: parent :: brace :: (ts ++ [close])) lo hi
  | block {c : Context} {brace close : Token} {body : List Stmt} {ts : List Token} {lo hi : Nat} :
    brace.kind = .leftBrace → Derives c (.program body) ts lo hi → close.kind = .rightBrace →
    Derives c (.statement false (.block body)) (brace :: (ts ++ [close])) lo hi
  | if {c : Context} {keyword left right : Token} {condition : Expr} {yes : Stmt}
      {unfinished : Bool} {ts ts' : List Token} {lo mid hi : Nat} :
    keyword.kind = .if → left.kind = .leftParen → Derives c (.expression condition) ts lo mid →
    right.kind = .rightParen → Derives c (.statement unfinished yes) ts' mid hi →
    yes.isDeclaration = false →
    Derives c (.statement true (.if condition yes none)) (keyword :: left :: (ts ++ right :: ts')) lo hi
  | ifElse {c : Context} {keyword left right middle : Token} {condition : Expr} {yes no : Stmt}
      {unfinished : Bool} {ts ts' ts'' : List Token} {lo mid mid' hi : Nat} :
    keyword.kind = .if → left.kind = .leftParen → Derives c (.expression condition) ts lo mid →
    right.kind = .rightParen → Derives c (.statement false yes) ts' mid mid' →
    yes.isDeclaration = false → middle.kind = .else →
    Derives c (.statement unfinished no) ts'' mid' hi → no.isDeclaration = false →
    Derives c (.statement unfinished (.if condition yes (some no)))
      (keyword :: left :: (ts ++ right :: (ts' ++ middle :: ts''))) lo hi
  | while {c : Context} {keyword left right : Token} {condition : Expr} {body : Stmt}
      {unfinished : Bool} {ts ts' : List Token} {lo mid hi : Nat} :
    keyword.kind = .while → left.kind = .leftParen →
    Derives c.inLoop (.expression condition) ts lo mid → right.kind = .rightParen →
    Derives c.inLoop (.statement unfinished body) ts' mid hi → body.isDeclaration = false →
    Derives c (.statement unfinished (.while condition body))
      (keyword :: left :: (ts ++ right :: ts')) lo hi
  | for {c : Context} {keyword left semicolon right : Token} {initial : Option Stmt}
      {condition increment : Option Expr} {body : Stmt} {unfinished : Bool}
      {ts ts' ts'' ts₃ : List Token} {lo mid mid' mid'' hi : Nat} :
    keyword.kind = .for → left.kind = .leftParen →
    Derives c.inLoop (.initial initial) ts lo mid →
    Derives c.inLoop (.value condition) ts' mid mid' → semicolon.kind = .semicolon →
    Derives c.inLoop (.value increment) ts'' mid' mid'' → right.kind = .rightParen →
    Derives c.inLoop (.statement unfinished body) ts₃ mid'' hi → body.isDeclaration = false →
    Derives c (.statement unfinished (Rules.forLoop keyword.line initial condition increment body))
      (keyword :: left :: (ts ++ (ts' ++ semicolon :: (ts'' ++ right :: ts₃)))) lo hi
  | noInitial {c : Context} {semicolon : Token} {n : Nat} : semicolon.kind = .semicolon →
    Derives c (.initial none) [semicolon] n n
  | varInitial {c : Context} {keyword : Token} {name : Mark} {initial : Option Expr}
      {ts : List Token} {lo hi : Nat} :
    keyword.kind = .var → Derives c (.variable name initial) ts lo hi →
    Derives c (.initial (some (.var name initial))) (keyword :: ts) lo hi
  | expressionInitial {c : Context} {semicolon : Token} {value : Expr} {ts : List Token}
      {lo hi : Nat} :
    Derives c (.expression value) ts lo hi → semicolon.kind = .semicolon →
    Derives c (.initial (some (.expression value))) (ts ++ [semicolon]) lo hi
  | return {c : Context} {keyword semicolon : Token} {value : Option Expr} {ts : List Token}
      {lo hi : Nat} :
    keyword.kind = .return → Derives c (.value value) ts lo hi → semicolon.kind = .semicolon →
    Derives c (.statement false (.return keyword.toMark value)) (keyword :: (ts ++ [semicolon])) lo hi
  | break {c : Context} {keyword semicolon : Token} {n : Nat} :
    keyword.kind = .break → c.loops ≠ 0 → semicolon.kind = .semicolon →
    Derives c (.statement false (.break keyword.toMark)) [keyword, semicolon] n n
  | nil {c : Context} {n : Nat} : Derives c (.program []) [] n n
  | cons {c : Context} {s : Stmt} {unfinished : Bool} {body : List Stmt} {ts ts' : List Token}
      {lo mid hi : Nat} :
    Derives c (.statement unfinished s) ts lo mid → Derives c (.program body) ts' mid hi →
    Derives c (.program (s :: body)) (ts ++ ts') lo hi
  | noMethods {c : Context} {n : Nat} : Derives c (.methods []) [] n n
  | method {c : Context} {name : Token} {code : Lambda} {methods : List Definition}
      {ts ts' : List Token} {lo mid hi : Nat} :
    name.kind = .identifier → Derives c (.code code) ts lo mid →
    Derives c (.methods methods) ts' mid hi →
    Derives c (.methods (⟨name.toMark, code⟩ :: methods)) (name :: (ts ++ ts')) lo hi

theorem Rules.bound_below (count : Nat) : (Rules.below count).bound = count := by
  cases count <;> rfl

/-- Arguments in a list are derived one by one. -/
theorem Listed.arguments {c : Context} {es : List Expr} {ts : List Token} {lo hi : Nat}
    (h : Listed (fun e => Derives c (.expression e)) es ts lo hi) :
    Derives c (.arguments es) ts lo hi := by
  induction h with
  | last he => exact .lastArgument he
  | cons he hcomma hrest ih => exact .moreArguments he hcomma hrest.ne_nil ih

/-- A name has no number where it is not the use of one. -/
def IsName (name : Mark) (ts : List Token) (lo hi : Nat) : Prop :=
  ∃ token : Token, token.kind = .identifier ∧ name = token.toMark ∧ ts = [token] ∧ lo = hi

/-- Names in a list take no numbers. -/
theorem Listed.names {params : List Mark} {ts : List Token} {lo hi : Nat}
    (h : Listed IsName params ts lo hi) : Names params ts ∧ lo = hi := by
  induction h with
  | last hname =>
    obtain ⟨token, hkind, rfl, rfl, rfl⟩ := hname
    exact ⟨.last hkind, rfl⟩
  | cons hname hcomma hrest ih =>
    obtain ⟨token, hkind, rfl, rfl, rfl⟩ := hname
    exact ⟨.cons hkind hcomma hrest.ne_nil ih.1, ih.2⟩

/-- Names with commas between them are a list if there is one. -/
theorem Names.listed {params : List Mark} {ts : List Token} (h : Names params ts) (hne : params ≠ [])
    (n : Nat) : Listed IsName params ts n n := by
  induction h with
  | nil => exact absurd rfl hne
  | last hname => exact .last ⟨_, hname, rfl, rfl, rfl⟩
  | cons hname hcomma hmore _ ih => exact .cons ⟨_, hname, rfl, rfl, rfl⟩ hcomma (ih hmore)

/-- No `else` comes next. -/
def NotElse (rest : List Token) : Prop :=
  ∀ token ∈ rest.head?, token.kind ≠ .else

/-- The kind of the token that announces a statement. -/
def StatementStart.kind : StatementStart → TokenKind
  | .for => .for
  | .if => .if
  | .while => .while
  | .return => .return
  | .break => .break
  | block => .leftBrace
  | print => .print

/-- A keyword announces just one kind of statement. -/
theorem statement?_eq_some (start : StatementStart) {k : TokenKind} :
    statement? k = some start ↔ k = start.kind := by
  constructor
  · cases k <;> rintro ⟨⟩ <;> rfl
  · rintro rfl
    cases start <;> rfl

/-- The kinds of tokens that an expression can start with; a call can start with no operator. -/
def StartsExpression (e : Expr) (kind : TokenKind) : Prop :=
  (start? kind).isSome ∨ (unaryOp? kind).isSome ∧ e.height ≤ Level.unary.height

/-- How a phrase starts. A `fun` that starts an expression is not followed by a name. -/
def Phrase.Opens : Phrase → List Token → Prop
  | expression e, ts => ∃ first rest, ts = first :: rest ∧ StartsExpression e first.kind ∧
      (first.kind = .fun → ∃ second more, rest = second :: more ∧ second.kind = .leftParen)
  | code _, ts => ∃ first rest, ts = first :: rest ∧ first.kind = .leftParen
  | arguments (_ :: _), ts | value (some _), ts => ∃ first rest, ts = first :: rest ∧
      first.kind ≠ .semicolon ∧ first.kind ≠ .rightParen
  | statement _ _, ts => ∃ first rest, ts = first :: rest ∧
      first.kind ≠ .rightBrace ∧ first.kind ≠ .else
  | _, _ => True

/-- What starts an expression ends nothing else. -/
theorem StartsExpression.not_closing {e : Expr} {kind : TokenKind} (h : StartsExpression e kind) :
    kind ≠ .rightBrace ∧ kind ≠ .else ∧ kind ≠ .semicolon ∧ kind ≠ .rightParen := by
  refine ⟨?_, ?_, ?_, ?_⟩
  all_goals
    rintro rfl
    rcases h with h | ⟨h, _⟩ <;> cases h

/-- A left operand opens what its operator opens. -/
private theorem opens_operator {e left : Expr} {ts rest : List Token}
    (h : (Phrase.expression left).Opens ts) (hle : e.height ≤ left.height) :
    (Phrase.expression e).Opens (ts ++ rest) := by
  obtain ⟨first, more, rfl, hstart, hfun⟩ := h
  refine ⟨first, more ++ rest, rfl, hstart.imp_right fun h => ⟨h.1, Nat.le_trans hle h.2⟩,
    fun hkind => ?_⟩
  obtain ⟨second, more', rfl, hsecond⟩ := hfun hkind
  exact ⟨second, more' ++ rest, rfl, hsecond⟩

private theorem opens_primary {e : Expr} {token : Token} {rest : List Token} (start : Start)
    (hkind : token.kind = start.kind) (hfun : token.kind ≠ .fun) :
    (Phrase.expression e).Opens (token :: rest) :=
  ⟨token, rest, rfl, .inl (by rw [(start?_eq_some start).mpr hkind]; rfl), fun h => absurd h hfun⟩

/-- The first token tells what a phrase is. -/
theorem Derives.opens {c : Context} {phrase : Phrase} {ts : List Token} {lo hi : Nat}
    (h : Derives c phrase ts lo hi) : phrase.Opens ts := by
  induction h with
  | @literal _ token value n hkind =>
    refine opens_primary (.literal value) hkind ?_
    rw [hkind]
    rcases value with x | s | (_ | _) | _ <;> nofun
  | grouping hleft _ _ _ => exact opens_primary .grouping hleft (by rw [hleft]; nofun)
  | @unary _ token op _ _ _ _ hkind _ _ _ =>
    refine ⟨token, _, rfl, .inr ⟨?_, Nat.le_refl _⟩, fun h => ?_⟩
    · rw [unaryOp?_eq_some.mpr hkind]
      rfl
    · rw [hkind] at h
      cases op <;> cases h
  | binary _ hle _ _ _ ih _ => exact opens_operator ih hle
  | logical _ hle _ _ _ ih _ => exact opens_operator ih hle
  | conditional _ hle _ _ _ _ _ ih _ _ => exact opens_operator ih (Nat.le_of_succ_le hle)
  | comma _ _ hle _ _ _ ih _ => exact opens_operator ih hle
  | name hkind => exact opens_primary .name hkind (by rw [hkind]; nofun)
  | assign htarget _ _ _ => exact opens_primary .name htarget (by rw [htarget]; nofun)
  | set _ hle _ _ _ _ ih _ => exact opens_operator ih (Nat.zero_le _)
  | call _ hle _ _ _ _ ih _ => exact opens_operator ih hle
  | get _ hle _ _ ih => exact opens_operator ih hle
  | this hkind => exact opens_primary .this hkind (by rw [hkind]; nofun)
  | super hkind _ _ => exact opens_primary .super hkind (by rw [hkind]; nofun)
  | @lambda _ keyword code ts _ _ hkind _ ih =>
    obtain ⟨first, rest, rfl, hfirst⟩ := ih
    refine ⟨keyword, first :: rest, rfl, .inl ?_, fun _ => ⟨first, rest, rfl, hfirst⟩⟩
    rw [hkind]
    rfl
  | code hleft _ _ _ _ _ _ _ => exact ⟨_, _, rfl, hleft⟩
  | expression _ _ ih =>
    obtain ⟨first, rest, rfl, hstart, _⟩ := ih
    -- An expression statement starts as its expression does, which closes nothing and is no `else`.
    exact ⟨first, _, rfl, hstart.not_closing.1, hstart.not_closing.2.1⟩
  | print hkeyword | var hkeyword | function hkeyword | «class» hkeyword
  | subclass hkeyword | block hkeyword | «if» hkeyword | ifElse hkeyword | «while» hkeyword
  | «for» hkeyword | «return» hkeyword | «break» hkeyword =>
    refine ⟨_, _, rfl, ?_, ?_⟩ <;>
    · rw [hkeyword]
      nofun
  | lastArgument _ ih | value _ ih =>
    obtain ⟨first, rest, rfl, hstart, _⟩ := ih
    exact ⟨first, rest, rfl, hstart.not_closing.2.2⟩
  | moreArguments _ _ _ _ ih _ =>
    obtain ⟨first, rest, rfl, hstart, _⟩ := ih
    exact ⟨first, _, rfl, hstart.not_closing.2.2⟩
  | noArguments | noValue | uninitialized | initialized
  | noInitial | varInitial | expressionInitial | nil | cons | noMethods | method => trivial

/-- A statement takes a token at least. -/
theorem Derives.statement_ne_nil {c : Context} {unfinished : Bool} {s : Stmt} {ts : List Token}
    {lo hi : Nat} (h : Derives c (.statement unfinished s) ts lo hi) : ts ≠ [] := by
  obtain ⟨first, rest, rfl, _⟩ := h.opens
  exact List.cons_ne_nil first rest

/-- No branch that is left over starts where none did. -/
theorem NotElse.append {ts rest : List Token} (h : NotElse ts) (hrest : NotElse rest) :
    NotElse (ts ++ rest) := by
  cases ts with
  | nil => exact hrest
  | cons first more => exact h

/-- No statement starts with an `else`. -/
theorem Derives.program_notElse {c : Context} {body : List Stmt} {ts : List Token} {lo hi : Nat}
    (h : Derives c (.program body) ts lo hi) : NotElse ts := by
  cases h with
  | nil => nofun
  | cons hs _ =>
    obtain ⟨first, more, rfl, _, helse⟩ := hs.opens
    rintro _ ⟨⟩
    exact helse

end Grammar

end Lox
