import Lox.Grammar.Expression

namespace Lox.Grammar

/-- The kinds that start a statement, for recovery after an error. -/
def startsStatement : TokenKind → Bool
  | .class | .fun | .var | .for | .if | .while | .print | .return => true
  | _ => false

/-- How many tokens are skipped behind the token `last`, up to the next statement or the end: a statement
    starts behind a semicolon or at a keyword of its own. -/
def skipped (last : TokenKind) : List Token → Nat
  | [] => 0
  | token :: rest =>
    if isEnd token || last = .semicolon || startsStatement token.kind then 0
    else skipped token.kind rest + 1

/-- Recovery skips the token at which the error was found, whatever it is. -/
def synchronize (s : State) : State :=
  match s.next? with
  | none => s
  | some token =>
    { s with current := s.current + 1 + skipped token.kind (s.tokens.drop (s.current + 1)) }

/-- The statements that a keyword or a brace announces. -/
inductive StatementStart where
  | for
  | if
  | while
  | return
  | break
  | block
  | print
deriving DecidableEq, Repr

/-- The statement that a token announces. An expression needs no announcement. -/
def statement? : TokenKind → Option StatementStart
  | .for => some .for
  | .if => some .if
  | .while => some .while
  | .return => some .return
  | .break => some .break
  | .leftBrace => some .block
  | .print => some .print
  | _ => none

namespace Rules

variable (r : Rules)

/-- An expression as a statement of its own. -/
def expressionStatement : Reader Stmt := do
  let value ← r.assignment
  let _ ← expect .expressionEnd
  return .expression value

/-- A variable after its keyword. -/
def readVar : Reader Stmt := do
  let name ← expectName .variable
  let initial ←
    match ← accept .equal with
    | none => pure none
    | some _ => some <$> r.assignment
  let _ ← expect .variableEnd
  return .var name initial

/-- What a loop with this increment does in one round: the increment runs after the body. -/
def iteration (increment : Option Expr) (body : Stmt) : Stmt :=
  match increment with
  | none => body
  | some e => .block [body, .expression e]

/-- What a loop over `condition` with these clauses comes down to: the initializer runs before the
    loop, in a block around it. -/
def forLoop (line : Nat) (initial : Option Stmt) (condition increment : Option Expr)
    (body : Stmt) : Stmt :=
  let loop :=
    .while (condition.getD (.literal (.bool true) line)) (iteration increment body)
  match initial with
  | none => loop
  | some s => .block [s, loop]

/-- An expression unless the token `kind` stands in its place. -/
def expressionUnless (kind : TokenKind) : Reader (Option Expr) := do
  if ← next kind then return none
  some <$> r.assignment

/-- The clauses and the body of a loop whose `for` stands on line `line`. -/
def readFor (line : Nat) : Reader Stmt := do
  let _ ← expect .forClauses
  let initial ←
    match ← accept .semicolon with
    | some _ => pure none
    | none =>
      match ← accept .var with
      | some _ => some <$> r.readVar
      | none => some <$> r.expressionStatement
  let condition ← r.expressionUnless .semicolon
  let _ ← expect .forCondition
  let increment ← r.expressionUnless .rightParen
  let _ ← expect .forClausesEnd
  let body ← r.statement
  return forLoop line initial condition increment body

/-- A loop behind its keyword. -/
def readWhile : Reader Stmt := do
  let _ ← expect .whileCondition
  let condition ← r.assignment
  let _ ← expect .whileConditionEnd
  let body ← r.statement
  return .while condition body

/-- A condition with one branch or two. A second branch belongs to the nearest condition without
    one. -/
def readIf : Reader Stmt := do
  let _ ← expect .ifCondition
  let condition ← r.assignment
  let _ ← expect .ifConditionEnd
  let yes ← r.statement
  let no ←
    match ← accept .else with
    | none => pure none
    | some _ => some <$> r.statement
  return .if condition yes no

/-- A statement that prints a value. -/
def readPrint (keyword : Mark) : Reader Stmt := do
  let value ← r.assignment
  let _ ← expect .printEnd
  return .print keyword value

/-- A return, with a value or without. Where it may stand is up to static binding. -/
def readReturn (keyword : Mark) : Reader Stmt := do
  let value ← r.expressionUnless .semicolon
  let _ ← expect .returnEnd
  return .return keyword value

/-- A break. One outside of every loop is reported, and read all the same. -/
def readBreak (keyword : Mark) : Reader Stmt := do
  if (← get).context.loops = 0 then
    report .breakOutsideLoop (.ofMark keyword)
  let _ ← expect .breakEnd
  return .break keyword

/-- A statement that is no declaration. Loops are read in a context with one loop more. -/
def statementRule : Reader Stmt := do
  match ← take? statement? with
  | none => r.expressionStatement
  | some (.for, mark) => within .loop (r.readFor mark.line)
  | some (.if, _) => r.readIf
  | some (.while, _) => within .loop r.readWhile
  | some (.return, mark) => r.readReturn mark
  | some (.break, mark) => readBreak mark
  | some (.block, _) => return .block (← r.block)
  | some (.print, mark) => r.readPrint mark

/-- A name and the code that it names. -/
def definition (role : CodeRole) (name : NameRole) : Reader Definition := do
  let name ← expectName name
  return ⟨name, ← r.code role⟩

/-- Methods up to a closing brace or the end, behind those already read, which come last first. -/
def methods : (count : Nat) → (before : List Definition) → Reader (List Definition)
  | 0, before => return before.reverse
  | count + 1, before => do
    if (← atEnd) || (← next .rightBrace) then
      return before.reverse
    let method ← r.definition .method .method
    methods count (method :: before)

/-- A class behind its keyword. Its methods are read without a function keyword. -/
def readClass : Reader Stmt := do
  let name ← expectName .class
  let superclass ←
    match ← accept .less with
    | none => pure none
    | some _ =>
      let mark ← expectName .superclass
      pure (some ⟨← freshId, mark⟩)
  let _ ← expect .classBody
  let methods ← r.methods r.bound []
  let _ ← expect .classEnd
  return .class name superclass methods

/-- A function keyword starts a definition only if a name follows it; otherwise it starts a lambda. -/
def definesFunction : Reader Bool := fun s =>
  .ok (s.next?.any (·.kind = .fun) && s.second?.any (·.kind = .identifier)) s

/-- A declaration, or a statement in the place of one. -/
def declare : Reader Stmt := do
  match ← accept .class with
  | some _ => r.readClass
  | none =>
    if ← definesFunction then
      let _ ← accept .fun
      return .function (← r.definition .function .function)
    match ← accept .var with
    | some _ => r.readVar
    | none => r.statementRule

/-- A declaration, or nothing where there is an error. The error is noted and the reader goes on
    where the next declaration seems to start. -/
def declarationRule : Reader (Option Stmt) := fun s =>
  match r.declare s with
  | .ok stmt after => .ok (some stmt) after
  | .error e after =>
    .ok none (synchronize { after with errors := e :: after.errors })

/-- The rules with these ones nested in them. They take a token before they nest, so one token more
    is within their reach. -/
def nest : Rules :=
  ⟨r.bound + 1, r.expressionAt, r.statementRule, r.declarationRule⟩

/-- No rule: nothing can be read when there is nothing to read from. -/
def none : Rules :=
  ⟨0, fun _ => fail .expectedExpression, fail .expectedExpression, fail .expectedExpression⟩

/-- The rules for inputs of fewer than `count` tokens. -/
def below : (count : Nat) → Rules
  | 0 => none
  | count + 1 =>
    ⟨count + 1, fun level s => (below count).nest.expression level s,
      fun s => (below count).nest.statement s, fun s => (below count).nest.declaration s⟩

end Rules

end Lox.Grammar
