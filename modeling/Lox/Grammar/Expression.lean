import Lox.Grammar.Basic

namespace Lox.Grammar

/-- The levels of precedence below which the grammar starts again. -/
inductive Level where
  | assignment
  | or
  | and
  | conditional
  | comma
  | equality
  | comparison
  | term
  | factor
  | unary
deriving DecidableEq, Repr

/-- The rules that others nest, for inputs of fewer than `bound` tokens. A declaration reports its
    own failure and then has no result. -/
structure Rules where
  bound : Nat
  expression : Level → Reader Expr
  statement : Reader Stmt
  declaration : Reader (Option Stmt)

/-- The operators that stand before one operand. -/
def unaryOp? : TokenKind → Option UnaryOp
  | .minus => some .negate
  | .bang => some .not
  | _ => none

/-- The operator of the loosest level of choices. -/
def orOp? : TokenKind → Option LogicalOp
  | .or => some .or
  | _ => none

/-- The operator of the level below `or`. -/
def andOp? : TokenKind → Option LogicalOp
  | .and => some .and
  | _ => none

/-- The operators of the level that compares any values. -/
def equalityOp? : TokenKind → Option BinaryOp
  | .equalEqual => some .equal
  | .bangEqual => some .notEqual
  | _ => none

/-- The operators of the level that compares numbers. -/
def comparisonOp? : TokenKind → Option BinaryOp
  | .less => some .less
  | .lessEqual => some .lessEqual
  | .greater => some .greater
  | .greaterEqual => some .greaterEqual
  | _ => none

/-- The operators of sums, the minus among them. -/
def termOp? : TokenKind → Option BinaryOp
  | .plus => some .add
  | .minus => some .subtract
  | _ => none

/-- The operators of products. -/
def factorOp? : TokenKind → Option BinaryOp
  | .star => some .multiply
  | .slash => some .divide
  | _ => none

/-- A comma as an operator: it has no name of its own, since there is one of its level only. -/
def commaOp? : TokenKind → Option Unit
  | .comma => some ()
  | _ => none

/-- What a primary expression can start with. -/
inductive Start where
  | literal (value : Literal)
  | name
  | this
  | super
  | lambda
  | grouping
deriving DecidableEq, Repr

/-- What a token starts as a primary expression. A literal carries its value. -/
def start? : TokenKind → Option Start
  | .identifier => some .name
  | .this => some .this
  | .super => some .super
  | .fun => some .lambda
  | .leftParen => some .grouping
  | kind => kind.literal?.map .literal

/-- What can follow a callee. -/
inductive Suffix where
  | arguments
  | property
deriving DecidableEq, Repr

/-- What a token continues a callee with. -/
def suffix? : TokenKind → Option Suffix
  | .leftParen => some .arguments
  | .dot => some .property
  | _ => none

/-- The operators that cannot start an operand. A minus can. -/
def binaryOnlyOp? : TokenKind → Option BinaryOp
  | .minus => none
  | kind => equalityOp? kind <|> comparisonOp? kind <|> termOp? kind <|> factorOp? kind

/-- The level of an operator's right operand. -/
def rightLevel : BinaryOp → Level
  | .equal | .notEqual => .comparison
  | .less | .lessEqual | .greater | .greaterEqual => .term
  | .add | .subtract => .factor
  | .multiply | .divide => .unary

/-- A left-associative run of operators after a first operand; at most `operators` of them. -/
def chainFrom {op : Type} (operand : Reader Expr) (operator? : TokenKind → Option op)
    (join : op → Mark → Expr → Expr → Expr) : (operators : Nat) → Expr → Reader Expr
  | 0, left => return left
  | operators + 1, left => do
    match ← take? operator? with
    | none => return left
    | some (o, mark) =>
      let right ← operand
      chainFrom operand operator? join operators (join o mark left right)

/-- Operands of one level with operators of the next looser level between them. -/
def chain {op : Type} (operators : Nat) (operand : Reader Expr) (operator? : TokenKind → Option op)
    (join : op → Mark → Expr → Expr → Expr) : Reader Expr := do
  let first ← operand
  chainFrom operand operator? join operators first

namespace Rules

variable (r : Rules)

/-- Declarations up to a closing brace or the end; those that failed are left out. -/
def declarations : (count : Nat) → (before : List Stmt) → Reader (List Stmt)
  | 0, before => return before.reverse
  | count + 1, before => do
    if (← atEnd) || (← next .rightBrace) then
      return before.reverse
    match ← r.declaration with
    | none => declarations count before
    | some s => declarations count (s :: before)

/-- The rest of a block whose opening brace has been taken. -/
def block : Reader (List Stmt) := do
  let body ← r.declarations r.bound []
  let _ ← expect .blockEnd
  return body

/-- Parameters and body, the same for functions, methods and lambdas. -/
def code (role : CodeRole) : Reader Lambda := do
  let _ ← expect (.parameters role)
  let params ←
    if ← next .rightParen then pure []
    else separated .tooManyParameters (expectName .parameter) r.bound []
  let _ ← expect .parametersEnd
  let _ ← expect (.body role)
  let body ← within .body r.block
  return ⟨params, body⟩

/-- A primary expression. The word `super` stands for nothing without the method behind it. -/
def primary : Reader Expr := do
  match ← take? start? with
  | none => fail .expectedExpression
  | some (.literal value, mark) => return .literal value mark.line
  | some (.name, mark) => return .name ⟨← freshId, mark⟩
  | some (.this, mark) => return .this ⟨← freshId, mark⟩
  | some (.super, mark) =>
    let _ ← expect .superMethod
    let method ← expectName .superclassMethod
    return .super ⟨← freshId, mark⟩ method
  | some (.lambda, mark) => return .lambda mark (← r.code .function)
  | some (.grouping, _) =>
    let inner ← within .grouping (r.expression .assignment)
    let _ ← expect .groupingEnd
    return .grouping inner

/-- Arguments up to the closing parenthesis; between them a comma only separates. -/
def arguments : Reader (List Expr) := do
  if ← next .rightParen then return []
  separated .tooManyArguments (r.expression .assignment) r.bound []

/-- Calls and properties after a callee; at most `suffixes` of them. -/
def callFrom : (suffixes : Nat) → Expr → Reader Expr
  | 0, callee => return callee
  | suffixes + 1, callee => do
    match ← take? suffix? with
    | none => return callee
    | some (.arguments, _) =>
      let arguments ← within .arguments r.arguments
      let paren ← expect .argumentsEnd
      callFrom suffixes (.call callee paren arguments)
    | some (.property, _) =>
      let property ← expectName .property
      callFrom suffixes (.get callee property)

/-- A call, or whatever a primary expression is when nothing follows it. -/
def call : Reader Expr := do
  let callee ← r.primary
  r.callFrom r.bound callee

/-- An operator that needs a left operand is reported where an operand should start, and its right
    operand is read all the same, so that later errors show too. -/
def unary : Reader Expr := do
  match ← take? unaryOp? with
  | some (op, mark) => return .unary op mark (← r.expression .unary)
  | none =>
    match ← take? binaryOnlyOp? with
    | some (op, mark) =>
      report .missingLeftOperand (.ofMark mark)
      return .unpaired op mark (← r.expression (rightLevel op))
    | none => r.call

/-- Products of operands with signs. -/
def factor : Reader Expr :=
  chain r.bound r.unary factorOp? .binary

/-- Sums of products. -/
def term : Reader Expr :=
  chain r.bound r.factor termOp? .binary

/-- Comparisons of sums by size. -/
def comparison : Reader Expr :=
  chain r.bound r.term comparisonOp? .binary

/-- Comparisons of any values for equality. -/
def equality : Reader Expr :=
  chain r.bound r.comparison equalityOp? .binary

/-- Expressions in a row, where a comma is an operator. Where it only separates, this level has
    nothing of its own. -/
def comma : Reader Expr := do
  if (← get).context.commas then
    chain r.bound r.equality commaOp? fun _ _ left right => .comma left right
  else
    r.equality

/-- A condition with its two branches. The first branch starts the grammar again, the second only
    the levels from here on. -/
def conditional : Reader Expr := do
  let condition ← r.comma
  match ← accept .question with
  | none => return condition
  | some _ =>
    let yes ← r.expression .assignment
    let _ ← expect .conditionalElse
    return .conditional condition yes (← r.expression .conditional)

/-- Choices that take the second operand if the first one holds. -/
def and : Reader Expr :=
  chain r.bound r.conditional andOp? .logical

/-- Choices that take the second operand if the first one does not hold. -/
def or : Reader Expr :=
  chain r.bound r.and orOp? .logical

/-- Only a name or a property can be assigned to. Anything else is reported, and the value that was
    read for it is dropped. -/
def assignment : Reader Expr := do
  let target ← r.or
  match ← accept .equal with
  | none => return target
  | some equals =>
    let value ← r.expression .assignment
    match target with
    | .name ref => return .assign ⟨← freshId, ref.mark⟩ value
    | .get object property => return .set object property value
    | other =>
      report .invalidAssignmentTarget (.ofMark equals)
      return other

/-- The reader of the expressions from a level on. -/
def expressionAt : Level → Reader Expr
  | .assignment => r.assignment
  | .or => r.or
  | .and => r.and
  | .conditional => r.conditional
  | .comma => r.comma
  | .equality => r.equality
  | .comparison => r.comparison
  | .term => r.term
  | .factor => r.factor
  | .unary => r.unary

end Rules

end Lox.Grammar
