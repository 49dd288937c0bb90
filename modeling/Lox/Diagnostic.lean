import Lox.Token.Reading

namespace Lox

/-- What a name in the grammar is for. -/
inductive NameRole where
  | class : NameRole
  | superclass
  | function
  | method
  | parameter
  | variable
  | property
  | superclassMethod
deriving DecidableEq, Repr

/-- The name of the role in messages. -/
def NameRole.text : NameRole → String
  | .class => "class name"
  | superclass => "superclass name"
  | function => "function name"
  | method => "method name"
  | parameter => "parameter name"
  | .variable => "variable name"
  | property => "property name after '.'"
  | superclassMethod => "superclass method name"

/-- What the code of a function belongs to, as far as messages tell. -/
inductive CodeRole where
  | function
  | method
deriving DecidableEq, Repr

/-- The name of the role in messages about its code. -/
def CodeRole.text : CodeRole → String
  | function => "function"
  | method => "method"

/-- The places at which the grammar asks for one punctuation mark. -/
inductive Place where
  | classBody
  | classEnd
  | parameters (of : CodeRole)
  | parametersEnd
  | body (of : CodeRole)
  | blockEnd
  | variableEnd
  | forClauses
  | forCondition
  | forClausesEnd
  | ifCondition
  | ifConditionEnd
  | whileCondition
  | whileConditionEnd
  | printEnd
  | returnEnd
  | breakEnd
  | expressionEnd
  | conditionalElse
  | argumentsEnd
  | superMethod
  | groupingEnd
deriving DecidableEq, Repr

namespace Place

/-- The mark that is asked for. -/
def kind : Place → TokenKind
  | classBody | body _ => .leftBrace
  | classEnd | blockEnd => .rightBrace
  | parameters _ | forClauses | ifCondition | whileCondition => .leftParen
  | parametersEnd | forClausesEnd | ifConditionEnd | whileConditionEnd | argumentsEnd
  | groupingEnd => .rightParen
  | variableEnd | forCondition | printEnd | returnEnd | breakEnd | expressionEnd => .semicolon
  | conditionalElse => .colon
  | superMethod => .dot

/-- What the message about a missing mark asks for. -/
def text : Place → String
  | classBody => "'\x7b' before class body"
  | classEnd => "'\x7d' after class body"
  | parameters of => "'(' after " ++ of.text ++ " name"
  | parametersEnd => "')' after parameters"
  | body of => "'\x7b' before " ++ of.text ++ " body"
  | blockEnd => "'\x7d' after block"
  | variableEnd => "';' after variable declaration"
  | forClauses => "'(' after 'for'"
  | forCondition => "';' after loop condition"
  | forClausesEnd => "')' after for clauses"
  | ifCondition => "'(' after 'if'"
  | ifConditionEnd => "')' after if condition"
  | whileCondition => "'(' after 'while'"
  | whileConditionEnd => "')' after while condition"
  | printEnd => "';' after value"
  | returnEnd => "';' after return value"
  | breakEnd => "';' after 'break'"
  | expressionEnd => "';' after expression"
  | conditionalElse => "':' after then branch of conditional"
  | argumentsEnd => "')' after arguments"
  | superMethod => "'.' after 'super'"
  | groupingEnd => "')' after expression"

end Place

/-- Why the tokens of a program are no program. Two causes, the limits of 255 and a break outside a
    loop, do not keep the reader from going on. -/
inductive SyntaxCause where
  | expected (place : Place)
  | expectedName (role : NameRole)
  | expectedExpression
  | tooManyParameters
  | tooManyArguments
  | breakOutsideLoop
  | invalidAssignmentTarget
  | missingLeftOperand
deriving DecidableEq, Repr

/-- The wording of a cause. -/
def SyntaxCause.message : SyntaxCause → String
  | expected place => "Expect " ++ place.text ++ "."
  | expectedName role => "Expect " ++ role.text ++ "."
  | expectedExpression => "Expect expression."
  | tooManyParameters => "Can't have more than 255 parameters."
  | tooManyArguments => "Can't have more than 255 arguments."
  | breakOutsideLoop => "Cannot use 'break' keyword outside of loop."
  | invalidAssignmentTarget => "Invalid assignment target."
  | missingLeftOperand => "Binary operator without left-hand side."

/-- What is wrong with the bindings of a program that the grammar accepts. -/
inductive ScopeCause where
  | redeclared
  | readInInitializer
  | returnOutsideFunction
  | valueFromInitializer
  | selfInheritance
  | thisOutsideClass
  | superOutsideClass
  | superWithoutSuperclass
  | breakOutsideLoop
deriving DecidableEq, Repr

/-- The wording of a cause. -/
def ScopeCause.message : ScopeCause → String
  | redeclared => "Already a variable with this name in this scope."
  | readInInitializer => "Can't read local variable in its own initializer."
  | returnOutsideFunction => "Can't return from top-level code."
  | valueFromInitializer => "Can't return a value from an initializer."
  | selfInheritance => "A class can't inherit from itself."
  | thisOutsideClass => "Can't use 'this' outside of a class."
  | superOutsideClass => "Can't use 'super' outside of a class."
  | superWithoutSuperclass => "Can't use 'super' in a class with no superclass."
  | breakOutsideLoop => "Cannot use 'break' keyword outside of loop."

/-- What can go wrong while a program runs. A native function and the output say themselves what is
    wrong with them. -/
inductive Fault where
  | operandNotNumber
  | operandsNotNumbers
  | operandsNotAddable
  | undefinedVariable (name : String)
  | uninitializedVariable (name : String)
  | undefinedProperty (name : String)
  | arity (expected got : Nat)
  | notCallable
  | propertyOfNonInstance
  | fieldOfNonInstance
  | superclassNotClass
  | divisionByZero
  | missingOperand
  | native (message : String)
  | outputClosed {message : String}
  | stackOverflow
deriving DecidableEq, Repr

/-- The wording of a fault. Where names are involved it quotes them. -/
def Fault.message : Fault → String
  | operandNotNumber => "Operand must be a number."
  | operandsNotNumbers => "Operands must be numbers."
  | operandsNotAddable => "Operands must be two numbers or two strings."
  | undefinedVariable name => "Undefined variable '" ++ name ++ "'."
  | uninitializedVariable name => "Variable '" ++ name ++ "' is not initialized."
  | undefinedProperty name => "Undefined property '" ++ name ++ "'."
  | arity expected got =>
    "Expected " ++ toString expected ++ " arguments but got " ++ toString got ++ "."
  | notCallable => "Can only call functions and classes."
  | propertyOfNonInstance => "Only instances have properties."
  | fieldOfNonInstance => "Only instances have fields."
  | superclassNotClass => "Superclass must be a class."
  | divisionByZero => "Cannot divide by zero."
  | missingOperand => "Invalid binary expression with missing left operand."
  | native message => message
  | @outputClosed message => "Failed to write output: " ++ message
  | stackOverflow => "Stack overflow."

/-- A token that an error points at; the end of the source has no text to show. -/
structure Site where
  lexeme : Option String
  line : Nat
deriving DecidableEq, Repr

/-- The place of a token that is there. -/
def Site.ofMark (mark : Mark) : Site :=
  ⟨some mark.lexeme, mark.line⟩

/-- How a message names the place. -/
def Site.text (site : Site) : String :=
  match site.lexeme with
  | none => " at end"
  | some lexeme => " at '" ++ lexeme ++ "'"

/-- An error against the grammar, and the token at which it was found. -/
structure SyntaxError where
  cause : SyntaxCause
  site : Site
deriving DecidableEq, Repr

/-- An error in the bindings of a program, and the token at fault. -/
structure ScopeError where
  cause : ScopeCause
  mark : Mark
deriving DecidableEq, Repr

/-- A fault and the line it belongs to. -/
structure RuntimeError where
  fault : Fault
  line : Nat
deriving DecidableEq, Repr

/-- An error of any of the four stages: reading tokens, reading trees, binding names, running. -/
inductive Diagnostic where
  | lexical (error : LexError)
  | grammatical (error : SyntaxError)
  | scoping (error : ScopeError)
  | runtime (error : RuntimeError)
deriving DecidableEq, Repr

/-- The text of an error that is found before the program runs: its line, its place, its wording. -/
def staticText (line : Nat) (place message : String) : String :=
  "[line " ++ toString line ++ "] Error" ++ place ++ ": " ++ message

/-- The text of an error about tokens, which names a line and no token. -/
def LexError.text (e : LexError) : String :=
  staticText e.line "" e.cause.message

/-- The text of an error against the grammar. -/
def SyntaxError.text (e : SyntaxError) : String :=
  staticText e.site.line e.site.text e.cause.message

/-- The text of an error in the bindings, which always names a token. -/
def ScopeError.text (e : ScopeError) : String :=
  staticText e.mark.line (Site.ofMark e.mark).text e.cause.message

/-- The text of an error in a run: the line comes last. -/
def RuntimeError.text (e : RuntimeError) : String :=
  e.fault.message ++ "\n[line " ++ toString e.line ++ "]"

namespace Diagnostic

/-- The line that an error is about. -/
def line : Diagnostic → Nat
  | lexical e => e.line
  | grammatical e => e.site.line
  | scoping e => e.mark.line
  | runtime e => e.line

/-- The text of an error, as it is shown to a user. -/
def text : Diagnostic → String
  | lexical e => e.text
  | grammatical e => e.text
  | scoping e => e.text
  | runtime e => e.text

end Diagnostic

end Lox
