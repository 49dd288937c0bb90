import Lox.Token.Basic

namespace Lox

/-- An occurrence of a name: its number and its place. -/
structure Ref where
  id : Nat
  mark : Mark
deriving DecidableEq, Repr

/-- The operators with one operand. -/
inductive UnaryOp where
  | negate
  | not
deriving DecidableEq, Repr

/-- The operators with two operands that are both evaluated. -/
inductive BinaryOp where
  | add
  | subtract
  | multiply
  | divide
  | equal
  | notEqual
  | less
  | lessEqual
  | greater
  | greaterEqual
deriving DecidableEq, Repr

/-- The operators whose first operand can decide the result. -/
inductive LogicalOp where
  | and
  | or
deriving DecidableEq, Repr

mutual

/-- An operator keeps the mark of its token, and so does whatever an error may have to point at. -/
inductive Expr where
  | literal (value : Literal) (line : Nat)
  | grouping (inner : Expr)
  | unary (op : UnaryOp) (mark : Mark) (right : Expr)
  | binary (op : BinaryOp) (mark : Mark) (left right : Expr)
  /-- A binary operator that lacks its left operand. -/
  | unpaired (op : BinaryOp) (mark : Mark) (right : Expr)
  | logical (op : LogicalOp) (mark : Mark) (left right : Expr)
  | conditional (condition yes no : Expr)
  | comma (left right : Expr)
  | name (ref : Ref)
  | assign (ref : Ref) (value : Expr)
  | call (callee : Expr) (paren : Mark) (arguments : List Expr)
  | get (object : Expr) (property : Mark)
  | set (object : Expr) (property : Mark) (value : Expr)
  | this (ref : Ref)
  | super (ref : Ref) (method : Mark)
  | lambda (keyword : Mark) (code : Lambda)

/-- The parameters and the body of a function. -/
structure Lambda where
  params : List Mark
  body : List Stmt

/-- A function or a method with its name. -/
structure Definition where
  name : Mark
  code : Lambda

/-- The statements, declarations among them. There is a loop of one kind only, since the others come
    down to it. -/
inductive Stmt where
  | expression (value : Expr)
  | print (keyword : Mark) (value : Expr)
  | var (name : Mark) (initial : Option Expr)
  | function (definition : Definition)
  | class (name : Mark) (superclass : Option Ref) (methods : List Definition)
  | block (body : List Stmt)
  | if (condition : Expr) (yes : Stmt) (no : Option Stmt)
  | while (condition : Expr) (body : Stmt)
  | return (keyword : Mark) (value : Option Expr)
  | break (keyword : Mark)

end

/-- The line of the token that an error about the expression points at. -/
def Expr.line : Expr → Nat
  | literal _ line => line
  | grouping inner => inner.line
  | unary _ mark _ | binary _ mark _ _ | unpaired _ mark _ | logical _ mark _ _ => mark.line
  | conditional condition _ _ => condition.line
  | comma left _ => left.line
  | name ref | assign ref _ | this ref | super ref _ => ref.mark.line
  | call _ paren _ => paren.line
  | get _ property | set _ property _ => property.line
  | lambda keyword _ => keyword.line

end Lox
