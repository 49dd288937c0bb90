
namespace Lox

/-- A value that is written out in a program. -/
inductive Literal where
  | number (x : Float)
  | string (s : String)
  | bool (b : Bool)
  | nil
deriving DecidableEq, Repr

/-- What a token is. A literal carries its value with it. -/
inductive TokenKind where
  | leftParen
  | rightParen
  | leftBrace
  | rightBrace
  | comma
  | dot
  | minus
  | plus
  | semicolon
  | slash
  | star
  | question
  | colon
  | bang
  | bangEqual
  | equal
  | equalEqual
  | greater
  | greaterEqual
  | less
  | lessEqual
  | identifier
  | string (s : String)
  | number (x : Float)
  | and
  | break
  | class : TokenKind
  | else
  | false
  | fun
  | for
  | if
  | nil
  | or
  | print
  | return
  | super
  | this
  | true
  | var
  | while
  | eof
deriving DecidableEq, Repr

/-- A place in the source that a tree or an error refers to: the text there and its line. -/
structure Mark where
  lexeme : String
  line : Nat
deriving DecidableEq, Repr

/-- A token: a mark of the source and what stands there. -/
structure Token extends Mark where
  kind : TokenKind
deriving DecidableEq, Repr

namespace TokenKind

/-- The words that are no identifiers. -/
def keywords : List (String × TokenKind) :=
  [("and", and), ("break", .break), ("class", .class), ("else", .else), ("false", .false),
   ("for", .for), ("fun", .fun), ("if", .if), ("nil", nil), ("or", or), ("print", print),
   ("return", .return), ("super", super), ("this", this), ("true", .true), ("var", var),
   ("while", .while)]

/-- The kind of a word: a keyword, or else an identifier. -/
def ofWord (word : String) : TokenKind :=
  (keywords.lookup word).getD identifier

/-- The value of a token that is one. -/
def literal? : TokenKind → Option Literal
  | number x => some (.number x)
  | string s => some (.string s)
  | .true => some (.bool Bool.true)
  | .false => some (.bool Bool.false)
  | nil => some .nil
  | _ => none

/-- The name of a kind in a listing of tokens. -/
def name : TokenKind → String
  | leftParen => "LEFT_PAREN"
  | rightParen => "RIGHT_PAREN"
  | leftBrace => "LEFT_BRACE"
  | rightBrace => "RIGHT_BRACE"
  | comma => "COMMA"
  | dot => "DOT"
  | minus => "MINUS"
  | plus => "PLUS"
  | semicolon => "SEMICOLON"
  | slash => "SLASH"
  | star => "STAR"
  | question => "QUESTION"
  | colon => "COLON"
  | bang => "BANG"
  | bangEqual => "BANG_EQUAL"
  | equal => "EQUAL"
  | equalEqual => "EQUAL_EQUAL"
  | greater => "GREATER"
  | greaterEqual => "GREATER_EQUAL"
  | less => "LESS"
  | lessEqual => "LESS_EQUAL"
  | identifier => "IDENTIFIER"
  | string _ => "STRING"
  | number _ => "NUMBER"
  | and => "AND"
  | .break => "BREAK"
  | .class => "CLASS"
  | .else => "ELSE"
  | .false => "FALSE"
  | .fun => "FUN"
  | .for => "FOR"
  | .if => "IF"
  | nil => "NIL"
  | or => "OR"
  | print => "PRINT"
  | .return => "RETURN"
  | super => "SUPER"
  | this => "THIS"
  | .true => "TRUE"
  | var => "VAR"
  | .while => "WHILE"
  | eof => "EOF"

end TokenKind

end Lox
