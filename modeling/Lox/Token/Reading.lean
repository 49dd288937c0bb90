import Lox.Token.Basic

namespace Lox

/-- Why a stretch of source is no token. -/
inductive LexCause where
  | unexpectedCharacter (c : Char)
  | unterminatedString
  | unterminatedComment
deriving DecidableEq, Repr

/-- An error about tokens and the line it is on. -/
structure LexError where
  cause : LexCause
  line : Nat
deriving DecidableEq, Repr

/-- The wording of a cause. -/
def LexCause.message : LexCause → String
  | unexpectedCharacter c => "Unexpected character: " ++ String.singleton c
  | unterminatedString => "Unterminated string."
  | unterminatedComment => "Unterminated block comment."

/-- What a stretch of source is read as. -/
inductive Reading where
  | nothing
  | token (kind : TokenKind)
  | error (cause : LexCause)
deriving DecidableEq, Repr

/-- Whether a word can start with the character. -/
def isWordStart (c : Char) : Bool :=
  c.isAlpha || c == '_'

/-- Whether a word can go on with the character. -/
def isWordPart (c : Char) : Bool :=
  c.isAlphanum || c == '_'

/-- The number that a run of digits stands for. -/
def digitsValue (digits : List Char) : Nat :=
  digits.foldl (fun n c => 10 * n + (c.toNat - '0'.toNat)) 0

/-- The double nearest to a whole part and a fraction. -/
def readNumber (whole fraction : List Char) : Float :=
  Float.ofScientific (digitsValue (whole ++ fraction)) true fraction.length

end Lox
