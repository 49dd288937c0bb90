import Lox.Number.Text
import Lox.Text.Json
import Lox.Token.Basic

namespace Lox.Token

/-- Numbers in a listing: a whole number below `10 ^ 15` gets a zero after the point and minus zero
    loses its sign; from there on the fewest digits are padded with zeros. -/
def numberStyle : Number.Style :=
  ⟨some (Nat.pow 10 15), ".0", false⟩

/-- The value of a token as a listing shows it; only strings and numbers have one. -/
def valueText : TokenKind → String
  | .string s => s
  | .number x => numberStyle.write x
  | _ => "null"

/-- The kind, the text and the value of a token. -/
def text (t : Token) : String :=
  t.kind.name ++ " " ++ t.lexeme ++ " " ++ valueText t.kind

/-- A kind with a value is an object with that value as its one field. -/
def kindJson : TokenKind → Json
  | .string s => .object [("STRING", .string s)]
  | .number x => .object [("NUMBER", .number x)]
  | kind => .string kind.name

/-- A token as JSON. -/
def json (t : Token) : Json :=
  .object [("token_type", kindJson t.kind), ("lexeme", .string t.lexeme), ("line", .count t.line)]

end Lox.Token

namespace Lox

/-- Tokens as JSON. -/
def tokensJson (tokens : List Token) : Json :=
  .array (tokens.map Token.json)

end Lox
