import Lox.Number.Text

namespace Lox

/-- JSON values. A count is a number that is written as a whole one. -/
inductive Json where
  | null
  | count (n : Nat)
  | number (x : Float)
  | string (s : String)
  | array (items : List Json)
  | object (fields : List (String × Json))
deriving Repr

namespace Json

/-- The digit of a number below sixteen. -/
def hexDigit (n : Nat) : Char :=
  (Nat.toDigits 16 n).head?.getD '0'

/-- Quotes, backslashes and the controls below the blank are the characters that are escaped. -/
def escape (c : Char) : List Char :=
  if c = '"' then ['\\', '"']
  else if c = '\\' then ['\\', '\\']
  else if c = '\n' then ['\\', 'n']
  else if c = '\r' then ['\\', 'r']
  else if c = '\t' then ['\\', 't']
  else if c = '\x08' then ['\\', 'b']
  else if c = '\x0c' then ['\\', 'f']
  else if c.toNat < 32 then ['\\', 'u', '0', '0', hexDigit (c.toNat / 16), hexDigit (c.toNat % 16)]
  else [c]

/-- A text in quotes, with what must be escaped in it escaped. -/
def quote (s : String) : String :=
  String.ofList ('"' :: s.toList.flatMap escape ++ ['"'])

/-- The fewest digits that read back, an exact half going to the even digit. Positional from
    `0.00001` up to below `1e16`, with a fraction always; beyond that with an exponent. What is not
    finite has no number in JSON. -/
def numberText (x : Float) : String :=
  match Number.parts x with
  | .finite negative significand exponent =>
    let d := Number.shortest .toEven significand exponent
    let power : Int := d.exponent + ((Number.digitsOf d.digits).length - 1)
    Number.signed negative <|
      if -5 ≤ power ∧ power ≤ 15 then
        if 0 ≤ d.exponent then d.positional ++ ['.', '0'] else d.positional
      else d.scientific
  | _ => "null"

/-- Items between brackets, with commas and nothing else between them. -/
def between (opening closing : String) (items : List String) : String :=
  opening ++ String.intercalate "," items ++ closing

mutual

/-- A value on one line, without blanks. -/
def compact : Json → String
  | null => "null"
  | count n => toString n
  | number x => numberText x
  | string s => quote s
  | array items => between "[" "]" (compactItems items)
  | object fields => between "\x7b" "\x7d" (compactFields fields)

/-- The items of a list, each on one line. -/
def compactItems : List Json → List String
  | [] => []
  | item :: rest => item.compact :: compactItems rest

/-- The fields of an object, each on one line with its name. -/
def compactFields : List (String × Json) → List String
  | [] => []
  | (name, value) :: rest => (quote name ++ ":" ++ value.compact) :: compactFields rest

end

/-- The end of a line and the blanks before the next one. -/
def newline (level : Nat) : String :=
  String.ofList ('\n' :: List.replicate (2 * level) ' ')

/-- One item a line, one level in; nothing between the brackets of an empty list. -/
def indented (level : Nat) (opening closing : String) : List String → String
  | [] => opening ++ closing
  | items =>
    opening ++ newline (level + 1) ++ String.intercalate ("," ++ newline (level + 1)) items
      ++ newline level ++ closing

mutual

/-- A value whose brackets stand `level` levels in. -/
def prettyAt (level : Nat) : Json → String
  | null => "null"
  | count n => toString n
  | number x => numberText x
  | string s => quote s
  | array items => indented level "[" "]" (prettyItems (level + 1) items)
  | object fields => indented level "\x7b" "\x7d" (prettyFields (level + 1) fields)

/-- The items of a list at a level. -/
def prettyItems (level : Nat) : List Json → List String
  | [] => []
  | item :: rest => item.prettyAt level :: prettyItems level rest

/-- The fields of an object at a level, each with its name and a blank before the value. -/
def prettyFields (level : Nat) : List (String × Json) → List String
  | [] => []
  | (name, value) :: rest => (quote name ++ ": " ++ value.prettyAt level) :: prettyFields level rest

end

/-- A value over several lines, indented by two blanks a level. -/
def pretty (value : Json) : String :=
  value.prettyAt 0

end Json

end Lox
