import Lox.Number.Shortest

namespace Lox.Number

/-- So many zeros. -/
def zeros (n : Nat) : List Char :=
  List.replicate n '0'

/-- Positional notation, without an exponent however large or small the number is. -/
def Decimal.positional (d : Decimal) : List Char :=
  let digits := digitsOf d.digits
  match d.exponent with
  | .ofNat up => digits ++ zeros up
  | .negSucc down =>
    let places := down + 1
    if places < digits.length then
      digits.take (digits.length - places) ++ '.' :: digits.drop (digits.length - places)
    else
      '0' :: '.' :: zeros (places - digits.length) ++ digits

/-- One digit before the point, and the signed exponent of that digit. -/
def Decimal.scientific (d : Decimal) : List Char :=
  let digits := digitsOf d.digits
  let fraction := if digits.length ≤ 1 then [] else '.' :: digits.drop 1
  let power : Int := d.exponent + (digits.length - 1)
  let sign := if power < 0 then '-' else '+'
  digits.take 1 ++ fraction ++ 'e' :: sign :: digitsOf power.natAbs

/-- Digits with the sign before them. -/
def signed (negative : Bool) (magnitude : List Char) : String :=
  String.ofList (if negative then '-' :: magnitude else magnitude)

/-- How numbers are written in one kind of output. -/
structure Style where
  /-- Whole numbers below this bound show every digit; without a bound all of them do. -/
  exactBelow : Option Nat
  /-- What follows the digits of such a whole number. -/
  ending : String
  /-- Whether minus zero keeps its sign. -/
  signedZero : Bool
deriving Repr

/-- Whether a style writes a whole number with all its digits. -/
def Style.showsExactly (style : Style) (n : Nat) : Bool :=
  match style.exactBelow with
  | none => true
  | some bound => n < bound

/-- What is not shown exactly is written positionally with the fewest digits that read back; a tie
    between two such decimals goes upward. -/
def Style.write (style : Style) (x : Float) : String :=
  match parts x with
  | .nan => "NaN"
  | .infinite negative => signed negative "inf".toList
  | .finite negative significand exponent =>
    match (whole? significand exponent).filter style.showsExactly with
    | some n => signed (negative && (style.signedZero || n != 0)) (digitsOf n) ++ style.ending
    | none => signed negative (shortest .upward significand exponent).positional

end Lox.Number
