
namespace Lox.Number

/-- What a double denotes. A finite one is a sign and `significand * 2 ^ exponent`. -/
inductive Parts where
  | nan
  | infinite (negative : Bool)
  | finite (negative : Bool) (significand : Nat) (exponent : Int)
deriving DecidableEq, Repr

/-- A zero exponent field marks the subnormal numbers, which lack the leading one. -/
def Parts.ofBits (bits : Nat) : Parts :=
  let negative := bits.testBit 63
  let field := (bits >>> 52) % 2048
  let fraction := bits % (1 <<< 52)
  if field = 2047 then
    if fraction = 0 then .infinite negative else .nan
  else if field = 0 then
    .finite negative fraction (-1074)
  else
    .finite negative (1 <<< 52 + fraction) ((field : Int) - 1075)

/-- What a double denotes, read off the bits of its interchange form. -/
def parts (x : Float) : Parts :=
  Parts.ofBits x.toBits.toNat

/-- The magnitude `significand * 2 ^ exponent`, if that is a whole number. -/
def whole? (significand : Nat) : Int → Option Nat
  | .ofNat up => some (significand <<< up)
  | .negSucc down =>
    if significand % (1 <<< (down + 1)) = 0 then some (significand >>> (down + 1)) else none

end Lox.Number
