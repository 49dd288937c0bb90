import Lox.Number.Parts

namespace Lox.Number

/-- `digits * 10 ^ exponent`. -/
structure Decimal where
  digits : Nat
  exponent : Int
deriving DecidableEq, Repr

/-- Which point to take when the value lies half-way between two points of the grid. -/
inductive Tie where
  | upward
  | toEven
deriving DecidableEq, Repr

/-- The numbers that are read as one double, as multiples of `10 ^ scale`; the two ends belong to
    the interval when it is closed. -/
structure Interval where
  low : Nat
  value : Nat
  high : Nat
  closed : Bool
  scale : Int
deriving DecidableEq, Repr

namespace Interval

/-- Half the gap to the next double is two quarters of the last place, and half the gap to the one
    before is one quarter at a power of two. Powers of two below one are multiples of powers of
    ten, because `2 ^ -k = 5 ^ k * 10 ^ -k`. -/
def around (significand : Nat) (exponent : Int) : Interval :=
  let below := if significand = 1 <<< 52 ∧ exponent ≠ -1074 then 1 else 2
  let unit : Nat × Int :=
    match exponent - 2 with
    | .ofNat up => (1 <<< up, 0)
    | .negSucc down => (Nat.pow 5 (down + 1), .negSucc down)
  { low := (4 * significand - below) * unit.1
    value := 4 * significand * unit.1
    high := (4 * significand + 2) * unit.1
    closed := significand % 2 == 0
    scale := unit.2 }

/-- Whether a multiple of the unit lies in the interval, whose ends belong to it if it is closed. -/
def contains (i : Interval) (n : Nat) : Bool :=
  if i.closed then i.low ≤ n && n ≤ i.high else i.low < n && n < i.high

/-- The multiple of `step` in the interval that is nearest to the value, as a count of steps. -/
def nearest? (i : Interval) (tie : Tie) (step : Nat) : Option Nat :=
  let below := i.value / step
  let above := below + 1
  match i.contains (below * step), i.contains (above * step) with
  | false, false => none
  | true, false => some below
  | false, true => some above
  | true, true =>
    match compare (i.value - below * step) (above * step - i.value), tie with
    | .lt, _ => some below
    | .gt, _ => some above
    | .eq, .upward => some above
    | .eq, .toEven => some (if below % 2 = 0 then below else above)

/-- The coarsest grid of at most `10 ^ places` steps with a point in the interval. -/
def coarsest (i : Interval) (tie : Tie) : Nat → Decimal
  | 0 => ⟨i.value, i.scale⟩
  | places + 1 =>
    match i.nearest? tie (Nat.pow 10 (places + 1)) with
    | some count => ⟨count, i.scale + (places + 1)⟩
    | none => i.coarsest tie places

end Interval

/-- The decimal digits of a number, most significant first. -/
def digitsOf (n : Nat) : List Char :=
  Nat.toDigits 10 n

/-- The shortest decimal that is read as the double `significand * 2 ^ exponent`. -/
def shortest (tie : Tie) (significand : Nat) (exponent : Int) : Decimal :=
  if significand = 0 then ⟨0, 0⟩
  else
    let i := Interval.around significand exponent
    i.coarsest tie (digitsOf i.value).length

end Lox.Number
