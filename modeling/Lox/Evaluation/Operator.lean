import Lox.Machine

namespace Lox

/-- What an operator makes of its one operand. -/
def UnaryOp.apply (op : UnaryOp) (value : Value) : Except Fault Value :=
  match op, value with
  | .negate, .number x => .ok (.number (-x))
  | .negate, _ => .error .operandNotNumber
  | .not, value => .ok (.bool (!value.isTrue))

namespace BinaryOp

/-- The operators that take numbers only. A zero divisor has no quotient, whatever its sign. -/
def applyNumbers (op : BinaryOp) (a b : Float) : Except Fault Value :=
  match op with
  | add => .ok (.number (a + b))
  | subtract => .ok (.number (a - b))
  | multiply => .ok (.number (a * b))
  | divide => if b == 0 then .error .divisionByZero else .ok (.number (a / b))
  | less => .ok (.bool (a < b))
  | lessEqual => .ok (.bool (a ≤ b))
  | greater => .ok (.bool (a > b))
  | greaterEqual => .ok (.bool (a ≥ b))
  | equal => .ok (.bool (a == b))
  | notEqual => .ok (.bool (a != b))

/-- All values can be compared for equality, strings can also be joined, and the rest is for
    numbers. -/
def apply (op : BinaryOp) (left right : Value) : Except Fault Value :=
  match op, left, right with
  | equal, left, right => .ok (.bool (left.same right))
  | notEqual, left, right => .ok (.bool (!left.same right))
  | add, .string a, .string b => .ok (.string (a ++ b))
  | op, .number a, .number b => op.applyNumbers a b
  | add, _, _ => .error .operandsNotAddable
  | _, _, _ => .error .operandsNotNumbers

end BinaryOp

/-- Whether the left operand alone decides the result. -/
def LogicalOp.decides (op : LogicalOp) (left : Value) : Bool :=
  match op with
  | .or => left.isTrue
  | .and => !left.isTrue

end Lox
