import Lox.Issue
import Lox.Value

/-!
# Operators on values

The operators that evaluate all of their operands. Arithmetic is that of doubles, division by zero
included. Equality accepts any operands; all other binary operators insist on numbers, except that
the sum of two strings is the longer string. An operator that does not exist is noticed last.
-/

namespace Lox.Value

/-- Applies a unary operator. -/
def unary (operator : Token) (operand : Value) : Except Issue Value :=
  match operator.kind, operand with
  | .bang, v => .ok (bool !v.isTruthy)
  | .minus, number x => .ok (number (-x))
  | .minus, _ => .error (.atToken operator .operandNotNumber)
  | _, _ => .error (.atToken operator (.unsupportedUnary operator.lexeme))

/-- The binary operators that take numbers only. -/
def arithmetic? (kind : Kind) (x y : Float) : Option Value :=
  match kind with
  | .minus => some (number (x - y))
  | .star => some (number (x * y))
  | .slash => some (number (x / y))
  | .greater => some (bool (y < x))
  | .greaterEqual => some (bool (y ≤ x))
  | .less => some (bool (x < y))
  | .lessEqual => some (bool (x ≤ y))
  | _ => none

/-- Applies a binary operator. -/
def binary (operator : Token) (left right : Value) : Except Issue Value :=
  match operator.kind with
  | .equalEqual => .ok (bool (left.isEqual right))
  | .bangEqual => .ok (bool !left.isEqual right)
  | .plus =>
    match left, right with
    | number x, number y => .ok (number (x + y))
    | string s, string t => .ok (string (s ++ t))
    | _, _ => .error (.atToken operator .operandsNotAddable)
  | kind =>
    match left, right with
    | number x, number y =>
      match arithmetic? kind x y with
      | some v => .ok v
      | none => .error (.atToken operator (.unsupportedBinary operator.lexeme))
    | _, _ => .error (.atToken operator .operandsNotNumbers)

end Lox.Value
