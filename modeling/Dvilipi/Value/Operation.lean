import Dvilipi.Number.Remainder
import Dvilipi.Tree.Operator
import Dvilipi.Value.Basic

/-!
What the operators do to values. Arithmetic takes every value for a number and never fails: quotients
by zero are infinite or not-a-number. A sum with a text on either side joins the displayed values.
-/

namespace Dvilipi
set_option autoImplicit false

namespace BinaryOp

def sum : Value → Value → Value
  | .string s, b => .string (s ++ b.display)
  | a, .string t => .string (a.display ++ t)
  | a, b => .number (a.toNumber + b.toNumber)

def apply (op : BinaryOp) (a b : Value) : Value :=
  match op with
  | add => sum a b
  | subtract => .number (a.toNumber - b.toNumber)
  | multiply => .number (a.toNumber * b.toNumber)
  | divide => .number (a.toNumber / b.toNumber)
  | remainder => .number (Binary64.remainder a.toNumber b.toNumber)
  | equal => .ofBool (a.equals b)
  | notEqual => .ofBool (!a.equals b)
  | less => .ofBool (a.compare? b == some .lt)
  | lessEqual => .ofBool (a.compare? b == some .lt || a.compare? b == some .eq)
  | greater => .ofBool (a.compare? b == some .gt)
  | greaterEqual => .ofBool (a.compare? b == some .gt || a.compare? b == some .eq)

end BinaryOp

def UnaryOp.apply (op : UnaryOp) (a : Value) : Value :=
  match op with
  | plus => .number a.toNumber
  | negate => .number (-a.toNumber)
  | not => .ofBool (!a.isTruthy)

/-- Whether the left operand alone gives the result. -/
def LogicalOp.decides (op : LogicalOp) (a : Value) : Bool :=
  match op with
  | and => !a.isTruthy
  | or => a.isTruthy

/-- The deciding operand. -/
def LogicalOp.apply (op : LogicalOp) (a b : Value) : Value := if op.decides a then a else b

end Dvilipi
