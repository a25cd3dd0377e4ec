import Dvilipi.Number.Binary64

/-!
The remainder of a division that rounds its quotient toward zero. It is computed on the exact values,
has the sign of the dividend, and is always representable.
-/

namespace Dvilipi.Binary64
set_option autoImplicit false

/-- The remainder of the magnitudes with codes `a` and `b`, as a code, for finite `a` and `b`, `b` positive. -/
def remainderCode (a b : Nat) : Nat :=
  let e := min (exponent a) (exponent b)
  let dividend := mantissa a * Nat.pow 2 (exponent a - e).toNat
  let divisor := mantissa b * Nat.pow 2 (exponent b - e).toNat
  let rest := dividend % divisor
  nearest (rest * Nat.pow 2 e.toNat) (Nat.pow 2 (-e).toNat)

/-- The remainder of `x` by `y`; none exists for an infinite dividend or a zero divisor. -/
def remainder (x y : Float) : Float :=
  if isNaN x || isNaN y || isInfinite x || code y == 0 then nan
  else if isInfinite y then x
  else ofCode (isNegative x) (remainderCode (code x) (code y))

end Dvilipi.Binary64
