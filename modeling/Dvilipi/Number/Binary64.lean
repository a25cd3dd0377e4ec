/-!
Binary floating point with 64 bits, seen through its codes. The code of a magnitude is its bit
pattern without the sign; codes are in the order of the magnitudes, code `b` below `infinityCode`
stands for `mantissa b * 2 ^ exponent b`, and `nearest` rounds a quotient to the closest of them, a
tie going to the even mantissa. Powers are written with `Nat.pow`, which means the same whatever else is
imported.
-/

namespace Dvilipi.Binary64
set_option autoImplicit false

def signBit : Nat := 0x8000_0000_0000_0000

def infinityCode : Nat := 0x7FF0_0000_0000_0000

def mantissa (b : Nat) : Nat :=
  if b / 0x10_0000_0000_0000 = 0 then b % 0x10_0000_0000_0000
  else 0x10_0000_0000_0000 + b % 0x10_0000_0000_0000

def exponent (b : Nat) : Int := (max (b / 0x10_0000_0000_0000) 1 : Nat) - 1075

/-- The quotient `num / den` rounded to an integer, a tie to the even one. -/
def roundHalfEven (num den : Nat) : Nat :=
  let q := num / den
  let r := num % den
  if 2 * r < den then q else if den < 2 * r then q + 1 else q + q % 2

/-- The greatest `k` with `2 ^ k ≤ num / den`, for positive `num` and `den`. -/
def scale (num den : Nat) : Int :=
  let e : Int := (num.log2 : Int) - den.log2
  if den * Nat.pow 2 e.toNat ≤ num * Nat.pow 2 (-e).toNat then e else e - 1

/-- The code closest to `num / den`; quotients beyond the finite range give `infinityCode`. -/
def nearest (num den : Nat) : Nat :=
  if num = 0 then 0
  else
    let q := max (scale num den - 52) (-1074)
    let m := roundHalfEven (num * Nat.pow 2 (-q).toNat) (den * Nat.pow 2 q.toNat)
    min (m + (q + 1074).toNat * 0x10_0000_0000_0000) infinityCode

/-- The number with the given sign and magnitude code. -/
def ofCode (negative : Bool) (code : Nat) : Float :=
  Float.ofBits (UInt64.ofNat (if negative then signBit + code else code))

def isNegative (x : Float) : Bool := signBit ≤ x.toBits.toNat

/-- The code of the magnitude of `x`. -/
def code (x : Float) : Nat := x.toBits.toNat % signBit

def isNaN (x : Float) : Bool := infinityCode < code x

def isInfinite (x : Float) : Bool := code x == infinityCode

def nan : Float := Float.ofBits 0x7FF8000000000000

theorem mantissa_lt (b : Nat) : mantissa b < 0x20_0000_0000_0000 := by
  unfold mantissa
  split <;> omega

theorem mantissa_pos {b : Nat} (h : 0 < b) : 0 < mantissa b := by
  unfold mantissa
  split <;> omega

@[simp] theorem nearest_zero (den : Nat) : nearest 0 den = 0 := rfl

theorem nearest_le (num den : Nat) : nearest num den ≤ infinityCode := by
  unfold nearest
  split
  · exact Nat.zero_le _
  · exact Nat.min_le_right _ _

end Dvilipi.Binary64
