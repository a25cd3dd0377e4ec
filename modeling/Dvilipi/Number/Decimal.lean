import Dvilipi.Number.Binary64

/-!
Decimal numbers and the texts that denote them. A numeral is an optional sign and digits with at most
one point among them and an optional power of ten, or a spelling of infinity or of not-a-number in any
case. Reading rounds to the nearest binary64 number.
-/

namespace Dvilipi
set_option autoImplicit false

/-- The number `digits * 10 ^ exponent`. -/
structure Decimal where
  digits : Nat
  exponent : Int
  deriving DecidableEq, Repr

namespace Decimal

/-- The binary64 code closest to the decimal. Beyond the outer limits the answer is known without
computing the power of ten. -/
def code (d : Decimal) : Nat :=
  if d.digits = 0 then 0
  else if 400 < d.exponent then Binary64.infinityCode
  else if d.exponent + d.digits.log2 + 1 < -400 then 0
  else Binary64.nearest (d.digits * Nat.pow 10 d.exponent.toNat) (Nat.pow 10 (-d.exponent).toNat)

def isAsciiDigit (c : Char) : Bool := '0' ≤ c && c ≤ '9'

def digit (c : Char) : Nat := c.toNat - 0x30

/-- The value of limbs in a base, the lowest limb first. -/
def ofLimbs (base : Nat) (limbs : List Nat) : Nat := limbs.foldr (fun a n => a + base * n) 0

/-- Joins neighbours into limbs of the squared base, which are put on top of `joined` one by one, so
that the highest comes to stand first. -/
def joinLimbs (base : Nat) (joined : List Nat) : List Nat → List Nat
  | low :: high :: limbs => joinLimbs base ((low + base * high) :: joined) limbs
  | [low] => low :: joined
  | [] => joined

/-- `ofLimbs` after some rounds of joining. When few limbs are left, each product has factors of
about one size, and a long run of digits does not cost the square of its length. -/
def ofLimbsBy : Nat → Nat → List Nat → Nat
  | 0, base, limbs => ofLimbs base limbs
  | rounds + 1, base, limbs => ofLimbsBy rounds (base * base) (joinLimbs base [] limbs).reverse

def ofDigits (cs : List Char) : Nat := ofLimbsBy cs.length.log2 10 (cs.reverse.map digit)

/-- Digits with at most one point, at least one digit, and what follows them. -/
def mantissa? (cs : List Char) : Option (Decimal × List Char) :=
  let whole := cs.takeWhile isAsciiDigit
  let rest := cs.dropWhile isAsciiDigit
  let point := rest.head? == some '.'
  let fraction := if point then rest.tail.takeWhile isAsciiDigit else []
  let rest := if point then rest.tail.dropWhile isAsciiDigit else rest
  if whole.isEmpty && fraction.isEmpty then none
  else some (⟨ofDigits (whole ++ fraction), -fraction.length⟩, rest)

def sign (cs : List Char) : Bool × List Char :=
  match cs with
  | '-' :: rest => (true, rest)
  | '+' :: rest => (false, rest)
  | _ => (false, cs)

/-- From this size on, a power of ten takes up no further digits. -/
def powerLimit : Nat := 0x1_0000

/-- The size of a power of ten: digits count until they have reached `powerLimit`, and those that
follow are passed over. -/
def powerSize (cs : List Char) : Nat :=
  cs.foldl (fun n c => if n < powerLimit then n * 10 + digit c else n) 0

/-- The power of ten after the digits: nothing, or `e` with an optional sign and digits to the end. -/
def power? (cs : List Char) : Option Int :=
  match cs with
  | [] => some 0
  | c :: rest =>
    let (negative, digits) := sign rest
    if (c == 'e' || c == 'E') && !digits.isEmpty && digits.all isAsciiDigit then
      let n : Int := powerSize digits
      some (if negative then -n else n)
    else none

/-- A decimal that takes up the whole text. -/
def unsigned? (cs : List Char) : Option Decimal := do
  let (d, rest) ← mantissa? cs
  let power ← power? rest
  some ⟨d.digits, d.exponent + power⟩

def isInfinityWord (cs : List Char) : Bool :=
  let word := cs.map Char.toLower
  word == ['i', 'n', 'f'] || word == ['i', 'n', 'f', 'i', 'n', 'i', 't', 'y']

def isNaNWord (cs : List Char) : Bool := cs.map Char.toLower == ['n', 'a', 'n']

def read? (cs : List Char) : Option Float :=
  let (negative, body) := sign cs
  if isInfinityWord body then some (Binary64.ofCode negative Binary64.infinityCode)
  else if isNaNWord body then some Binary64.nan
  else (unsigned? body).map fun d => Binary64.ofCode negative d.code

/-- The number that a text denotes; not-a-number if it is no numeral. -/
def read (cs : List Char) : Float := (read? cs).getD Binary64.nan

theorem foldl_joinLimbs (base : Nat) (joined limbs : List Nat) :
    (joinLimbs base joined limbs).foldl (fun n a => a + base * base * n) 0 =
      joined.foldl (fun n a => a + base * base * n) (ofLimbs base limbs) := by
  fun_induction joinLimbs base joined limbs with
  | case1 joined low high limbs ih =>
    rw [ih, List.foldl_cons]
    congr 1
    simp only [ofLimbs, List.foldr_cons]
    rw [Nat.mul_add, Nat.add_assoc, Nat.mul_assoc]
  | case2 joined low => simp [ofLimbs]
  | case3 joined => rfl

theorem ofLimbs_joinLimbs (base : Nat) (limbs : List Nat) :
    ofLimbs (base * base) (joinLimbs base [] limbs).reverse = ofLimbs base limbs := by
  rw [ofLimbs, List.foldr_reverse, foldl_joinLimbs]
  rfl

theorem ofLimbsBy_eq (rounds base : Nat) (limbs : List Nat) :
    ofLimbsBy rounds base limbs = ofLimbs base limbs := by
  induction rounds generalizing base limbs with
  | zero => rfl
  | succ rounds ih => rw [ofLimbsBy, ih, ofLimbs_joinLimbs]

theorem ofDigits_eq_foldl (cs : List Char) :
    ofDigits cs = cs.foldl (fun n c => digit c + 10 * n) 0 := by
  rw [ofDigits, ofLimbsBy_eq, ofLimbs, List.foldr_map, List.foldr_reverse]

theorem code_of_digits_eq_zero {d : Decimal} (h : d.digits = 0) : d.code = 0 := by
  simp [code, h]

theorem code_le (d : Decimal) : d.code ≤ Binary64.infinityCode := by
  unfold code
  repeat' split
  · exact Nat.zero_le _
  · exact Nat.le_refl _
  · exact Nat.zero_le _
  · exact Binary64.nearest_le _ _

end Decimal
end Dvilipi
