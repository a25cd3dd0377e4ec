import Dvilipi.Number.Shortest

/-!
How a number is laid out as text, always with the shortest digits that read back. The positional
layout writes every place and no power of ten. The scientific layout puts one digit before the point
and the power of ten, with its sign, behind `e`. Listings of tokens and trees use the positional
layout throughout; a value uses it from `1e-6` up to, and not including, `1e+21`.
-/

namespace Dvilipi
set_option autoImplicit false

namespace Decimal

def digitChars (d : Decimal) : List Char := Nat.toDigits 10 d.digits

/-- The power of ten of the first digit. -/
def leading (d : Decimal) : Int := d.exponent + d.digitChars.length - 1

def positional (d : Decimal) : List Char :=
  let digits := d.digitChars
  let point : Int := d.exponent + digits.length
  if 0 ≤ d.exponent then digits ++ List.replicate d.exponent.toNat '0'
  else if 0 < point then digits.take point.toNat ++ '.' :: digits.drop point.toNat
  else '0' :: '.' :: (List.replicate (-point).toNat '0' ++ digits)

def scientific (d : Decimal) : List Char :=
  let power := Nat.toDigits 10 d.leading.natAbs
  let sign := if d.leading < 0 then '-' else '+'
  let tail := 'e' :: sign :: power
  match d.digitChars with
  | [] => tail
  | [c] => c :: tail
  | c :: rest => c :: '.' :: (rest ++ tail)

end Decimal

namespace Number

/-- The number in listings: `NaN`, `inf`, or every place of its shortest digits. -/
def positionalText (x : Float) : String :=
  let sign := if Binary64.isNegative x then ['-'] else []
  let b := Binary64.code x
  if Binary64.isNaN x then "NaN"
  else if Binary64.isInfinite x then String.ofList (sign ++ ['i', 'n', 'f'])
  else if b = 0 then String.ofList (sign ++ ['0'])
  else String.ofList (sign ++ (Decimal.shortest b).positional)

/-- The number as a value is shown; both zeros are `0`. -/
def valueText (x : Float) : String :=
  let sign := if Binary64.isNegative x then ['-'] else []
  let b := Binary64.code x
  if Binary64.isNaN x then "NaN"
  else if Binary64.isInfinite x then
    String.ofList (sign ++ ['I', 'n', 'f', 'i', 'n', 'i', 't', 'y'])
  else if b = 0 then "0"
  else
    let d := Decimal.shortest b
    let plain := -6 ≤ d.leading && d.leading < 21
    String.ofList (sign ++ if plain then d.positional else d.scientific)

end Number
end Dvilipi
