import Dvilipi.Number.Layout
import Dvilipi.Text.Blank

/-!
Values of a running program: nothing, a number or a text. There is no truth value; comparisons give
the numbers 1 and 0, and every value counts as true or false.
-/

namespace Dvilipi
set_option autoImplicit false

inductive Value where
  | nil
  | number (value : Float)
  | string (text : String)
  deriving DecidableEq

namespace Value

def ofBool (b : Bool) : Value := number (if b then 1.0 else 0.0)

/-- False are nil, both zeros, not-a-number and the empty text. -/
def isTruthy : Value → Bool
  | nil => false
  | number x => Binary64.code x != 0 && !Binary64.isNaN x
  | string text => !text.isEmpty

def typeName : Value → String
  | nil => "nil"
  | number _ => "number"
  | string _ => "string"

def display : Value → String
  | nil => "nil"
  | number x => Number.valueText x
  | string text => text

/-- The number that a text denotes between blanks; a blank text denotes zero. -/
def numberOfText (text : String) : Float :=
  match Text.trim text.toList with
  | [] => 0.0
  | cs => Decimal.read cs

/-- The number that arithmetic takes a value for. -/
def toNumber : Value → Float
  | nil => Binary64.nan
  | number x => x
  | string text => numberOfText text

/-- Values of different types are never equal, and not-a-number differs from itself. -/
def equals : Value → Value → Bool
  | nil, nil => true
  | number x, number y => x == y
  | string s, string t => s == t
  | _, _ => false

def compareTexts (s t : String) : Ordering :=
  if s < t then .lt else if s = t then .eq else .gt

/-- Not-a-number has no place in the order of numbers. -/
def compareNumbers? (x y : Float) : Option Ordering :=
  if x < y then some .lt else if x == y then some .eq else if y < x then some .gt else none

/-- Two texts compare by code points, all other pairs as numbers. -/
def compare? : Value → Value → Option Ordering
  | string s, string t => some (compareTexts s t)
  | a, b => compareNumbers? a.toNumber b.toNumber

end Value
end Dvilipi
