/-!
The two scripts of the language. Each script has its own ten digits; a numeral may mix them, and
`latinDigit` brings them to one script. Words are made of letters of either script, the underscore
and the two joiners; Latin digits may follow the first letter.
-/

namespace Dvilipi
set_option autoImplicit false

inductive Script where
  | latin
  | devanagari
  deriving DecidableEq, Repr, Inhabited

namespace Script

/-- The code point of the script's digit zero; the other nine follow it in order. -/
def zero : Script → Nat
  | latin => 0x30
  | devanagari => 0x966

def digitValue? (s : Script) (c : Char) : Option Nat :=
  if s.zero ≤ c.toNat ∧ c.toNat < s.zero + 10 then some (c.toNat - s.zero) else none

def digit (s : Script) (d : Nat) : Char := Char.ofNat (s.zero + d)

theorem digitValue?_lt {s : Script} {c : Char} {d : Nat} (h : s.digitValue? c = some d) :
    d < 10 := by
  unfold digitValue? at h
  split at h
  · cases h; omega
  · cases h

end Script

namespace Text

def isLatinDigit (c : Char) : Bool := (Script.latin.digitValue? c).isSome

def isDevanagariDigit (c : Char) : Bool := (Script.devanagari.digitValue? c).isSome

def isDigit (c : Char) : Bool := isLatinDigit c || isDevanagariDigit c

/-- Writes a Devanagari digit with the Latin digit of the same value; other characters stay. -/
def latinDigit (c : Char) : Char :=
  match Script.devanagari.digitValue? c with
  | some d => Script.latin.digit d
  | none => c

/-- The Devanagari block, U+0900 to U+097F. -/
def isDevanagari (c : Char) : Bool := 0x900 ≤ c.toNat && c.toNat ≤ 0x97F

def isLatinLetter (c : Char) : Bool :=
  (0x41 ≤ c.toNat && c.toNat ≤ 0x5A) || (0x61 ≤ c.toNat && c.toNat ≤ 0x7A)

/-- The zero-width joiner and non-joiner, which shape conjuncts inside a word. -/
def isJoiner (c : Char) : Bool := c.toNat == 0x200C || c.toNat == 0x200D

def startsWord (c : Char) : Bool :=
  isLatinLetter c || c == '_' || isDevanagari c || isJoiner c

def continuesWord (c : Char) : Bool := startsWord c || isLatinDigit c

theorem continuesWord_of_startsWord {c : Char} (h : startsWord c = true) :
    continuesWord c = true := by
  simp [continuesWord, h]

theorem latinDigit_of_not_isDevanagariDigit {c : Char} (h : isDevanagariDigit c = false) :
    latinDigit c = c := by
  have hn : Script.devanagari.digitValue? c = none := by
    simpa [isDevanagariDigit] using h
  simp [latinDigit, hn]

theorem isLatinDigit_digit {d : Nat} (h : d < 10) : isLatinDigit (Script.latin.digit d) = true := by
  have hall : ∀ d, d < 10 → isLatinDigit (Script.latin.digit d) = true := by decide
  exact hall d h

theorem isLatinDigit_latinDigit {c : Char} (h : isDigit c = true) :
    isLatinDigit (latinDigit c) = true := by
  cases hv : Script.devanagari.digitValue? c with
  | some d =>
    rw [latinDigit, hv]
    exact isLatinDigit_digit (Script.digitValue?_lt hv)
  | none =>
    have hn : isDevanagariDigit c = false := by simp [isDevanagariDigit, hv]
    rw [latinDigit_of_not_isDevanagariDigit hn]
    simpa [isDigit, hn] using h

end Text
end Dvilipi
