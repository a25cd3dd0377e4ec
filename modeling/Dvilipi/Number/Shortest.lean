import Dvilipi.Number.Decimal

/-!
The shortest decimal that reads back as a given number. The grids of multiples of a power of ten are
searched from coarse to fine; on each only the two neighbours of the number can read back, the nearer
one is taken if both do, and a tie goes up. The first grid with a hit has the fewest digits.
-/

namespace Dvilipi.Decimal
set_option autoImplicit false

/-- The magnitude with code `b` as a quotient of two integers. -/
def fraction (b : Nat) : Nat × Nat :=
  let e := Binary64.exponent b
  (Binary64.mantissa b * Nat.pow 2 e.toNat, Nat.pow 2 (-e).toNat)

/-- On the multiples of `10 ^ p`, the neighbour of the magnitude with code `b` that reads back as it. -/
def onGrid? (b : Nat) (p : Int) : Option Decimal :=
  let (num, den) := fraction b
  let num := num * Nat.pow 10 (-p).toNat
  let den := den * Nat.pow 10 p.toNat
  let low := num / den
  let readsBack (n : Nat) : Bool := code ⟨n, p⟩ == b
  let nearerHigh := den ≤ 2 * (num % den)
  if readsBack low && !(readsBack (low + 1) && nearerHigh) then some ⟨low, p⟩
  else if readsBack (low + 1) then some ⟨low + 1, p⟩
  else none

/-- The first hit on the grids `10 ^ p`, `10 ^ (p - 1)`, and so on, `n` of them. -/
def firstGrid? (b : Nat) : Nat → Int → Option Decimal
  | 0, _ => none
  | n + 1, p => (onGrid? b p).or (firstGrid? b n (p - 1))

/-- All digits of the magnitude with code `b`. -/
def exact (b : Nat) : Decimal :=
  let e := Binary64.exponent b
  ⟨Binary64.mantissa b * Nat.pow 2 e.toNat * Nat.pow 5 (-e).toNat, min e 0⟩

/-- A power of ten above the magnitude with code `b`, and at most two above the next one below it. -/
def coarsest (b : Nat) : Int :=
  let top := (Binary64.mantissa b).log2 + 1 + Binary64.exponent b
  top * 30103 / 100000 + 1

/-- The shortest decimal that reads back as the positive finite magnitude with code `b`. -/
def shortest (b : Nat) : Decimal := (firstGrid? b 24 (coarsest b)).getD (exact b)

theorem code_of_onGrid? {b : Nat} {p : Int} {d : Decimal} (h : onGrid? b p = some d) :
    d.code = b := by
  simp only [onGrid?] at h
  split at h
  · next hl => cases h; simpa using (Bool.and_eq_true_iff.mp hl).1
  · split at h
    · next hh => cases h; simpa using hh
    · cases h

theorem code_of_firstGrid? {b n : Nat} {p : Int} {d : Decimal} (h : firstGrid? b n p = some d) :
    d.code = b := by
  induction n generalizing p with
  | zero => cases h
  | succ n ih =>
    rw [firstGrid?, Option.or_eq_some_iff] at h
    rcases h with h | ⟨_, h⟩
    · exact code_of_onGrid? h
    · exact ih h

end Dvilipi.Decimal
