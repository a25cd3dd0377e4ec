import Mathlib.Algebra.Order.Ring.Abs
import Mathlib.Tactic.LinearCombination
import Mathlib.Tactic.NormNum
import Mathlib.Tactic.Ring
import Dvilipi.Number.Decimal
import Dvilipi.Proofs.Number.Nearest

/-!
Rounding to nearest. A quotient is brought to a unit in which it has the digits of a mantissa, and
rounded to an integer there; among all finite numbers the result is the closest, the even one of two that
are equally close, and beyond halfway to the next power of two it is infinity. A decimal of any size is
read as the number closest to it.
-/

namespace Dvilipi
set_option autoImplicit false

namespace Binary64

variable {num den b c m : Nat} {e : Int} {x : ℚ}

/-- The number that a finite code stands for. -/
def magnitude (b : Nat) : ℚ := mantissa b * 2 ^ exponent b

/-- Halfway between the greatest finite number and the power of two above it. -/
def overflow : ℚ := 2 ^ 1024 - 2 ^ 970

theorem overflow_eq : overflow = (2 ^ 53 - 1 / 2) * 2 ^ (971 : Int) := by
  have hpow : (2 : ℚ) ^ (971 : Int) = 2 ^ 970 * 2 := by
    rw [show (971 : Int) = (970 : Nat) + 1 from rfl, zpow_add_one₀ two_ne_zero, zpow_natCast]
  rw [overflow, hpow, show 1024 = 54 + 970 from rfl, pow_add]
  generalize (2 : ℚ) ^ 970 = p
  ring

theorem overflow_le : overflow ≤ 2 ^ 1024 := sub_le_self _ (by positivity)

/-- Of the numbers with codes `b` and `c`, the first is closer to `x`, or equally close and even. -/
def Preferred (x : ℚ) (b c : Nat) : Prop :=
  |x - magnitude b| < |x - magnitude c| ∨
    |x - magnitude b| = |x - magnitude c| ∧ mantissa b % 2 = 0

/-- The code of the number closest to `x`, and of infinity from the limit of overflow on. -/
structure IsNearest (x : ℚ) (b : Nat) : Prop where
  infinite : overflow ≤ x → b = infinityCode
  finite : x < overflow → b < infinityCode
  preferred : x < overflow → ∀ c < infinityCode, c ≠ b → Preferred x b c

theorem mantissa_mod_two (b : Nat) : mantissa b % 2 = b % 2 := by
  unfold mantissa
  split <;> omega

@[simp] theorem magnitude_zero : magnitude 0 = 0 := by
  simp [magnitude, mantissa]

/-- Between neighbours lies one unit of the lower one. -/
theorem magnitude_succ (b : Nat) : magnitude (b + 1) = magnitude b + 2 ^ exponent b := by
  have hstep : mantissa (b + 1) = mantissa b + 1 ∧ exponent (b + 1) = exponent b ∨
      2 * mantissa (b + 1) = mantissa b + 1 ∧ exponent (b + 1) = exponent b + 1 := by
    unfold mantissa exponent
    split <;> split <;> omega
  unfold magnitude
  rcases hstep with ⟨hm, he⟩ | ⟨hm, he⟩
  · rw [hm, he]
    push_cast
    ring
  · have hq : (2 : ℚ) * mantissa (b + 1) = mantissa b + 1 := by exact_mod_cast hm
    rw [he, zpow_add_one₀ two_ne_zero]
    linear_combination (2 : ℚ) ^ exponent b * hq

theorem magnitude_strictMono : StrictMono magnitude := by
  refine strictMono_nat_of_lt_succ fun b => ?_
  rw [magnitude_succ]
  exact lt_add_of_pos_right _ (by positivity)

theorem magnitude_nonneg (b : Nat) : 0 ≤ magnitude b := by
  unfold magnitude
  positivity

theorem le_magnitude (h : b ≠ 0) : (2 : ℚ) ^ (-1074 : Int) ≤ magnitude b := by
  have hone : magnitude 1 = 2 ^ (-1074 : Int) := by
    rw [magnitude_succ 0, magnitude_zero, zero_add]
    rfl
  rw [← hone]
  exact magnitude_strictMono.monotone (Nat.one_le_iff_ne_zero.mpr h)

theorem Preferred.abs_sub_le (h : Preferred x b c) : |x - magnitude b| ≤ |x - magnitude c| :=
  h.elim le_of_lt fun hsame => hsame.1.le

/-- What is no closer to the upper neighbour is farther from everything above it. -/
theorem abs_sub_lt_of_le {p q r : ℚ} (hpq : p < q) (hqr : q < r) (h : |x - p| ≤ |x - q|) :
    |x - p| < |x - r| := by
  have hmiddle : x ≤ (p + q) / 2 := by
    by_contra hx
    have hx' : (p + q) / 2 < x := not_le.mp hx
    rw [abs_of_pos (by linarith)] at h
    exact absurd h (not_le.mpr (abs_lt.mpr ⟨by linarith, by linarith⟩))
  rw [abs_of_neg (show x - r < 0 by linarith)]
  exact abs_lt.mpr ⟨by linarith, by linarith⟩

/-- The lower of two nearest numbers and the one above it are equally close, and both would be even. -/
theorem IsNearest.le_of_lt_overflow (hx : x < overflow) (hb : IsNearest x b) (hc : IsNearest x c) :
    c ≤ b := by
  by_contra hle
  have hlt := Nat.not_le.mp hle
  have hsucc : b + 1 < infinityCode := Nat.lt_of_le_of_lt hlt (hc.finite hx)
  have hnext := hb.preferred hx (b + 1) hsucc (by omega)
  have hhigh := hc.preferred hx b (hb.finite hx) hlt.ne
  have hgap := magnitude_strictMono (Nat.lt_add_one b)
  rcases Nat.lt_or_eq_of_le (show b + 1 ≤ c from hlt) with hfar | rfl
  · have hnear := abs_sub_lt_of_le hgap (magnitude_strictMono hfar) hnext.abs_sub_le
    exact absurd hhigh.abs_sub_le (not_le.mpr hnear)
  · unfold Preferred at hnext hhigh
    have hevenb := mantissa_mod_two b
    have hevenc := mantissa_mod_two (b + 1)
    rcases hnext with hnext | ⟨hsame, hnext⟩ <;> rcases hhigh with hhigh | ⟨hsame', hhigh⟩
    · exact lt_asymm hnext hhigh
    · exact hnext.ne' hsame'
    · exact hhigh.ne' hsame
    · omega

theorem IsNearest.le (h : IsNearest x b) : b ≤ infinityCode := by
  rcases le_or_gt overflow x with hx | hx
  · exact (h.infinite hx).le
  · exact (h.finite hx).le

theorem IsNearest.unique (hb : IsNearest x b) (hc : IsNearest x c) : b = c := by
  rcases le_or_gt overflow x with hx | hx
  · rw [hb.infinite hx, hc.infinite hx]
  · exact Nat.le_antisymm (hc.le_of_lt_overflow hx hb) (hb.le_of_lt_overflow hx hc)

/-- The integer `m` is the one closest to `x`, or the even one of two. -/
def ClosestInteger (x : ℚ) (m : Nat) : Prop :=
  |x - m| < 1 / 2 ∨ |x - m| = 1 / 2 ∧ m % 2 = 0

theorem quotient_eq (num : Nat) (hd : 0 < den) :
    (num : ℚ) / den = (num / den : Nat) + (num % den : Nat) / den := by
  have hden : (0 : ℚ) < den := by exact_mod_cast hd
  have hnum : (num : ℚ) = den * (num / den : Nat) + (num % den : Nat) := by
    exact_mod_cast (Nat.div_add_mod num den).symm
  field_simp
  linarith

theorem closestInteger_roundHalfEven (hd : 0 < den) :
    ClosestInteger ((num : ℚ) / den) (roundHalfEven num den) := by
  have hden : (0 : ℚ) < den := by exact_mod_cast hd
  have hnonneg : (0 : ℚ) ≤ (num % den : Nat) / den := by positivity
  have hlt : ((num % den : Nat) : ℚ) / den < 1 := by
    rw [div_lt_one hden]
    exact_mod_cast Nat.mod_lt num hd
  unfold ClosestInteger roundHalfEven
  dsimp only
  rw [quotient_eq num hd]
  split
  · next hlow =>
    have hhalf : ((num % den : Nat) : ℚ) / den < 1 / 2 := by
      rw [div_lt_iff₀ hden]
      have hq : (2 : ℚ) * (num % den : Nat) < den := by exact_mod_cast hlow
      linarith
    left
    rw [add_sub_cancel_left, abs_of_nonneg hnonneg]
    exact hhalf
  · next hlow =>
    split
    · next hhigh =>
      have hhalf : (1 : ℚ) / 2 < (num % den : Nat) / den := by
        rw [lt_div_iff₀ hden]
        have hq : (den : ℚ) < 2 * (num % den : Nat) := by exact_mod_cast hhigh
        linarith
      left
      push_cast
      rw [add_sub_add_left_eq_sub, abs_of_nonpos (by linarith)]
      linarith
    · next hhigh =>
      have hhalf : ((num % den : Nat) : ℚ) / den = 1 / 2 := by
        rw [div_eq_iff hden.ne']
        have hq : (2 : ℚ) * (num % den : Nat) = den := by
          exact_mod_cast Nat.le_antisymm (Nat.not_lt.mp hhigh) (Nat.not_lt.mp hlow)
        linarith
      right
      refine ⟨?_, by omega⟩
      rw [hhalf]
      push_cast
      rw [add_sub_add_left_eq_sub]
      rcases Nat.mod_two_eq_zero_or_one (num / den) with hq | hq <;> rw [hq] <;> norm_num

theorem ClosestInteger.preferred {k : Nat} (h : ClosestInteger x m) (hk : k ≠ m) :
    |x - m| < |x - k| ∨ |x - m| = |x - k| ∧ m % 2 = 0 := by
  have hapart : (1 : ℚ) ≤ |(m : ℚ) - k| := by
    have hint : (1 : Int) ≤ |(m : Int) - k| := Int.one_le_abs (by omega)
    exact_mod_cast hint
  have htriangle := abs_sub_le (m : ℚ) x k
  rw [abs_sub_comm (m : ℚ) x] at htriangle
  rcases h with h | ⟨h, heven⟩
  · left
    linarith
  · rcases lt_or_eq_of_le (show |x - m| ≤ |x - k| by linarith) with hlt | heq
    · exact .inl hlt
    · exact .inr ⟨heq, heven⟩

/-- Rounded to an integer in units of `2 ^ e`, the number `x` is `m`. The unit is the one in which it has
as many digits as a mantissa, or the least there is. -/
structure Rounded (x : ℚ) (m : Nat) (e : Int) : Prop where
  least : -1074 ≤ e
  closest : ClosestInteger (x / 2 ^ e) m
  upper : x / 2 ^ e < 2 ^ 53
  lower : e = -1074 ∨ 2 ^ 52 ≤ x / 2 ^ e

/-- The code of `m` units of `2 ^ e`, which may lie above all finite codes. -/
def codeOf (m : Nat) (e : Int) : Nat := m + (e + 1074).toNat * 2 ^ 52

theorem codeOf_mod_two (m : Nat) (e : Int) : mantissa (codeOf m e) % 2 = m % 2 := by
  rw [mantissa_mod_two]
  unfold codeOf
  omega

theorem ClosestInteger.near (h : ClosestInteger x m) : |x - m| ≤ 1 / 2 := by
  rcases h with h | ⟨h, -⟩
  · exact h.le
  · exact h.le

theorem ClosestInteger.abs_sub_le (h : ClosestInteger x m) (k : Nat) : |x - m| ≤ |x - k| := by
  rcases eq_or_ne k m with rfl | hk
  · exact le_rfl
  · exact (h.preferred hk).elim le_of_lt fun hsame => hsame.1.le

theorem ClosestInteger.le_of_le {k : Nat} (h : ClosestInteger x m) (hk : (k : ℚ) ≤ x) : k ≤ m := by
  by_contra hlt
  have hnext : (m : ℚ) + 1 ≤ k := by exact_mod_cast Nat.not_le.mp hlt
  have hnear := (abs_le.mp h.near).2
  linarith

theorem ClosestInteger.le_of_lt {k : Nat} (h : ClosestInteger x m) (hk : x < k) : m ≤ k := by
  by_contra hlt
  have hnext : (k : ℚ) + 1 ≤ m := by exact_mod_cast Nat.not_le.mp hlt
  have hnear := (abs_le.mp h.near).1
  linarith

theorem magnitude_div_eq (h : e ≤ exponent c) :
    magnitude c / 2 ^ e = (mantissa c * 2 ^ (exponent c - e).toNat : Nat) := by
  have hpow : (0 : ℚ) < 2 ^ e := by positivity
  rw [div_eq_iff hpow.ne', magnitude]
  push_cast
  rw [mul_assoc, ← zpow_natCast, Int.toNat_of_nonneg (by omega), ← zpow_add₀ two_ne_zero,
    Int.sub_add_cancel]

namespace Rounded

variable (h : Rounded x m e)
include h

theorem le : m ≤ 2 ^ 53 := h.closest.le_of_lt (by exact_mod_cast h.upper)

theorem full : e = -1074 ∨ 2 ^ 52 ≤ m :=
  h.lower.imp_right fun hlow => h.closest.le_of_le (by exact_mod_cast hlow)

/-- A carry out of the mantissa moves the number to the next unit. -/
theorem magnitude_codeOf : magnitude (codeOf m e) = m * 2 ^ e := by
  have hle := h.le
  have hfull := h.full
  have hleast := h.least
  have hcode : mantissa (codeOf m e) = m ∧ exponent (codeOf m e) = e ∨
      2 * mantissa (codeOf m e) = m ∧ exponent (codeOf m e) = e + 1 := by
    unfold codeOf mantissa exponent
    split <;> omega
  unfold magnitude
  rcases hcode with ⟨hm, he⟩ | ⟨hm, he⟩
  · rw [hm, he]
  · have hq : (2 : ℚ) * mantissa (codeOf m e) = m := by exact_mod_cast hm
    rw [he, zpow_add_one₀ two_ne_zero]
    linear_combination (2 : ℚ) ^ e * hq

theorem magnitude_lt (hc : exponent c < e) : magnitude c / 2 ^ e < 2 ^ 52 ∧ 2 ^ 52 ≤ x / 2 ^ e := by
  have hpow : (0 : ℚ) < 2 ^ e := by positivity
  constructor
  · have hm : (mantissa c : ℚ) < 2 ^ 53 := by exact_mod_cast mantissa_lt c
    have he : (2 : ℚ) ^ exponent c ≤ 2 ^ (e - 1) := zpow_le_zpow_right₀ one_le_two (by omega)
    rw [div_lt_iff₀ hpow]
    calc magnitude c = mantissa c * 2 ^ exponent c := rfl
      _ < 2 ^ 53 * 2 ^ exponent c := by gcongr
      _ ≤ 2 ^ 53 * 2 ^ (e - 1) := by gcongr
      _ = 2 ^ 52 * 2 ^ e := by rw [zpow_sub_one₀ two_ne_zero]; ring
  · refine h.lower.resolve_left fun he => ?_
    have hleast : -1074 ≤ exponent c := by
      unfold exponent
      omega
    omega

theorem preferred (hc : c ≠ codeOf m e) : Preferred x (codeOf m e) c := by
  have hpow : (0 : ℚ) < 2 ^ e := by positivity
  have hscale : ∀ y : ℚ, |x - y| = |x / 2 ^ e - y / 2 ^ e| * 2 ^ e := by
    intro y
    rw [← sub_div, abs_div, abs_of_pos hpow, div_mul_cancel₀ _ hpow.ne']
  have hown : magnitude (codeOf m e) / 2 ^ e = m := by
    rw [h.magnitude_codeOf, mul_div_cancel_right₀ _ hpow.ne']
  unfold Preferred
  rw [codeOf_mod_two, hscale, hscale (magnitude c), hown]
  suffices hunits : |x / 2 ^ e - m| < |x / 2 ^ e - magnitude c / 2 ^ e| ∨
      |x / 2 ^ e - m| = |x / 2 ^ e - magnitude c / 2 ^ e| ∧ m % 2 = 0 by
    refine hunits.imp (fun hlt => ?_) fun ⟨heq, heven⟩ => ⟨?_, heven⟩
    · gcongr
    · rw [heq]
  rcases le_or_gt e (exponent c) with hgrid | hgrid
  · have hk := magnitude_div_eq hgrid
    rw [hk]
    refine h.closest.preferred fun heq => hc (magnitude_strictMono.injective ?_)
    rw [heq, ← hown] at hk
    exact (div_left_inj' hpow.ne').mp hk
  · -- the other number is farther away than the least mantissa, which is an integer
    obtain ⟨hbelow, hlow⟩ := h.magnitude_lt hgrid
    left
    have hleast := h.closest.abs_sub_le (2 ^ 52)
    rw [Nat.cast_pow, Nat.cast_ofNat, abs_of_nonneg (show (0 : ℚ) ≤ x / 2 ^ e - 2 ^ 52 by linarith)]
      at hleast
    rw [abs_of_nonneg (show (0 : ℚ) ≤ x / 2 ^ e - magnitude c / 2 ^ e by linarith)]
    linarith

theorem lt_overflow (he : e < 971) : x < overflow := by
  have hpow : (0 : ℚ) < 2 ^ e := by positivity
  calc x < 2 ^ 53 * 2 ^ e := (div_lt_iff₀ hpow).mp h.upper
    _ ≤ 2 ^ 53 * 2 ^ ((971 : Int) - 1) := by
      gcongr
      · exact one_le_two
      · omega
    _ = 2 ^ 52 * 2 ^ (971 : Int) := by rw [zpow_sub_one₀ two_ne_zero]; ring
    _ ≤ overflow := by rw [overflow_eq]; gcongr; norm_num

theorem overflow_le_of_lt (he : 971 < e) : overflow ≤ x := by
  have hpow : (0 : ℚ) < 2 ^ e := by positivity
  have hlow := h.lower.resolve_left (by omega)
  calc overflow ≤ 2 ^ 53 * 2 ^ (971 : Int) := by rw [overflow_eq]; gcongr; norm_num
    _ = 2 ^ 52 * 2 ^ ((971 : Int) + 1) := by rw [zpow_add_one₀ two_ne_zero]; ring
    _ ≤ 2 ^ 52 * 2 ^ e := by
      gcongr
      · exact one_le_two
      · omega
    _ ≤ x := (le_div_iff₀ hpow).mp hlow

/-- In the units of the greatest finite numbers the carry starts at the limit: halfway to it the even
neighbour is the upper one. -/
theorem carry_iff (he : e = 971) : 2 ^ 53 ≤ m ↔ overflow ≤ x := by
  have hpow : (0 : ℚ) < 2 ^ e := by positivity
  rw [overflow_eq, ← he, ← le_div_iff₀ hpow]
  constructor
  · intro hm
    have hq : (2 : ℚ) ^ 53 ≤ m := by exact_mod_cast hm
    have hnear := (abs_le.mp h.closest.near).1
    linarith
  · intro hx
    by_contra hm
    have hpref := h.closest.preferred (show 2 ^ 53 ≠ m by omega)
    rw [Nat.cast_pow, Nat.cast_ofNat] at hpref
    have hq : (m : ℚ) ≤ 2 ^ 53 - 1 := by
      have hnext : (m : ℚ) + 1 ≤ 2 ^ 53 := by exact_mod_cast Nat.not_le.mp hm
      linarith
    have hupper := h.upper
    rw [abs_of_nonneg (by linarith), abs_of_neg (by linarith)] at hpref
    rcases hpref with hlt | ⟨heq, heven⟩
    · linarith
    · have hodd : m + 1 = 2 ^ 53 := by
        have hq' : (m : ℚ) + 1 = 2 ^ 53 := by linarith
        exact_mod_cast hq'
      omega

theorem infinityCode_le_iff : infinityCode ≤ codeOf m e ↔ overflow ≤ x := by
  have hle := h.le
  have hfull := h.full
  rcases lt_trichotomy e 971 with he | he | he
  · refine iff_of_false ?_ (not_le.mpr (h.lt_overflow he))
    unfold codeOf infinityCode
    omega
  · rw [← h.carry_iff he]
    unfold codeOf infinityCode
    omega
  · refine iff_of_true ?_ (h.overflow_le_of_lt he)
    unfold codeOf infinityCode
    omega

theorem isNearest : IsNearest x (min (codeOf m e) infinityCode) := by
  have hiff := h.infinityCode_le_iff
  constructor
  · intro hx
    exact Nat.min_eq_right (hiff.mpr hx)
  · intro hx
    have hlt := Nat.not_le.mp fun hle => not_le.mpr hx (hiff.mp hle)
    rwa [Nat.min_eq_left hlt.le]
  · intro hx c _ hc
    have hlt := Nat.not_le.mp fun hle => not_le.mpr hx (hiff.mp hle)
    rw [Nat.min_eq_left hlt.le] at hc ⊢
    exact h.preferred hc

end Rounded

theorem rounded_of_scale (hn : 0 < num) (hd : 0 < den) {e : Int}
    (he : e = max (scale num den - 52) (-1074)) :
    Rounded ((num : ℚ) / den) (roundHalfEven (num * 2 ^ (-e).toNat) (den * 2 ^ e.toNat)) e := by
  have hpow : (0 : ℚ) < 2 ^ e := by positivity
  obtain ⟨hlow, hhigh⟩ := scale_spec hn hd
  have hunits : (num : ℚ) / den / 2 ^ e =
      (num * 2 ^ (-e).toNat : Nat) / (den * 2 ^ e.toNat : Nat) := by
    rw [zpow_eq_div]
    push_cast
    field_simp
  refine ⟨by omega, ?_, ?_, ?_⟩
  · rw [hunits]
    exact closestInteger_roundHalfEven (by positivity)
  · rw [div_lt_iff₀ hpow]
    calc (num : ℚ) / den < 2 ^ (scale num den + 1) := hhigh
      _ ≤ 2 ^ ((53 : Int) + e) := zpow_le_zpow_right₀ one_le_two (by omega)
      _ = 2 ^ 53 * 2 ^ e := zpow_add₀ two_ne_zero _ _
  · rcases eq_or_ne e (-1074) with hleast | hleast
    · exact .inl hleast
    · right
      rw [le_div_iff₀ hpow]
      calc (2 : ℚ) ^ 52 * 2 ^ e = 2 ^ ((52 : Int) + e) := (zpow_add₀ two_ne_zero _ _).symm
        _ = 2 ^ scale num den := by congr 1; omega
        _ ≤ num / den := hlow

theorem isNearest_zero (hx : 0 ≤ x) (hlt : x < 2 ^ (-1075 : Int)) : IsNearest x 0 := by
  have hsmall : x < overflow := by
    rw [overflow_eq]
    calc x < 2 ^ (-1075 : Int) := hlt
      _ ≤ 1 * 2 ^ (971 : Int) := by
        rw [one_mul]
        exact zpow_le_zpow_right₀ one_le_two (by decide)
      _ ≤ (2 ^ 53 - 1 / 2) * 2 ^ (971 : Int) := by gcongr; norm_num
  refine ⟨fun hle => absurd hsmall (not_lt.mpr hle), fun _ => by decide, fun _ c _ hc => .inl ?_⟩
  have hleast := le_magnitude hc
  have hhalf : (2 : ℚ) ^ (-1074 : Int) = 2 ^ (-1075 : Int) * 2 := zpow_add_one₀ two_ne_zero (-1075)
  rw [magnitude_zero, sub_zero, abs_of_nonneg hx, abs_of_neg (by linarith)]
  linarith

theorem isNearest_nearest (num : Nat) (hd : 0 < den) :
    IsNearest ((num : ℚ) / den) (nearest num den) := by
  rcases Nat.eq_zero_or_pos num with rfl | hn
  · rw [Nat.cast_zero, zero_div, nearest_zero]
    exact isNearest_zero le_rfl (by positivity)
  · unfold nearest
    rw [if_neg hn.ne']
    exact (rounded_of_scale hn hd rfl).isNearest

end Binary64

namespace Decimal

def value (d : Decimal) : ℚ := d.digits * 10 ^ d.exponent

theorem value_eq_div (d : Decimal) :
    d.value = (d.digits * 10 ^ d.exponent.toNat : Nat) / (10 ^ (-d.exponent).toNat : Nat) := by
  rw [value, Binary64.zpow_eq_div]
  push_cast
  rw [mul_div_assoc]

theorem two_pow_le_ten_pow (k : Nat) : (2 : ℚ) ^ (3 * k) ≤ 10 ^ k := by
  rw [pow_mul]
  exact pow_le_pow_left₀ (by norm_num) (by norm_num) k

theorem overflow_le_ten_zpow : Binary64.overflow ≤ 10 ^ (400 : Int) := by
  rw [zpow_ofNat]
  calc Binary64.overflow ≤ 2 ^ 1024 := Binary64.overflow_le
    _ ≤ 2 ^ (3 * 400) := pow_le_pow_right₀ one_le_two (by decide)
    _ ≤ 10 ^ 400 := two_pow_le_ten_pow 400

theorem ten_zpow_le_two_zpow : (10 : ℚ) ^ (-400 : Int) ≤ 2 ^ (-1075 : Int) := by
  rw [zpow_neg, zpow_neg, zpow_ofNat, zpow_ofNat]
  refine inv_anti₀ (by positivity) ?_
  calc (2 : ℚ) ^ 1075 ≤ 2 ^ (3 * 400) := pow_le_pow_right₀ one_le_two (by decide)
    _ ≤ 10 ^ 400 := two_pow_le_ten_pow 400

theorem overflow_le_value {d : Decimal} (hpos : 0 < d.digits) (hlarge : 400 < d.exponent) :
    Binary64.overflow ≤ d.value := by
  have hdigits : (1 : ℚ) ≤ d.digits := by exact_mod_cast hpos
  calc Binary64.overflow ≤ 10 ^ (400 : Int) := overflow_le_ten_zpow
    _ ≤ 1 * 10 ^ d.exponent := by
      rw [one_mul]
      exact zpow_le_zpow_right₀ (by norm_num) hlarge.le
    _ ≤ d.digits * 10 ^ d.exponent := by gcongr

theorem value_lt_of_log2 {d : Decimal} (hsmall : d.exponent + d.digits.log2 + 1 < -400) :
    d.value < 2 ^ (-1075 : Int) := by
  have hdigits : (d.digits : ℚ) < 2 ^ (d.digits.log2 + 1) := by
    exact_mod_cast Nat.lt_log2_self
  refine lt_of_lt_of_le ?_ ten_zpow_le_two_zpow
  calc d.value = d.digits * 2 ^ d.exponent * 5 ^ d.exponent := by
        rw [value, mul_assoc, ← mul_zpow]
        norm_num
    _ < 2 ^ (d.digits.log2 + 1) * 2 ^ d.exponent * 5 ^ d.exponent := by gcongr
    _ = 2 ^ (((d.digits.log2 + 1 : Nat) : Int) + d.exponent) * 5 ^ d.exponent := by
        rw [zpow_add₀ two_ne_zero, zpow_natCast]
    _ ≤ 2 ^ (-400 : Int) * 5 ^ (-400 : Int) := by
        gcongr
        · exact one_le_two
        · omega
        · norm_num
        · omega
    _ = 10 ^ (-400 : Int) := by
        rw [← mul_zpow]
        norm_num

/-- A decimal is read as the number closest to it. -/
theorem isNearest_code (d : Decimal) : Binary64.IsNearest d.value d.code := by
  rcases Nat.eq_zero_or_pos d.digits with hzero | hpos
  · rw [code_of_digits_eq_zero hzero, value, hzero, Nat.cast_zero, zero_mul]
    exact Binary64.isNearest_zero le_rfl (by positivity)
  unfold code
  rw [if_neg hpos.ne']
  split
  · next hlarge =>
    have hover := overflow_le_value hpos hlarge
    exact ⟨fun _ => rfl, fun hlt => absurd hover (not_le.mpr hlt),
      fun hlt => absurd hover (not_le.mpr hlt)⟩
  split
  · next hsmall =>
    refine Binary64.isNearest_zero ?_ (value_lt_of_log2 hsmall)
    unfold value
    positivity
  · rw [value_eq_div]
    exact Binary64.isNearest_nearest _ (by positivity)

end Decimal
end Dvilipi
