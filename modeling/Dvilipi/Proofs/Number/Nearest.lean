import Dvilipi.Number.Binary64
import Mathlib.Algebra.Order.Field.Power
import Mathlib.Data.Rat.Cast.Order
import Mathlib.Tactic.FieldSimp
import Mathlib.Tactic.Linarith
import Mathlib.Tactic.Positivity

/-!
Rounding changes nothing where there is nothing to round: the quotient that a code stands for has this
code for its nearest.
-/

namespace Dvilipi.Binary64
set_option autoImplicit false

variable {num den : Nat}

/-- A power with an integer exponent, as the natural powers that stand for it in a quotient. -/
theorem zpow_eq_div {a : ℚ} (k : Int) : a ^ k = a ^ k.toNat / a ^ (-k).toNat := by
  rcases Int.le_total 0 k with hk | hk
  · obtain ⟨n, rfl⟩ := Int.eq_ofNat_of_zero_le hk
    simp
  · obtain ⟨n, hn⟩ := Int.eq_ofNat_of_zero_le (Int.neg_nonneg_of_nonpos hk)
    obtain rfl : k = -(n : Int) := by omega
    simp

theorem two_zpow_le_div (hd : 0 < den) (k : Int) :
    (2 : ℚ) ^ k ≤ (num : ℚ) / den ↔ den * 2 ^ k.toNat ≤ num * 2 ^ (-k).toNat := by
  have hden : (0 : ℚ) < den := by exact_mod_cast hd
  have hpow : (0 : ℚ) < 2 ^ (-k).toNat := by positivity
  rw [zpow_eq_div, div_le_div_iff₀ hpow hden, mul_comm]
  exact_mod_cast Iff.rfl

/-- The scale is where the quotient lies among the powers of two. -/
theorem scale_spec (hn : 0 < num) (hd : 0 < den) :
    (2 : ℚ) ^ scale num den ≤ (num : ℚ) / den ∧ (num : ℚ) / den < 2 ^ (scale num den + 1) := by
  have hden : (0 : ℚ) < den := by exact_mod_cast hd
  have hn₁ : (2 : ℚ) ^ (num.log2 : Int) ≤ num := by
    rw [zpow_natCast]
    exact_mod_cast Nat.log2_self_le hn.ne'
  have hn₂ : (num : ℚ) < 2 ^ ((num.log2 : Int) + 1) := by
    exact_mod_cast Nat.lt_log2_self
  have hd₁ : (2 : ℚ) ^ (den.log2 : Int) ≤ den := by
    rw [zpow_natCast]
    exact_mod_cast Nat.log2_self_le hd.ne'
  have hd₂ : (den : ℚ) < 2 ^ ((den.log2 : Int) + 1) := by
    exact_mod_cast Nat.lt_log2_self
  have hlow : (2 : ℚ) ^ ((num.log2 : Int) - den.log2 - 1) ≤ (num : ℚ) / den := by
    rw [le_div_iff₀ hden]
    calc (2 : ℚ) ^ ((num.log2 : Int) - den.log2 - 1) * den
        ≤ 2 ^ ((num.log2 : Int) - den.log2 - 1) * 2 ^ ((den.log2 : Int) + 1) := by gcongr
      _ = 2 ^ (num.log2 : Int) := by rw [← zpow_add₀ two_ne_zero]; congr 1; omega
      _ ≤ num := hn₁
  have hhigh : (num : ℚ) / den < 2 ^ ((num.log2 : Int) - den.log2 + 1) := by
    rw [div_lt_iff₀ hden]
    calc (num : ℚ) < 2 ^ ((num.log2 : Int) + 1) := hn₂
      _ = 2 ^ ((num.log2 : Int) - den.log2 + 1) * 2 ^ (den.log2 : Int) := by
        rw [← zpow_add₀ two_ne_zero]; congr 1; omega
      _ ≤ 2 ^ ((num.log2 : Int) - den.log2 + 1) * den := by gcongr
  unfold scale
  dsimp only
  split
  · next h => exact ⟨(two_zpow_le_div hd _).mpr h, hhigh⟩
  · next h =>
    rw [Int.sub_add_cancel]
    exact ⟨hlow, lt_of_not_ge fun hle => h ((two_zpow_le_div hd _).mp hle)⟩

theorem le_scale (hn : 0 < num) (hd : 0 < den) {k : Int} (hk : (2 : ℚ) ^ k ≤ (num : ℚ) / den) :
    k ≤ scale num den := by
  have hlt := lt_of_le_of_lt hk (scale_spec hn hd).2
  rw [zpow_lt_zpow_iff_right₀ one_lt_two] at hlt
  omega

theorem scale_lt (hn : 0 < num) (hd : 0 < den) {k : Int} (hk : (num : ℚ) / den < 2 ^ k) :
    scale num den < k := by
  have hlt := lt_of_le_of_lt (scale_spec hn hd).1 hk
  rwa [zpow_lt_zpow_iff_right₀ one_lt_two] at hlt

theorem roundHalfEven_mul (m : Nat) (hd : 0 < den) : roundHalfEven (m * den) den = m := by
  simp [roundHalfEven, hd]

/-- The unit in which the quotient `m * 2 ^ e` is rounded, if `m` has all the digits of a mantissa or
`e` is the least exponent there is. -/
theorem unit_eq (hn : 0 < num) (hd : 0 < den) {m : Nat} {e : Int}
    (hv : (num : ℚ) / den = m * 2 ^ e) (hm : m < 2 ^ 53) (he : -1074 ≤ e)
    (hfull : 2 ^ 52 ≤ m ∨ e = -1074) : max (scale num den - 52) (-1074) = e := by
  have hpow : (0 : ℚ) < 2 ^ e := by positivity
  have hlt : scale num den < e + 53 := by
    refine scale_lt hn hd ?_
    rw [hv, zpow_add₀ two_ne_zero, mul_comm]
    gcongr
    exact_mod_cast hm
  rcases hfull with hfull | rfl
  · have hle : e + 52 ≤ scale num den := by
      refine le_scale hn hd ?_
      rw [hv, zpow_add₀ two_ne_zero, mul_comm]
      gcongr
      exact_mod_cast hfull
    omega
  · omega

theorem nearest_of_eq (hn : 0 < num) (hd : 0 < den) {m : Nat} {e : Int}
    (hv : (num : ℚ) / den = m * 2 ^ e) (hm : m < 2 ^ 53) (he : -1074 ≤ e)
    (hfull : 2 ^ 52 ≤ m ∨ e = -1074) :
    nearest num den = min (m + (e + 1074).toNat * 2 ^ 52) infinityCode := by
  have hden : (den : ℚ) ≠ 0 := by exact_mod_cast hd.ne'
  have hscaled : num * 2 ^ (-e).toNat = m * (den * 2 ^ e.toNat) := by
    have hpow : (2 : ℚ) ^ (-e).toNat ≠ 0 := by positivity
    rw [zpow_eq_div, div_eq_iff hden] at hv
    have hq : (num : ℚ) * 2 ^ (-e).toNat = m * (den * 2 ^ e.toNat) := by
      rw [hv]
      field_simp
    exact_mod_cast hq
  unfold nearest
  rw [if_neg hn.ne']
  simp only [Nat.pow_eq]
  rw [unit_eq hn hd hv hm he hfull, hscaled, roundHalfEven_mul m (by positivity)]
  rfl

/-- The quotient that a finite code stands for rounds to it. -/
theorem nearest_of_code {b : Nat} (hpos : 0 < b) (hfin : b < infinityCode) (hd : 0 < den)
    (hv : (num : ℚ) / den = mantissa b * 2 ^ exponent b) : nearest num den = b := by
  have hden : (0 : ℚ) < den := by exact_mod_cast hd
  have hn : 0 < num := by
    have hm : (0 : ℚ) < mantissa b := by exact_mod_cast mantissa_pos hpos
    have hpow : (0 : ℚ) < 2 ^ exponent b := by positivity
    have hq : (0 : ℚ) < num := by
      rw [← div_pos_iff_of_pos_right hden, hv]
      positivity
    exact_mod_cast hq
  have hfull : 2 ^ 52 ≤ mantissa b ∨ exponent b = -1074 := by
    unfold mantissa exponent
    split <;> omega
  have hcode : mantissa b + (exponent b + 1074).toNat * 2 ^ 52 = b := by
    unfold mantissa exponent
    split <;> omega
  rw [nearest_of_eq hn hd hv (mantissa_lt b) (by unfold exponent; omega) hfull, hcode]
  exact Nat.min_eq_left hfin.le

end Dvilipi.Binary64
