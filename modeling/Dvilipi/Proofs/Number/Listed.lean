import Dvilipi.Proofs.Number.ReadsBack

/-!
Numbers in listings. Whatever a numeral stands for, its text reads back as the same number: finite
numbers do, and so do infinity, which a long numeral may stand for, and not-a-number.
-/

namespace Dvilipi
set_option autoImplicit false

namespace Binary64

open Float.Model (UnpackedFloat)
open Float.Model.UnpackedFloat (isNaNBits unpackExponent unpackMantissa)

theorem isNaNBits_eq_false {b : BitVec 64} (h : b.toNat ≤ infinityCode) :
    @isNaNBits .binary64 b = false := by
  refine decide_eq_false fun hnan => hnan.2 ?_
  have hexponent := congrArg BitVec.toNat hnan.1
  apply BitVec.eq_of_toNat_eq
  simp only [unpackExponent, unpackMantissa, BitVec.toNat_cast, BitVec.extractLsb_toNat]
    at hexponent ⊢
  have hones : (-1#11).toNat = 2047 := by decide
  rw [hones, Nat.shiftRight_eq_div_pow] at hexponent
  unfold infinityCode at h
  simp only [Nat.shiftRight_zero, BitVec.toNat_ofNat]
  omega

theorem toBits_ofCode {n : Nat} (h : n ≤ infinityCode) : (ofCode false n).toBits.toNat = n := by
  have hlt : n < 2 ^ 64 := Nat.lt_of_le_of_lt h (by decide)
  have hbits : (UInt64.ofNat n).toBitVec.toNat = n := by
    rw [UInt64.toNat_toBitVec, UInt64.toNat_ofNat', Nat.mod_eq_of_lt hlt]
  have hpack := @UnpackedFloat.pack_unpack .binary64 (UInt64.ofNat n).toBitVec
  rw [isNaNBits_eq_false (Nat.le_trans (Nat.le_of_eq hbits) h)] at hpack
  exact (congrArg BitVec.toNat hpack).trans hbits

theorem code_ofCode {n : Nat} (h : n ≤ infinityCode) : code (ofCode false n) = n := by
  rw [code, toBits_ofCode h]
  exact Nat.mod_eq_of_lt (Nat.lt_of_le_of_lt h (by decide))

theorem isNegative_ofCode {n : Nat} (h : n ≤ infinityCode) :
    isNegative (ofCode false n) = false := by
  rw [isNegative, toBits_ofCode h]
  exact decide_eq_false (Nat.not_le_of_lt (Nat.lt_of_le_of_lt h (by decide)))

end Binary64

namespace Number

theorem isPlain_ofCode {n : Nat} (h : n < Binary64.infinityCode) :
    IsPlain (Binary64.ofCode false n) :=
  ⟨(Binary64.code_ofCode h.le).symm ▸ h, Binary64.isNegative_ofCode h.le⟩

theorem read_positionalText_ofCode {n : Nat} (h : n ≤ Binary64.infinityCode) :
    Decimal.read (positionalText (Binary64.ofCode false n)).toList = Binary64.ofCode false n := by
  rcases Nat.lt_or_eq_of_le h with hlt | rfl
  · exact read_positionalText (isPlain_ofCode hlt)
  · decide +kernel

theorem read_positionalText_nan :
    Decimal.read (positionalText Binary64.nan).toList = Binary64.nan := by
  decide +kernel

/-- A numeral is listed as a text that stands for the same number. -/
theorem read_positionalText_read {cs : List Char} (hcs : Decimal.IsNumeral cs) :
    Decimal.read (positionalText (Decimal.read cs)).toList = Decimal.read cs := by
  rw [Decimal.read_eq_of_isNumeral hcs]
  cases Decimal.unsigned? cs with
  | none => exact read_positionalText_nan
  | some d => exact read_positionalText_ofCode d.code_le

theorem newline_notMem_positionalText_ofCode {n : Nat} (h : n ≤ Binary64.infinityCode) :
    '\n' ∉ (positionalText (Binary64.ofCode false n)).toList := by
  rcases Nat.lt_or_eq_of_le h with hlt | rfl
  · intro hmem
    rcases (isNumeral_positionalText (isPlain_ofCode hlt)).2 _ hmem with hdigit | hpoint
    · exact absurd hdigit (by decide)
    · exact absurd hpoint (by decide)
  · decide +kernel

theorem newline_notMem_positionalText_read {cs : List Char} (hcs : Decimal.IsNumeral cs) :
    '\n' ∉ (positionalText (Decimal.read cs)).toList := by
  rw [Decimal.read_eq_of_isNumeral hcs]
  cases Decimal.unsigned? cs with
  | none => decide +kernel
  | some d => exact newline_notMem_positionalText_ofCode d.code_le

end Number
end Dvilipi
