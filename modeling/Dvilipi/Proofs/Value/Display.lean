import Mathlib
import Dvilipi.Proofs.Number.Scientific
import Dvilipi.Value.Basic

/-!
Numbers as texts and back. The text that shows a number is one that arithmetic takes for the number,
in every layout and with either sign; only the sign of a zero is not shown. So two numbers with the same
text are equal.
-/

namespace Dvilipi
set_option autoImplicit false

open Binary64 (infinityCode isNegative isNaN isInfinite ofCode)

namespace Text

variable {cs : List Char}

theorem dropWhile_isBlank (h : ∀ c ∈ cs, isBlank c = false) : cs.dropWhile isBlank = cs := by
  cases cs with
  | nil => rfl
  | cons c cs => rw [List.dropWhile_cons_of_neg (by simp [h c List.mem_cons_self])]

/-- A text that holds something, and no blank. -/
def Nonblank (cs : List Char) : Prop := cs ≠ [] ∧ ∀ c ∈ cs, isBlank c = false

theorem trim_eq_self (h : ∀ c ∈ cs, isBlank c = false) : trim cs = cs := by
  have hreverse : ∀ c ∈ cs.reverse, isBlank c = false := fun c hc => h c (List.mem_reverse.mp hc)
  rw [trim, dropWhile_isBlank h, dropWhile_isBlank hreverse, List.reverse_reverse]

end Text

namespace Number

variable {x : Float}

theorem valueText_of_isNaN (h : isNaN x = true) : valueText x = "NaN" := by
  simp [valueText, h]

theorem valueText_of_isInfinite (h : isInfinite x = true) : (valueText x).toList =
    (if isNegative x then ['-'] else []) ++ ['I', 'n', 'f', 'i', 'n', 'i', 't', 'y'] := by
  have hnan : isNaN x = false := by
    simp only [isInfinite, beq_iff_eq] at h
    simp [isNaN, h]
  simp [valueText, h, hnan]

theorem valueText_of_zero (h : Binary64.code x = 0) : valueText x = "0" := by
  have hnan : isNaN x = false := by simp [isNaN, h]
  have hinf : isInfinite x = false := by
    rw [isInfinite, h]
    rfl
  simp [valueText, h, hnan, hinf]

theorem valueText_of_finite (hpos : 0 < Binary64.code x) (hfin : Binary64.code x < infinityCode) :
    ∃ cs, (valueText x).toList = (if isNegative x then ['-'] else []) ++ cs ∧
      Decimal.Denotes cs (Binary64.code x) := by
  have hnan : isNaN x = false := by
    simpa [isNaN] using hfin.le
  have hinf : isInfinite x = false := by
    simpa [isInfinite] using hfin.ne
  have hcode := Decimal.code_shortest hpos hfin
  have hpositional := Decimal.denotes_positional (hcode.symm ▸ hpos) (hcode.symm ▸ hfin)
  have hscientific := Decimal.denotes_scientific (hcode.symm ▸ hpos) (hcode.symm ▸ hfin)
  rw [hcode] at hpositional hscientific
  unfold valueText
  simp only [hnan, hinf, hpos.ne', Bool.false_eq_true, if_false, String.toList_ofList]
  refine ⟨_, rfl, ?_⟩
  split
  · exact hpositional
  · exact hscientific

/-- What a number can be: not-a-number, infinite, zero, or finite with some magnitude. -/
theorem code_cases (x : Float) : isNaN x = true ∨ isInfinite x = true ∨ Binary64.code x = 0 ∨
    0 < Binary64.code x ∧ Binary64.code x < infinityCode := by
  simp only [isNaN, isInfinite, decide_eq_true_eq, beq_iff_eq]
  omega

theorem nonblank_valueText (x : Float) : Text.Nonblank (valueText x).toList := by
  have hsigned : ∀ cs : List Char, Text.Nonblank cs →
      Text.Nonblank ((if isNegative x then ['-'] else []) ++ cs) := by
    rintro cs ⟨hne, hcs⟩
    refine ⟨List.append_ne_nil_of_right_ne_nil _ hne, List.forall_mem_append.mpr ⟨?_, hcs⟩⟩
    split <;> simp [Text.isBlank]
  rcases code_cases x with hnan | hinf | hzero | ⟨hpos, hfin⟩
  · rw [valueText_of_isNaN hnan]
    simp [Text.Nonblank, Text.isBlank]
  · rw [valueText_of_isInfinite hinf]
    exact hsigned _ (by simp [Text.Nonblank, Text.isBlank])
  · rw [valueText_of_zero hzero]
    simp [Text.Nonblank, Text.isBlank]
  · obtain ⟨cs, htext, hcs⟩ := valueText_of_finite hpos hfin
    rw [htext]
    exact hsigned cs ⟨hcs.ne_nil, hcs.solid⟩

/-- The text of a number denotes the number; it tells no sign of a zero. -/
theorem read_valueText (h : isNaN x = false) :
    Decimal.read (valueText x).toList = if Binary64.code x = 0 then 0.0 else x := by
  rcases code_cases x with hnan | hinf | hzero | ⟨hpos, hfin⟩
  · rw [h] at hnan
    cases hnan
  · have hread : ∀ negative : Bool, Decimal.read ((if negative then ['-'] else []) ++
        ['I', 'n', 'f', 'i', 'n', 'i', 't', 'y']) = ofCode negative infinityCode := by
      decide +kernel
    have hcode : Binary64.code x = infinityCode := by simpa [isInfinite] using hinf
    rw [valueText_of_isInfinite hinf, hread, if_neg (by rw [hcode]; decide), ← hcode]
    exact Binary64.ofCode_code x
  · rw [valueText_of_zero hzero, if_pos hzero]
    decide +kernel
  · obtain ⟨cs, htext, hcs⟩ := valueText_of_finite hpos hfin
    rw [htext, Decimal.read_of_denotes hcs, if_neg hpos.ne']
    exact Binary64.ofCode_code x

end Number

namespace Value

theorem numberOfText_of_nonblank {text : String} (h : Text.Nonblank text.toList) :
    numberOfText text = Decimal.read text.toList := by
  unfold numberOfText
  rw [Text.trim_eq_self h.2]
  split
  · next hnil => exact absurd hnil h.1
  · rfl

theorem toNumber_of_isNumeral {cs : List Char} (h : Decimal.IsNumeral cs) :
    toNumber (string (String.ofList cs)) = Decimal.read cs := by
  have hne : cs ≠ [] := by
    obtain ⟨c, rest, rfl, -⟩ := h.1
    exact List.cons_ne_nil c rest
  have hnonblank : Text.Nonblank (String.ofList cs).toList := by
    rw [String.toList_ofList]
    exact ⟨hne, Decimal.isBlank_of_isNumeral h⟩
  have hnumber := numberOfText_of_nonblank hnonblank
  rwa [String.toList_ofList] at hnumber

theorem toNumber_valueText (x : Float) :
    toNumber (string (display (number x))) = Decimal.read (Number.valueText x).toList :=
  numberOfText_of_nonblank (Number.nonblank_valueText x)

variable {x y : Float}

theorem equals_number_self (h : isNaN x = false) : equals (number x) (number x) = true := by
  have hne : x ≠ Float.nan := by
    rintro rfl
    exact absurd h (by decide +kernel)
  exact Float.beq_self_iff.mpr hne

theorem equals_number_zero (hx : Binary64.code x = 0) (hy : Binary64.code y = 0) :
    equals (number x) (number y) = true := by
  have hzeros : ∀ a b : Bool, (ofCode a 0 == ofCode b 0) = true := by decide +kernel
  have hequal := hzeros (isNegative x) (isNegative y)
  rw [← hx, Binary64.ofCode_code, hx, ← hy, Binary64.ofCode_code] at hequal
  exact hequal

/-- The text that shows a number is taken for this number, a negative zero for zero, and that of
not-a-number for not-a-number. So numbers that are shown alike are equal. -/
theorem toNumber_display (x : Float) :
    (isNaN x = true → isNaN (toNumber (string (display (number x)))) = true) ∧
      (isNaN x = false →
        toNumber (string (display (number x))) = if Binary64.code x = 0 then 0.0 else x) ∧
      ∀ y, isNaN x = false → isNaN y = false → display (number x) = display (number y) →
        equals (number x) (number y) = true := by
  have hback : ∀ z, isNaN z = false →
      toNumber (string (display (number z))) = if Binary64.code z = 0 then 0.0 else z := by
    intro z hz
    rw [toNumber_valueText, Number.read_valueText hz]
  refine ⟨fun hnan => ?_, hback x, fun y hx hy hsame => ?_⟩
  · rw [toNumber_valueText, Number.valueText_of_isNaN hnan]
    decide +kernel
  · have hxy := hback x hx
    rw [hsame, hback y hy] at hxy
    have hzero : Binary64.code 0.0 = 0 := by decide +kernel
    split at hxy
    · next hycode =>
      split at hxy
      · next hxcode => exact equals_number_zero hxcode hycode
      · next hxcode =>
        rw [← hxy] at hxcode
        exact absurd hzero hxcode
    · next hycode =>
      split at hxy
      · rw [hxy] at hycode
        exact absurd hzero hycode
      · rw [hxy]
        exact equals_number_self hx

/-- A negative number that is shown with a power of ten, and the two zeros. -/
theorem toNumber_display_power :
    isNaN (-1.5e-7) = false ∧ display (number (-1.5e-7)) = "-1.5e-7" ∧
      toNumber (string "-1.5e-7") = -1.5e-7 ∧
      isNaN Binary64.nan = true ∧ isNaN (toNumber (string (display (number Binary64.nan)))) = true ∧
      isNaN (-0.0) = false ∧ isNaN 0.0 = false ∧
      display (number (-0.0)) = display (number 0.0) ∧
      equals (number (-0.0)) (number 0.0) = true := by
  have hpower : isNaN (-1.5e-7) = false := by decide +kernel
  have hshown : display (number (-1.5e-7)) = "-1.5e-7" := by decide +kernel
  have hnan : isNaN Binary64.nan = true := by decide +kernel
  have hminus : isNaN (-0.0) = false := by decide +kernel
  have hzero : isNaN 0.0 = false := by decide +kernel
  have hsame : display (number (-0.0)) = display (number 0.0) := by decide +kernel
  have hback := (toNumber_display (-1.5e-7)).2.1 hpower
  rw [hshown, if_neg (by decide +kernel)] at hback
  exact ⟨hpower, hshown, hback, hnan, (toNumber_display Binary64.nan).1 hnan, hminus, hzero, hsame,
    (toNumber_display (-0.0)).2.2 0.0 hminus hzero hsame⟩

end Value
end Dvilipi
