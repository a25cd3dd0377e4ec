import Mathlib
import Dvilipi.Number.Layout
import Dvilipi.Proofs.Number.Nearest

/-!
The positional layout of a number is a numeral that reads back as the number. The shortest digits are
those of some grid, where reading back was tried out, or else all digits, which stand for the number
itself; writing the places out keeps the decimal, or multiplies its digits by the power of ten.
-/

namespace Dvilipi
set_option autoImplicit false

/-- A number is told by its sign and the code of its magnitude. -/
theorem Binary64.ofCode_code (x : Float) : ofCode (isNegative x) (code x) = x := by
  have hlt : x.toBits.toNat < 2 ^ 64 := x.toBits.toNat_lt
  have hbits : (if isNegative x then signBit + code x else code x) = x.toBits.toNat := by
    unfold isNegative code signBit
    simp only [decide_eq_true_eq]
    split <;> omega
  rw [ofCode, hbits]
  simp

namespace Decimal

theorem code_of_pos {d : Decimal} (hpos : 0 < d.digits) (hhigh : d.exponent ≤ 400)
    (hlow : -400 ≤ d.exponent + d.digits.log2 + 1) :
    d.code = Binary64.nearest (d.digits * 10 ^ d.exponent.toNat) (10 ^ (-d.exponent).toNat) := by
  rw [code, if_neg hpos.ne', if_neg (by omega), if_neg (by omega)]
  rfl

theorem digits_exact (b : Nat) : (exact b).digits = Binary64.mantissa b *
    2 ^ (Binary64.exponent b).toNat * 5 ^ (-Binary64.exponent b).toNat := rfl

theorem le_log2_of_pow_le {k n : Nat} (h : 5 ^ k ≤ n) : k ≤ n.log2 := by
  have hpos : n ≠ 0 := (Nat.lt_of_lt_of_le (Nat.pos_of_ne_zero (by simp)) h).ne'
  refine (Nat.le_log2 hpos).mpr (Nat.le_trans ?_ h)
  exact Nat.pow_le_pow_left (by decide) k

theorem code_exact {b : Nat} (hpos : 0 < b) (hfin : b < Binary64.infinityCode) :
    (exact b).code = b := by
  have hm := Binary64.mantissa_pos hpos
  have hdigits : 0 < (exact b).digits := by
    rw [digits_exact]
    positivity
  have hlog : (-Binary64.exponent b).toNat ≤ (exact b).digits.log2 := by
    refine le_log2_of_pow_le ?_
    rw [digits_exact]
    exact Nat.le_mul_of_pos_left _ (by positivity)
  have hexp : (exact b).exponent = min (Binary64.exponent b) 0 := rfl
  rw [code_of_pos hdigits (by omega) (by omega)]
  refine Binary64.nearest_of_code hpos hfin (by positivity) ?_
  have htop : (exact b).exponent.toNat = 0 := by omega
  have hbottom : (-(exact b).exponent).toNat = (-Binary64.exponent b).toNat := by omega
  have hten : (10 : ℚ) ^ (-Binary64.exponent b).toNat =
      2 ^ (-Binary64.exponent b).toNat * 5 ^ (-Binary64.exponent b).toNat := by
    rw [← mul_pow]
    norm_num
  rw [htop, hbottom, Binary64.zpow_eq_div, digits_exact]
  push_cast
  rw [hten]
  field_simp

theorem code_shortest {b : Nat} (hpos : 0 < b) (hfin : b < Binary64.infinityCode) :
    (shortest b).code = b := by
  unfold shortest
  cases h : firstGrid? b 24 (coarsest b) with
  | some d => exact code_of_firstGrid? h
  | none => exact code_exact hpos hfin

theorem bounds_of_code {d : Decimal} (hpos : 0 < d.code) (hfin : d.code < Binary64.infinityCode) :
    0 < d.digits ∧ d.exponent ≤ 400 := by
  have hdigits : d.digits ≠ 0 := fun hzero => by
    rw [code_of_digits_eq_zero hzero] at hpos
    exact Nat.lt_irrefl 0 hpos
  refine ⟨Nat.pos_of_ne_zero hdigits, Int.not_lt.mp fun hlarge => ?_⟩
  rw [code, if_neg hdigits, if_pos hlarge] at hfin
  exact Nat.lt_irrefl _ hfin

def AllDigits (cs : List Char) : Prop := ∀ c ∈ cs, isAsciiDigit c = true

theorem isAsciiDigit_iff {c : Char} :
    isAsciiDigit c = true ↔ 0x30 ≤ c.toNat ∧ c.toNat < 0x3A := by
  simp [isAsciiDigit, Char.le_def, UInt32.le_iff_toNat_le]
  omega

theorem ofDigits_eq_ofDigitChars (cs : List Char) : ofDigits cs = Nat.ofDigitChars 10 cs 0 := by
  rw [ofDigits_eq_foldl, Nat.ofDigitChars_eq_foldl]
  congr 1
  funext n c
  exact Nat.add_comm _ _

theorem digitChars_ne_nil (d : Decimal) : d.digitChars ≠ [] := Nat.toDigits_ne_nil

theorem allDigits_digitChars (d : Decimal) : AllDigits d.digitChars := by
  intro c hc
  have h := Nat.isDigit_of_mem_toDigits (by decide) (by decide) hc
  simpa [isAsciiDigit, Char.isDigit, Char.le_def] using h

theorem allDigits_zeros (n : Nat) : AllDigits (List.replicate n '0') := by
  intro c hc
  rw [List.eq_of_mem_replicate hc]
  decide

theorem AllDigits.append {as bs : List Char} (ha : AllDigits as) (hb : AllDigits bs) :
    AllDigits (as ++ bs) := by
  intro c hc
  rcases List.mem_append.mp hc with h | h
  · exact ha c h
  · exact hb c h

theorem ofDigits_digitChars (d : Decimal) : ofDigits d.digitChars = d.digits := by
  rw [ofDigits_eq_ofDigitChars, digitChars, Nat.ofDigitChars_ten_toDigits]

theorem ofDigits_append_zeros (cs : List Char) (n : Nat) :
    ofDigits (cs ++ List.replicate n '0') = ofDigits cs * 10 ^ n := by
  rw [ofDigits_eq_ofDigitChars, ofDigits_eq_ofDigitChars, Nat.ofDigitChars_append,
    Nat.ofDigitChars_replicate_zero, Nat.mul_comm]

theorem ofDigits_zeros_append (n : Nat) (cs : List Char) :
    ofDigits (List.replicate n '0' ++ cs) = ofDigits cs := by
  rw [ofDigits_eq_ofDigitChars, ofDigits_eq_ofDigitChars, Nat.ofDigitChars_append,
    Nat.ofDigitChars_replicate_zero, Nat.mul_zero]

theorem AllDigits.takeWhile_append {as : List Char} (ha : AllDigits as) (bs : List Char) :
    (as ++ bs).takeWhile isAsciiDigit = as ++ bs.takeWhile isAsciiDigit :=
  List.takeWhile_append_of_pos ha

theorem AllDigits.dropWhile_append {as : List Char} (ha : AllDigits as) (bs : List Char) :
    (as ++ bs).dropWhile isAsciiDigit = bs.dropWhile isAsciiDigit :=
  List.dropWhile_append_of_pos ha

theorem AllDigits.first {as : List Char} (ha : AllDigits as) (hne : as ≠ []) (bs : List Char) :
    ∃ c cs, as ++ bs = c :: cs ∧ isAsciiDigit c = true := by
  obtain ⟨c, cs, rfl⟩ := List.exists_cons_of_ne_nil hne
  exact ⟨c, cs ++ bs, rfl, ha c List.mem_cons_self⟩

theorem unsigned?_whole {cs : List Char} (hcs : AllDigits cs) (hne : cs ≠ []) :
    unsigned? cs = some ⟨ofDigits cs, 0⟩ := by
  have htake := hcs.takeWhile_append []
  have hdrop := hcs.dropWhile_append []
  rw [List.append_nil] at htake hdrop
  simp [unsigned?, mantissa?, htake, hdrop, hne, power?]

theorem unsigned?_point {as bs : List Char} (ha : AllDigits as) (hb : AllDigits bs) (hne : as ≠ []) :
    unsigned? (as ++ '.' :: bs) = some ⟨ofDigits (as ++ bs), -bs.length⟩ := by
  have htake := hb.takeWhile_append []
  have hdrop := hb.dropWhile_append []
  rw [List.append_nil] at htake hdrop
  have hpoint : isAsciiDigit '.' = false := by decide
  simp [unsigned?, mantissa?, ha.takeWhile_append, ha.dropWhile_append, htake, hdrop, hpoint, hne,
    power?]

theorem AllDigits.take {cs : List Char} (h : AllDigits cs) (n : Nat) : AllDigits (cs.take n) :=
  fun c hc => h c (List.mem_of_mem_take hc)

theorem AllDigits.drop {cs : List Char} (h : AllDigits cs) (n : Nat) : AllDigits (cs.drop n) :=
  fun c hc => h c (List.mem_of_mem_drop hc)

theorem take_ne_nil (d : Decimal) {n : Int} (h : 0 < n) : d.digitChars.take n.toNat ≠ [] := by
  rw [Ne, List.take_eq_nil_iff]
  rintro (hz | hz)
  · omega
  · exact digitChars_ne_nil d hz

theorem code_mul_pow {n k : Nat} (hpos : 0 < n) (hk : k ≤ 400) :
    code ⟨n * 10 ^ k, 0⟩ = code ⟨n, k⟩ := by
  rw [code_of_pos (by positivity) (by dsimp only; omega) (by dsimp only; omega),
    code_of_pos hpos (by dsimp only; omega) (by dsimp only; omega)]
  simp

/-- Writing the places out keeps what the decimal reads as. -/
theorem unsigned?_positional {d : Decimal} (hpos : 0 < d.digits) (hexp : d.exponent ≤ 400) :
    ∃ e, unsigned? d.positional = some e ∧ e.code = d.code := by
  have hdigits := allDigits_digitChars d
  have hlength : 0 < d.digitChars.length := List.length_pos_iff.mpr (digitChars_ne_nil d)
  unfold positional
  dsimp only
  split
  · next hwhole =>
    refine ⟨_, unsigned?_whole (hdigits.append (allDigits_zeros _)) (by simp [digitChars_ne_nil]), ?_⟩
    rw [ofDigits_append_zeros, ofDigits_digitChars, code_mul_pow hpos (by omega),
      Int.toNat_of_nonneg hwhole]
  · next hfraction =>
    split
    · next hpoint =>
      refine ⟨_, unsigned?_point (hdigits.take _) (hdigits.drop _) (take_ne_nil d hpoint), ?_⟩
      have hplaces : -((d.digitChars.drop (d.exponent + d.digitChars.length).toNat).length : Int) =
          d.exponent := by
        rw [List.length_drop]
        omega
      rw [List.take_append_drop, ofDigits_digitChars, hplaces]
    · next hpoint =>
      have hzero : AllDigits ['0'] := allDigits_zeros 1
      refine ⟨_, unsigned?_point hzero ((allDigits_zeros _).append hdigits) (List.cons_ne_nil _ _), ?_⟩
      have hplaces : -((List.replicate (-(d.exponent + d.digitChars.length)).toNat '0' ++
          d.digitChars).length : Int) = d.exponent := by
        rw [List.length_append, List.length_replicate]
        omega
      have hvalue : ofDigits (['0'] ++ (List.replicate (-(d.exponent + d.digitChars.length)).toNat '0' ++
          d.digitChars)) = d.digits := by
        rw [← List.append_assoc, show ['0'] = List.replicate 1 '0' from rfl, ← List.replicate_add,
          ofDigits_zeros_append, ofDigits_digitChars]
      rw [hvalue, hplaces]

/-- A text that begins with a digit and goes on with digits and points. -/
def IsNumeral (cs : List Char) : Prop :=
  (∃ c rest, cs = c :: rest ∧ isAsciiDigit c = true) ∧ ∀ c ∈ cs, isAsciiDigit c = true ∨ c = '.'

theorem isNumeral_whole {cs : List Char} (h : AllDigits cs) (hne : cs ≠ []) : IsNumeral cs := by
  refine ⟨?_, fun c hc => .inl (h c hc)⟩
  have hfirst := h.first hne []
  rwa [List.append_nil] at hfirst

theorem isNumeral_point {as bs : List Char} (ha : AllDigits as) (hb : AllDigits bs) (hne : as ≠ []) :
    IsNumeral (as ++ '.' :: bs) := by
  refine ⟨ha.first hne _, fun c hc => ?_⟩
  rcases List.mem_append.mp hc with h | h
  · exact .inl (ha c h)
  · rcases List.mem_cons.mp h with rfl | h
    · exact .inr rfl
    · exact .inl (hb c h)

theorem isNumeral_positional (d : Decimal) : IsNumeral d.positional := by
  have hdigits := allDigits_digitChars d
  unfold positional
  dsimp only
  split
  · exact isNumeral_whole (hdigits.append (allDigits_zeros _)) (by simp [digitChars_ne_nil])
  · split
    · next hpoint =>
      exact isNumeral_point (hdigits.take _) (hdigits.drop _) (take_ne_nil d hpoint)
    · have hzero : AllDigits ['0'] := allDigits_zeros 1
      exact isNumeral_point hzero ((allDigits_zeros _).append hdigits) (List.cons_ne_nil _ _)

theorem toLower_of_isAsciiDigit {c : Char} (h : isAsciiDigit c = true) : c.toLower = c := by
  have hle : c.val ≤ 57 := by simpa [Char.le_def] using (Bool.and_eq_true_iff.mp h).2
  unfold Char.toLower
  rw [dif_neg]
  rintro ⟨hA, -⟩
  have hlt := UInt32.le_trans hA hle
  exact absurd hlt (by decide)

/-- What begins with a digit, behind a minus or not, spells no word. -/
theorem read_signed (negative : Bool) {c : Char} (rest : List Char) (hc : isAsciiDigit c = true) :
    read ((if negative then ['-'] else []) ++ c :: rest) =
      ((unsigned? (c :: rest)).map fun d => Binary64.ofCode negative d.code).getD Binary64.nan := by
  have hne : ∀ d, isAsciiDigit d = false → c ≠ d := by
    rintro d hd rfl
    rw [hc] at hd
    cases hd
  have hsign : sign ((if negative then ['-'] else []) ++ c :: rest) = (negative, c :: rest) := by
    cases negative with
    | true => rfl
    | false =>
      change sign (c :: rest) = _
      unfold sign
      split
      · next h => exact absurd (List.head_eq_of_cons_eq h) (hne '-' (by decide))
      · next h => exact absurd (List.head_eq_of_cons_eq h) (hne '+' (by decide))
      · rfl
  have hlower : c.toLower = c := toLower_of_isAsciiDigit hc
  have hinfinity : isInfinityWord (c :: rest) = false := by
    simp [isInfinityWord, hlower, hne 'i' (by decide)]
  have hnan : isNaNWord (c :: rest) = false := by
    simp [isNaNWord, hlower, hne 'n' (by decide)]
  simp [read, read?, hsign, hinfinity, hnan]

theorem read_eq_of_isNumeral {cs : List Char} (hcs : IsNumeral cs) :
    read cs = ((unsigned? cs).map fun d => Binary64.ofCode false d.code).getD Binary64.nan := by
  obtain ⟨⟨c, rest, rfl, hc⟩, -⟩ := hcs
  exact read_signed false rest hc

theorem read_of_isNumeral {cs : List Char} (hcs : IsNumeral cs) {e : Decimal}
    (he : unsigned? cs = some e) : read cs = Binary64.ofCode false e.code := by
  rw [read_eq_of_isNumeral hcs, he]
  rfl

end Decimal

namespace Number

/-- A finite number with a clear sign. Only these have a numeral without a sign. -/
def IsPlain (x : Float) : Prop := Binary64.code x < Binary64.infinityCode ∧ Binary64.isNegative x = false

instance (x : Float) : Decidable (IsPlain x) :=
  inferInstanceAs (Decidable (Binary64.code x < Binary64.infinityCode ∧ Binary64.isNegative x = false))

variable {x : Float}

theorem ofCode_code_of_isPlain (h : IsPlain x) : Binary64.ofCode false (Binary64.code x) = x := by
  rw [← h.2, Binary64.ofCode_code]

theorem positionalText_of_isPlain (h : IsPlain x) : (positionalText x).toList =
    if Binary64.code x = 0 then ['0'] else (Decimal.shortest (Binary64.code x)).positional := by
  have hnan : Binary64.isNaN x = false := by
    simpa [Binary64.isNaN] using h.1.le
  have hinf : Binary64.isInfinite x = false := by
    simpa [Binary64.isInfinite] using h.1.ne
  unfold positionalText
  simp only [hnan, hinf, h.2]
  by_cases hzero : Binary64.code x = 0
  · simp [hzero]
  · simp [hzero]

theorem isNumeral_positionalText (h : IsPlain x) : Decimal.IsNumeral (positionalText x).toList := by
  rw [positionalText_of_isPlain h]
  split
  · exact Decimal.isNumeral_whole (Decimal.allDigits_zeros 1) (List.cons_ne_nil _ _)
  · exact Decimal.isNumeral_positional _

theorem read_positionalText (h : IsPlain x) : Decimal.read (positionalText x).toList = x := by
  have hnumeral := isNumeral_positionalText h
  rw [positionalText_of_isPlain h] at hnumeral ⊢
  split at hnumeral
  · next hzero =>
    rw [if_pos hzero]
    have hread := Decimal.unsigned?_whole (Decimal.allDigits_zeros 1) (List.cons_ne_nil _ _)
    have hcode : Decimal.code ⟨Decimal.ofDigits ['0'], 0⟩ = Binary64.code x := by
      rw [hzero]
      exact Decimal.code_of_digits_eq_zero rfl
    exact (Decimal.read_of_isNumeral hnumeral hread).trans (hcode ▸ ofCode_code_of_isPlain h)
  · next hzero =>
    rw [if_neg hzero]
    have hcode := Decimal.code_shortest (Nat.pos_of_ne_zero hzero) h.1
    obtain ⟨hdigits, hexp⟩ := Decimal.bounds_of_code
      (by rw [hcode]; exact Nat.pos_of_ne_zero hzero) (by rw [hcode]; exact h.1)
    obtain ⟨e, he, hsame⟩ := Decimal.unsigned?_positional hdigits hexp
    rw [Decimal.read_of_isNumeral hnumeral he, hsame, hcode, ofCode_code_of_isPlain h]

end Number
end Dvilipi
