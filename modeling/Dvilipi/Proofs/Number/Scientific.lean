import Dvilipi.Proofs.Number.ReadsBack
import Dvilipi.Proofs.Number.Rounding
import Dvilipi.Text.Blank

/-!
The scientific layout of a number reads back as its digits and its power of ten: a power that a finite
number can have is far below the size from which on digits of a power are passed over. So either layout
denotes the number, behind a minus or not.
-/

namespace Dvilipi
set_option autoImplicit false

namespace Decimal

variable {d : Decimal}

theorem value_between (hpos : 0 < d.digits) :
    (10 : ℚ) ^ d.leading ≤ d.value ∧ d.value < 10 ^ (d.leading + 1) := by
  have hpow : (0 : ℚ) < 10 ^ d.exponent := by positivity
  have hlength : 0 < d.digitChars.length := List.length_pos_iff.mpr (digitChars_ne_nil d)
  have hfits : ∀ k, 0 < k → (d.digitChars.length ≤ k ↔ d.digits < 10 ^ k) :=
    fun k hk => Nat.length_toDigits_le_iff (by decide) hk
  have hlow : 10 ^ (d.digitChars.length - 1) ≤ d.digits := by
    rcases Nat.eq_zero_or_pos (d.digitChars.length - 1) with hone | hmore
    · rw [hone]
      exact hpos
    · have hnot := mt (hfits _ hmore).mpr (by omega)
      exact Nat.not_lt.mp hnot
  have hhigh : d.digits < 10 ^ d.digitChars.length := (hfits _ hlength).mp (Nat.le_refl _)
  have hbottom : d.leading = ((d.digitChars.length - 1 : Nat) : Int) + d.exponent := by
    unfold leading
    omega
  have htop : d.leading + 1 = (d.digitChars.length : Int) + d.exponent := by
    unfold leading
    omega
  have hten : (10 : ℚ) ≠ 0 := by norm_num
  rw [htop, hbottom, zpow_add₀ hten, zpow_add₀ hten, zpow_natCast, zpow_natCast, value]
  constructor
  · gcongr
    exact_mod_cast hlow
  · gcongr
    exact_mod_cast hhigh

/-- What reads as a positive finite number has a first digit in the range of these numbers. -/
theorem leading_lt_powerLimit (hpos : 0 < d.code) (hfin : d.code < Binary64.infinityCode) :
    d.leading.natAbs < powerLimit := by
  have hnearest := d.isNearest_code
  obtain ⟨hlow, hhigh⟩ := value_between (bounds_of_code hpos hfin).1
  have hten : (1 : ℚ) < 10 := by norm_num
  have hupper : d.leading < 400 := by
    have hvalue : d.value < Binary64.overflow := by
      by_contra hlarge
      exact hfin.ne (hnearest.infinite (not_lt.mp hlarge))
    rw [← zpow_lt_zpow_iff_right₀ hten]
    calc (10 : ℚ) ^ d.leading ≤ d.value := hlow
      _ < Binary64.overflow := hvalue
      _ ≤ 10 ^ (400 : Int) := overflow_le_ten_zpow
  have hlower : -400 < d.leading + 1 := by
    have hvalue : (2 : ℚ) ^ (-1075 : Int) ≤ d.value := by
      by_contra hsmall
      have hnonneg : 0 ≤ d.value := le_trans (by positivity) hlow
      have hzero := Binary64.isNearest_zero hnonneg (not_le.mp hsmall)
      exact hpos.ne' (hnearest.unique hzero)
    rw [← zpow_lt_zpow_iff_right₀ hten]
    calc (10 : ℚ) ^ (-400 : Int) ≤ 2 ^ (-1075 : Int) := ten_zpow_le_two_zpow
      _ ≤ d.value := hvalue
      _ < 10 ^ (d.leading + 1) := hhigh
  unfold powerLimit
  omega

theorem powerSize_eq_ofDigits {cs : List Char} (h : ofDigits cs < powerLimit) :
    powerSize cs = ofDigits cs := by
  rw [ofDigits_eq_foldl] at h ⊢
  unfold powerSize
  induction cs using List.reverseRecOn with
  | nil => rfl
  | append_singleton cs c ih =>
    rw [List.foldl_append, List.foldl_cons, List.foldl_nil] at h ⊢
    rw [List.foldl_append, List.foldl_cons, List.foldl_nil]
    have hbefore : cs.foldl (fun n c => digit c + 10 * n) 0 < powerLimit := by omega
    rw [ih hbefore, if_pos hbefore, Nat.add_comm, Nat.mul_comm]

def powerChars (k : Int) : List Char :=
  'e' :: (if k < 0 then '-' else '+') :: Nat.toDigits 10 k.natAbs

theorem power?_powerChars {k : Int} (h : k.natAbs < powerLimit) : power? (powerChars k) = some k := by
  have hne : Nat.toDigits 10 k.natAbs ≠ [] := Nat.toDigits_ne_nil
  have hdigits : (Nat.toDigits 10 k.natAbs).all isAsciiDigit = true :=
    List.all_eq_true.mpr (allDigits_digitChars ⟨k.natAbs, 0⟩)
  have hvalue : ofDigits (Nat.toDigits 10 k.natAbs) = k.natAbs := ofDigits_digitChars ⟨k.natAbs, 0⟩
  have hsize : powerSize (Nat.toDigits 10 k.natAbs) = k.natAbs := by
    rw [powerSize_eq_ofDigits (hvalue.symm ▸ h), hvalue]
  have hsign : (if k < 0 then -(k.natAbs : Int) else k.natAbs) = k := by
    split <;> omega
  unfold powerChars
  by_cases hk : k < 0
  · rw [if_pos hk] at hsign ⊢
    simpa [power?, sign, hne, hdigits, hsize] using hsign
  · rw [if_neg hk] at hsign ⊢
    simpa [power?, sign, hne, hdigits, hsize] using hsign

theorem mantissa?_point {c : Char} {rest tail : List Char} (hc : isAsciiDigit c = true)
    (hrest : AllDigits rest) (htail : ∀ a ∈ tail.head?, isAsciiDigit a = false) :
    mantissa? (c :: '.' :: (rest ++ tail)) =
      some (⟨ofDigits (c :: rest), -rest.length⟩, tail) := by
  have hpoint : isAsciiDigit '.' = false := by decide
  have hstop : tail.takeWhile isAsciiDigit = [] ∧ tail.dropWhile isAsciiDigit = tail := by
    cases tail with
    | nil => exact ⟨rfl, rfl⟩
    | cons a tail => simp [htail a rfl]
  simp [mantissa?, hc, hpoint, hrest.takeWhile_append, hrest.dropWhile_append, hstop]

theorem mantissa?_digit {c : Char} {tail : List Char} (hc : isAsciiDigit c = true)
    (htail : ∀ a ∈ tail.head?, isAsciiDigit a = false ∧ a ≠ '.') :
    mantissa? (c :: tail) = some (⟨ofDigits [c], 0⟩, tail) := by
  have hstop : tail.takeWhile isAsciiDigit = [] ∧ tail.dropWhile isAsciiDigit = tail ∧
      (tail.head? == some '.') = false := by
    cases tail with
    | nil => exact ⟨rfl, rfl, rfl⟩
    | cons a tail => simp [htail a rfl]
  simp [mantissa?, hc, hstop]

theorem scientific_eq (d : Decimal) : d.scientific =
    match d.digitChars with
    | [] => powerChars d.leading
    | [c] => c :: powerChars d.leading
    | c :: rest => c :: '.' :: (rest ++ powerChars d.leading) := rfl

theorem unsigned?_scientific (h : d.leading.natAbs < powerLimit) :
    unsigned? d.scientific = some d := by
  have hdigits := allDigits_digitChars d
  have hvalue := ofDigits_digitChars d
  have hpower : power? (powerChars d.leading) = some d.leading := power?_powerChars h
  have hhead : ∀ a ∈ (powerChars d.leading).head?, isAsciiDigit a = false ∧ a ≠ '.' := by
    intro a ha
    obtain rfl : 'e' = a := Option.some.inj ha
    decide
  -- the digits behind the point are taken off the power of the first one
  have hexponent : d.exponent = -((d.digitChars.length - 1 : Nat) : Int) + d.leading := by
    have hlength : 0 < d.digitChars.length := List.length_pos_iff.mpr (digitChars_ne_nil d)
    unfold leading
    omega
  rw [scientific_eq]
  cases hchars : d.digitChars with
  | nil => exact absurd hchars (digitChars_ne_nil d)
  | cons c rest =>
    rw [hchars] at hdigits hvalue hexponent
    have hc := hdigits c List.mem_cons_self
    cases rest with
    | nil =>
      have hmantissa := mantissa?_digit hc hhead
      simp only [unsigned?, hmantissa, hpower, Option.bind_eq_bind, Option.bind_some, hvalue]
      exact congrArg some (congrArg (Decimal.mk d.digits) hexponent.symm)
    | cons b rest =>
      have hrest : AllDigits (b :: rest) := fun a ha => hdigits a (List.mem_cons_of_mem c ha)
      have hmantissa := mantissa?_point hc hrest fun a ha => (hhead a ha).1
      simp only [unsigned?, hmantissa, hpower, Option.bind_eq_bind, Option.bind_some, hvalue]
      exact congrArg some (congrArg (Decimal.mk d.digits) hexponent.symm)

/-- The text begins with a digit, holds no blank and is read as the number with code `b`. -/
structure Denotes (cs : List Char) (b : Nat) : Prop where
  first : ∃ c rest, cs = c :: rest ∧ isAsciiDigit c = true
  solid : ∀ c ∈ cs, Text.isBlank c = false
  reads : ∃ e, unsigned? cs = some e ∧ e.code = b

theorem isBlank_of_isAsciiDigit {c : Char} (h : isAsciiDigit c = true) : Text.isBlank c = false := by
  rw [isAsciiDigit_iff] at h
  simp [Text.isBlank]
  omega

theorem isBlank_of_isNumeral {cs : List Char} (h : IsNumeral cs) :
    ∀ c ∈ cs, Text.isBlank c = false := by
  intro c hc
  rcases h.2 c hc with hdigit | rfl
  · exact isBlank_of_isAsciiDigit hdigit
  · decide

theorem denotes_positional (hpos : 0 < d.code) (hfin : d.code < Binary64.infinityCode) :
    Denotes d.positional d.code := by
  obtain ⟨hdigits, hexponent⟩ := bounds_of_code hpos hfin
  have hnumeral := isNumeral_positional d
  exact ⟨hnumeral.1, isBlank_of_isNumeral hnumeral, unsigned?_positional hdigits hexponent⟩

theorem isBlank_of_mem_powerChars {k : Int} : ∀ c ∈ powerChars k, Text.isBlank c = false := by
  intro c hc
  rcases List.mem_cons.mp hc with rfl | hc
  · decide
  rcases List.mem_cons.mp hc with rfl | hc
  · split <;> decide
  · exact isBlank_of_isAsciiDigit (allDigits_digitChars ⟨k.natAbs, 0⟩ c hc)

theorem denotes_scientific (hpos : 0 < d.code) (hfin : d.code < Binary64.infinityCode) :
    Denotes d.scientific d.code := by
  have hreads := unsigned?_scientific (leading_lt_powerLimit hpos hfin)
  have hdigits := allDigits_digitChars d
  rw [scientific_eq] at hreads ⊢
  cases hchars : d.digitChars with
  | nil => exact absurd hchars (digitChars_ne_nil d)
  | cons c rest =>
    rw [hchars] at hreads hdigits
    have hc := hdigits c List.mem_cons_self
    have hsolid : ∀ a ∈ c :: '.' :: (rest ++ powerChars d.leading), Text.isBlank a = false := by
      intro a ha
      simp only [List.mem_cons, List.mem_append] at ha
      rcases ha with rfl | rfl | ha | ha
      · exact isBlank_of_isAsciiDigit hc
      · decide
      · exact isBlank_of_isAsciiDigit (hdigits a (List.mem_cons_of_mem c ha))
      · exact isBlank_of_mem_powerChars a ha
    cases rest with
    | nil =>
      refine ⟨⟨c, _, rfl, hc⟩, fun a ha => hsolid a ?_, d, hreads, rfl⟩
      exact List.mem_cons.mpr ((List.mem_cons.mp ha).imp_right (List.mem_cons_of_mem '.'))
    | cons b rest => exact ⟨⟨c, _, rfl, hc⟩, hsolid, d, hreads, rfl⟩

theorem Denotes.ne_nil {cs : List Char} {b : Nat} (h : Denotes cs b) : cs ≠ [] := by
  obtain ⟨c, rest, rfl, -⟩ := h.first
  exact List.cons_ne_nil c rest

theorem read_of_denotes {cs : List Char} {b : Nat} (h : Denotes cs b) (negative : Bool) :
    read ((if negative then ['-'] else []) ++ cs) = Binary64.ofCode negative b := by
  obtain ⟨c, rest, rfl, hc⟩ := h.first
  obtain ⟨e, he, rfl⟩ := h.reads
  rw [read_signed negative rest hc, he]
  rfl

end Decimal
end Dvilipi
