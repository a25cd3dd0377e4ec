import Dvilipi.Proofs.Number.Listed
import Dvilipi.Proofs.Number.Rounding

/-!
What numerals denote. The digits before the point count whole ones and those behind it tenths,
hundredths and so on; a numeral with at most one point is read as the number without a sign that is
closest to what it denotes, and one with more points as not-a-number.
-/

namespace Dvilipi
set_option autoImplicit false

namespace Binary64

variable {q : ℚ} {b : Nat} {x y : Float}

/-- The rational that a finite number is. -/
def value (x : Float) : ℚ := if isNegative x then -magnitude (code x) else magnitude (code x)

/-- Of all numbers `x` is the closest to `q`, or the even one of two that are equally close; from the
limit of overflow on it is infinite. -/
structure RoundsTo (q : ℚ) (x : Float) : Prop where
  infinite : overflow ≤ q → isInfinite x = true
  finite : q < overflow → code x < infinityCode
  closest : q < overflow → ∀ y, code y < infinityCode → value y ≠ value x →
    |q - value x| < |q - value y| ∨ |q - value x| = |q - value y| ∧ mantissa (code x) % 2 = 0

theorem value_of_isNegative_eq_false (h : isNegative x = false) : value x = magnitude (code x) := by
  simp [value, h]

theorem value_of_isNegative (h : isNegative x = true) : value x = -magnitude (code x) := by
  simp [value, h]

theorem abs_sub_zero_le (hq : 0 ≤ q) (hy : isNegative y = true) : |q - magnitude 0| ≤ |q - value y| := by
  have hnonneg := magnitude_nonneg (code y)
  rw [value_of_isNegative hy, magnitude_zero, sub_zero, sub_neg_eq_add, abs_of_nonneg hq,
    abs_of_nonneg (add_nonneg hq hnonneg)]
  exact le_add_of_nonneg_right hnonneg

/-- Among the numbers without a sign the closest is told by its code. -/
theorem roundsTo_iff (hq : 0 ≤ q) (hx : isNegative x = false) :
    RoundsTo q x ↔ IsNearest q (code x) := by
  have hvalue := value_of_isNegative_eq_false hx
  constructor
  · intro h
    refine ⟨fun hover => by simpa [isInfinite] using h.infinite hover, h.finite, fun hlt c hc hne => ?_⟩
    have hy : value (ofCode false c) = magnitude c := by
      rw [value_of_isNegative_eq_false (isNegative_ofCode hc.le), code_ofCode hc.le]
    have hclosest := h.closest hlt (ofCode false c) (by rwa [code_ofCode hc.le]) <| by
      rw [hy, hvalue]
      exact magnitude_strictMono.injective.ne hne
    rwa [hy, hvalue] at hclosest
  · intro h
    refine ⟨fun hover => by simpa [isInfinite] using h.infinite hover, h.finite, fun hlt y hy hne => ?_⟩
    rw [hvalue] at hne ⊢
    cases hsign : isNegative y with
    | false =>
      rw [value_of_isNegative_eq_false hsign] at hne ⊢
      exact h.preferred hlt (code y) hy fun hcode => hne (congrArg magnitude hcode)
    | true =>
      -- zero stands between the two
      have hfar := abs_sub_zero_le hq hsign
      rcases eq_or_ne 0 (code x) with hzero | hzero
      · rw [← hzero]
        rcases hfar.lt_or_eq with hfar | hfar
        · exact .inl hfar
        · exact .inr ⟨hfar, by decide⟩
      · rcases h.preferred hlt 0 (by decide) hzero with hnear | ⟨hnear, heven⟩
        · exact .inl (hnear.trans_le hfar)
        · rcases hfar.lt_or_eq with hfar | hfar
          · exact .inl (hnear.trans_lt hfar)
          · exact .inr ⟨hnear.trans hfar, heven⟩

/-- One number without a sign is the closest, that with the nearest code. -/
theorem roundsTo_iff_eq (hq : 0 ≤ q) (h : IsNearest q b) (y : Float) :
    isNegative y = false ∧ RoundsTo q y ↔ y = ofCode false b := by
  constructor
  · rintro ⟨hsign, hy⟩
    have hcode : code y = b := ((roundsTo_iff hq hsign).mp hy).unique h
    rw [← hcode, ← hsign, ofCode_code]
  · rintro rfl
    have hsign := isNegative_ofCode h.le
    refine ⟨hsign, (roundsTo_iff hq hsign).mpr ?_⟩
    rwa [code_ofCode h.le]

end Binary64

namespace Decimal

variable {cs as bs : List Char}

/-- The value of the digits before the point. -/
def wholeValue (cs : List Char) : ℚ := cs.foldl (fun q c => 10 * q + digit c) 0

/-- The value of the digits behind the point, the first of which counts tenths. -/
def fractionValue : List Char → ℚ
  | [] => 0
  | c :: cs => (digit c + fractionValue cs) / 10

/-- What digits with at most one point among them denote. -/
def denoted (cs : List Char) : ℚ :=
  wholeValue (cs.takeWhile (· ≠ '.')) + fractionValue (cs.dropWhile (· ≠ '.')).tail

theorem wholeValue_eq (cs : List Char) : wholeValue cs = ofDigits cs := by
  rw [ofDigits_eq_foldl]
  unfold wholeValue
  induction cs using List.reverseRecOn with
  | nil => simp
  | append_singleton cs c ih =>
    rw [List.foldl_append, List.foldl_append, ih]
    simp only [List.foldl_cons, List.foldl_nil]
    push_cast
    ring

/-- Digits behind the point come to stand before it by a power of ten. -/
theorem foldl_eq_fractionValue (cs : List Char) (n : Nat) :
    ((cs.foldl (fun n c => digit c + 10 * n) n : Nat) : ℚ) =
      (n + fractionValue cs) * 10 ^ cs.length := by
  induction cs generalizing n with
  | nil => simp [fractionValue]
  | cons c cs ih =>
    -- the digit moves to what is read before, so the start of the fold is general
    rw [List.foldl_cons, ih, fractionValue, List.length_cons, pow_succ]
    push_cast
    ring

theorem value_whole (cs : List Char) : value ⟨ofDigits cs, 0⟩ = wholeValue cs := by
  rw [value, wholeValue_eq, zpow_zero, mul_one]

theorem value_point (as bs : List Char) :
    value ⟨ofDigits (as ++ bs), -bs.length⟩ = wholeValue as + fractionValue bs := by
  have hdigits : (ofDigits (as ++ bs) : ℚ) = (wholeValue as + fractionValue bs) * 10 ^ bs.length := by
    rw [wholeValue_eq, ofDigits_eq_foldl, ofDigits_eq_foldl, List.foldl_append, foldl_eq_fractionValue]
  rw [value, hdigits, zpow_neg, zpow_natCast, mul_assoc, mul_inv_cancel₀ (by positivity), mul_one]

theorem AllDigits.ne_point (h : AllDigits cs) : ∀ c ∈ cs, decide (c ≠ '.') = true := by
  intro c hc
  refine decide_eq_true ?_
  rintro rfl
  exact absurd (h '.' hc) (by decide)

theorem AllDigits.count_point (h : AllDigits cs) : cs.count '.' = 0 :=
  List.count_eq_zero.mpr fun hmem => absurd (h '.' hmem) (by decide)

theorem denoted_whole (h : AllDigits cs) : denoted cs = wholeValue cs := by
  rw [denoted, List.takeWhile_eq_self_iff.mpr h.ne_point, List.dropWhile_eq_nil_iff.mpr h.ne_point]
  simp [fractionValue]

theorem denoted_point (h : AllDigits as) (bs : List Char) :
    denoted (as ++ '.' :: bs) = wholeValue as + fractionValue bs := by
  rw [denoted, List.takeWhile_append_of_pos h.ne_point, List.dropWhile_append_of_pos h.ne_point]
  simp

theorem allDigits_of_notMem (h : ∀ c ∈ cs, isAsciiDigit c = true ∨ c = '.') (hpoint : '.' ∉ cs) :
    AllDigits cs := by
  intro c hc
  refine (h c hc).resolve_right ?_
  rintro rfl
  exact hpoint hc

theorem IsNumeral.split (h : IsNumeral cs) : AllDigits cs ∧ cs ≠ [] ∨
    ∃ as bs, cs = as ++ '.' :: bs ∧ AllDigits as ∧ as ≠ [] ∧
      ∀ c ∈ bs, isAsciiDigit c = true ∨ c = '.' := by
  obtain ⟨⟨c, rest, rfl, hc⟩, hall⟩ := h
  by_cases hpoint : '.' ∈ c :: rest
  · obtain ⟨as, bs, hsplit, has⟩ := List.eq_append_cons_of_mem hpoint
    rw [hsplit] at hall
    refine .inr ⟨as, bs, hsplit, ?_, ?_, fun b hb => ?_⟩
    · exact allDigits_of_notMem (fun a ha => hall a (List.mem_append_left _ ha)) has
    · rintro rfl
      obtain ⟨rfl, -⟩ := List.cons.inj hsplit
      exact absurd hc (by decide)
    · exact hall b (List.mem_append_right _ (List.mem_cons_of_mem _ hb))
  · exact .inl ⟨allDigits_of_notMem hall hpoint, List.cons_ne_nil c rest⟩

/-- With at most one point a numeral is a decimal, the one that it denotes. -/
theorem unsigned?_of_count_lt (h : IsNumeral cs) (hcount : cs.count '.' < 2) :
    ∃ d, unsigned? cs = some d ∧ d.value = denoted cs := by
  rcases h.split with ⟨hdigits, hne⟩ | ⟨as, bs, rfl, has, hne, hbs⟩
  · exact ⟨_, unsigned?_whole hdigits hne, by rw [value_whole, denoted_whole hdigits]⟩
  · rw [List.count_append, List.count_cons_self] at hcount
    have hdigits := allDigits_of_notMem hbs (List.count_eq_zero.mp (by omega))
    exact ⟨_, unsigned?_point has hdigits hne, by rw [value_point, denoted_point has]⟩

theorem unsigned?_eq_none (ha : AllDigits as) (hb : AllDigits bs) (cs : List Char) :
    unsigned? (as ++ '.' :: (bs ++ '.' :: cs)) = none := by
  have hpoint : isAsciiDigit '.' = false := by decide
  have hpower : power? ('.' :: cs) = none := by simp [power?]
  simp [unsigned?, mantissa?, ha.takeWhile_append, ha.dropWhile_append, hb.takeWhile_append,
    hb.dropWhile_append, hpoint, hpower]

theorem unsigned?_of_le_count (h : IsNumeral cs) (hcount : 2 ≤ cs.count '.') :
    unsigned? cs = none := by
  rcases h.split with ⟨hdigits, -⟩ | ⟨as, bs, rfl, has, -, hbs⟩
  · rw [hdigits.count_point] at hcount
    exact absurd hcount (by decide)
  · rw [List.count_append, List.count_cons_self, has.count_point] at hcount
    have hpoint : '.' ∈ bs := List.count_pos_iff.mp (by omega)
    obtain ⟨ds, es, rfl, hds⟩ := List.eq_append_cons_of_mem hpoint
    have hdigits := allDigits_of_notMem (fun d hd => hbs d (List.mem_append_left _ hd)) hds
    exact unsigned?_eq_none has hdigits es

theorem fractionValue_nonneg (cs : List Char) : 0 ≤ fractionValue cs := by
  induction cs with
  | nil => exact le_rfl
  | cons c cs ih =>
    rw [fractionValue]
    positivity

theorem denoted_nonneg (cs : List Char) : 0 ≤ denoted cs := by
  have hfraction := fractionValue_nonneg (cs.dropWhile (· ≠ '.')).tail
  rw [denoted, wholeValue_eq]
  positivity

theorem isNaN_read_iff (h : IsNumeral cs) : Binary64.isNaN (read cs) = true ↔ 2 ≤ cs.count '.' := by
  rw [read_eq_of_isNumeral h]
  rcases Nat.lt_or_ge (cs.count '.') 2 with hcount | hcount
  · obtain ⟨d, hd, -⟩ := unsigned?_of_count_lt h hcount
    rw [hd]
    refine iff_of_false ?_ (Nat.not_le.mpr hcount)
    simp [Binary64.isNaN, Binary64.code_ofCode d.code_le, d.code_le]
  · rw [unsigned?_of_le_count h hcount]
    exact iff_of_true (by decide +kernel) hcount

/-- With at most one point a numeral is read as the closest number to what it denotes. -/
theorem roundsTo_iff_eq_read (h : IsNumeral cs) (hcount : cs.count '.' < 2) (y : Float) :
    Binary64.isNegative y = false ∧ Binary64.RoundsTo (denoted cs) y ↔ y = read cs := by
  obtain ⟨d, hd, hvalue⟩ := unsigned?_of_count_lt h hcount
  have hnearest := d.isNearest_code
  rw [hvalue] at hnearest
  rw [read_of_isNumeral h hd]
  exact Binary64.roundsTo_iff_eq (denoted_nonneg cs) hnearest y

end Decimal
end Dvilipi
