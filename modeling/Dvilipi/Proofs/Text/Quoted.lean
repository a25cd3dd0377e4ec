import Dvilipi.Text.Quoted

/-!
Quoted text can be read back. What a character is written as tells where it ends, so no two texts are
quoted alike; and no quoted text holds a newline.
-/

namespace Dvilipi.Text
set_option autoImplicit false

def hexDigit (c : Char) : Nat := if c.toNat < 0x3A then c.toNat - 0x30 else c.toNat - 0x57

def ofHex (cs : List Char) : Nat := cs.foldl (fun n c => 16 * n + hexDigit c) 0

theorem exists_of_mem_toDigits {c : Char} {n : Nat} (h : c ∈ Nat.toDigits 16 n) :
    ∃ d < 16, c = d.digitChar := by
  induction n using Nat.strongRecOn with
  | ind n ih =>
    rw [Nat.toDigits_eq_if (by decide)] at h
    split at h
    · next hlt => exact ⟨n, hlt, List.mem_singleton.mp h⟩
    · rcases List.mem_append.mp h with h | h
      · exact ih (n / 16) (by omega) h
      · exact ⟨n % 16, Nat.mod_lt _ (by decide), List.mem_singleton.mp h⟩

theorem ofHex_toDigits (n : Nat) : ofHex (Nat.toDigits 16 n) = n := by
  have hdigit : ∀ d < 16, hexDigit (Nat.digitChar d) = d := by decide
  induction n using Nat.strongRecOn with
  | ind n ih =>
    rw [Nat.toDigits_eq_if (by decide)]
    split
    · next hlt => exact (Nat.zero_add _).trans (hdigit n hlt)
    · have hhigh := ih (n / 16) (by omega)
      rw [ofHex] at hhigh
      rw [ofHex, List.foldl_append, hhigh, List.foldl_cons, List.foldl_nil,
        hdigit _ (Nat.mod_lt n (by decide))]
      omega

/-- The character that the front of a quoted text stands for, and what follows it. -/
def unquoted? : List Char → Option (Char × List Char)
  | '\\' :: 't' :: rest => some ('\t', rest)
  | '\\' :: 'r' :: rest => some ('\r', rest)
  | '\\' :: 'n' :: rest => some ('\n', rest)
  | '\\' :: '0' :: rest => some ('\x00', rest)
  | '\\' :: '\\' :: rest => some ('\\', rest)
  | '\\' :: '"' :: rest => some ('"', rest)
  | '\\' :: 'u' :: '\x7b' :: rest =>
    some (Char.ofNat (ofHex (rest.takeWhile (· ≠ '\x7d'))), (rest.dropWhile (· ≠ '\x7d')).tail)
  | c :: rest => some (c, rest)
  | [] => none

theorem unquoted?_codePoint (c : Char) (rest : List Char) :
    unquoted? (codePoint c ++ rest) = some (c, rest) := by
  have hdigits : ∀ d ∈ Nat.toDigits 16 c.toNat, (decide (d ≠ '\x7d')) = true := by
    intro d hd
    obtain ⟨k, hk, rfl⟩ := exists_of_mem_toDigits hd
    have hall : ∀ k < 16, (decide (Nat.digitChar k ≠ '\x7d')) = true := by decide
    exact hall k hk
  have htext : codePoint c ++ rest =
      '\\' :: 'u' :: '\x7b' :: (Nat.toDigits 16 c.toNat ++ '\x7d' :: rest) := by
    simp [codePoint]
  rw [htext, unquoted?, List.takeWhile_append_of_pos hdigits, List.dropWhile_append_of_pos hdigits]
  simp [ofHex_toDigits]

theorem unquoted?_quotedChar (c : Char) (rest : List Char) :
    unquoted? (quotedChar c ++ rest) = some (c, rest) := by
  unfold quotedChar
  iterate 6
    split
    · next h => subst h; rfl
  next hslash _ =>
  split
  · simp [unquoted?, hslash]
  · exact unquoted?_codePoint c rest

theorem flatMap_quotedChar_injective {as bs : List Char}
    (h : as.flatMap quotedChar = bs.flatMap quotedChar) : as = bs := by
  induction as generalizing bs with
  | nil =>
    cases bs with
    | nil => rfl
    | cons b bs => exact absurd (List.append_eq_nil_iff.mp h.symm).1 (quotedChar_ne_nil b)
  | cons a as ih =>
    cases bs with
    | nil => exact absurd (List.append_eq_nil_iff.mp h).1 (quotedChar_ne_nil a)
    | cons b bs =>
      have hread := congrArg unquoted? h
      rw [List.flatMap_cons, List.flatMap_cons, unquoted?_quotedChar, unquoted?_quotedChar] at hread
      obtain ⟨rfl, htail⟩ := Prod.mk.inj (Option.some.inj hread)
      rw [ih htail]

theorem quoted_injective {a b : String} (h : quoted a = quoted b) : a = b := by
  have hchars := String.ofList_injective h
  have hbody := List.append_cancel_right (List.cons.inj hchars).2
  exact String.toList_injective (flatMap_quotedChar_injective hbody)

theorem newline_notMem_quotedChar (c : Char) : '\n' ∉ quotedChar c := by
  unfold quotedChar
  iterate 2
    split
    · decide
  split
  · decide
  next hnewline =>
  iterate 3
    split
    · decide
  split
  · exact fun h => hnewline (List.mem_singleton.mp h).symm
  · simp only [codePoint, List.mem_cons, List.mem_append, List.not_mem_nil, or_false, not_or]
    refine ⟨by decide, by decide, by decide, fun h => ?_, by decide⟩
    obtain ⟨d, hd, heq⟩ := exists_of_mem_toDigits h
    have hall : ∀ d < 16, Nat.digitChar d ≠ '\n' := by decide
    exact hall d hd heq.symm

theorem newline_notMem_quoted (text : String) : '\n' ∉ (quoted text).toList := by
  have hbody : '\n' ∉ text.toList.flatMap quotedChar := by
    rw [List.mem_flatMap]
    exact fun ⟨c, _, hc⟩ => newline_notMem_quotedChar c hc
  rw [quoted, String.toList_ofList, quotedChars]
  simp [hbody]

end Dvilipi.Text
