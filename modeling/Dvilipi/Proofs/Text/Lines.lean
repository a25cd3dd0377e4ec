import Dvilipi.Text.Lines

/-!
The lines of a byte stream are read one after the other: what a line is depends on the bytes up to its
newline alone. So lines can be taken out of a stream, and what follows a line can be anything.
-/

namespace Dvilipi.Text
set_option autoImplicit false

variable {bytes line : List UInt8} {lines ls ms : List (List UInt8)}

/-- The line ends with its only newline. Only the last line of a stream can do without. -/
def IsEnded (line : List UInt8) : Prop := ∃ body, line = body ++ [10] ∧ 10 ∉ body

theorem byteLines_newline (rest : List UInt8) : byteLines (10 :: rest) = [10] :: byteLines rest := by
  rw [byteLines]
  cases byteLines rest <;> rfl

theorem byteLines_cons {b : UInt8} (hb : b ≠ 10) {rest : List UInt8}
    (h : byteLines rest = line :: lines) : byteLines (b :: rest) = (b :: line) :: lines := by
  rw [byteLines, h]
  exact if_neg hb

theorem byteLines_ended (h : IsEnded line) (rest : List UInt8) :
    byteLines (line ++ rest) = line :: byteLines rest := by
  obtain ⟨body, rfl, hbody⟩ := h
  induction body with
  | nil => exact byteLines_newline rest
  | cons b body ih =>
    exact byteLines_cons (Ne.symm (List.ne_of_not_mem_cons hbody))
      (ih (List.not_mem_of_not_mem_cons hbody))

theorem isEnded_of_byteLines (h : byteLines bytes = line :: lines) (hlines : lines ≠ []) :
    IsEnded line := by
  induction bytes generalizing line with
  | nil => cases h
  | cons b rest ih =>
    by_cases hb : b = 10
    · subst hb
      rw [byteLines_newline] at h
      cases h
      exact ⟨[], rfl, List.not_mem_nil⟩
    · cases hrest : byteLines rest with
      | nil =>
        rw [byteLines, hrest] at h
        cases h
        exact absurd rfl hlines
      | cons first others =>
        rw [byteLines_cons hb hrest] at h
        cases h
        obtain ⟨body, rfl, hbody⟩ := ih hrest
        exact ⟨b :: body, rfl, by simp [hbody, Ne.symm hb]⟩

theorem byteLines_flatten_tail (h : byteLines bytes = line :: lines) :
    byteLines lines.flatten = lines := by
  by_cases hlines : lines = []
  · subst hlines
    rfl
  · have hbytes := byteLines_flatten bytes
    rw [h, List.flatten_cons] at hbytes
    rw [← hbytes, byteLines_ended (isEnded_of_byteLines h hlines)] at h
    exact (List.cons.inj h).2

theorem byteLines_flatten_append (h : byteLines bytes = ls ++ ms) (hms : ms ≠ [])
    (rest : List UInt8) : byteLines (ls.flatten ++ rest) = ls ++ byteLines rest := by
  induction ls generalizing bytes with
  | nil => rfl
  | cons l ls ih =>
    have hended : IsEnded l := isEnded_of_byteLines h fun hnil => hms (List.append_eq_nil_iff.mp hnil).2
    rw [List.flatten_cons, List.append_assoc, byteLines_ended hended,
      ih (byteLines_flatten_tail h), List.cons_append]

theorem byteLines_flatten_drop (h : byteLines bytes = ls ++ ms) : byteLines ms.flatten = ms := by
  induction ls generalizing bytes with
  | nil =>
    have hms : byteLines bytes = ms := h
    rw [← hms, byteLines_flatten]
  | cons l ls ih => exact ih (byteLines_flatten_tail h)

/-- Without the bytes of one of its lines, a stream has the other lines. -/
theorem byteLines_without (h : byteLines bytes = ls ++ line :: ms) :
    byteLines (ls.flatten ++ ms.flatten) = ls ++ ms := by
  have hms : byteLines bytes = (ls ++ [line]) ++ ms := by rw [h, List.append_cons]
  rw [byteLines_flatten_append h (List.cons_ne_nil _ _), byteLines_flatten_drop hms]

end Dvilipi.Text
