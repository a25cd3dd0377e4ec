import Mathlib.Data.List.Induction
import Dvilipi.Text.Span

/-!
Spans and places told by the text alone: the characters that a span covers, and the line and column
that are reached after a text.
-/

namespace Dvilipi
set_option autoImplicit false

/-- The characters of a text that a span covers. -/
def Span.slice (s : Span) (cs : List Char) : List Char := (cs.drop s.start).take (s.stop - s.start)

/-- A span that does not leave the text. -/
def Span.Within (s : Span) (cs : List Char) : Prop := s.start ≤ s.stop ∧ s.stop ≤ cs.length

theorem Span.slice_append (before middle after : List Char) :
    (⟨before.length, before.length + middle.length⟩ : Span).slice (before ++ (middle ++ after)) =
      middle := by
  simp [slice]

theorem Span.slice_prefix {a b : Span} (hstart : a.start = b.start) (hstop : a.stop ≤ b.stop)
    (cs : List Char) : a.slice cs <+: b.slice cs := by
  unfold slice
  rw [hstart]
  exact List.take_prefix_take_left (by omega)

theorem Span.Within.fits {s : Span} {cs : List Char} (h : s.Within cs) : s.Fits cs.length := by
  obtain ⟨horder, hbound⟩ := h
  exact ⟨by omega, fun _ => by omega⟩

/-- Lines are counted by the newlines, columns by the characters since the last of them. -/
theorem Place.after_position (cs : List Char) :
    (Place.origin.after cs).position =
      ⟨cs.count '\n' + 1, (cs.reverse.takeWhile (· ≠ '\n')).length + 1⟩ := by
  induction cs using List.reverseRecOn with
  | nil => rfl
  | append_singleton cs c ih =>
    rw [after_append, after_cons, after_nil, step, ih]
    by_cases hc : c = '\n'
    · simp [Position.step, hc]
    · simp [Position.step, hc, List.count_append]

end Dvilipi
