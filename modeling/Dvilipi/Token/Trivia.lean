import Dvilipi.Text.Blank

/-!
What may stand between tokens: blanks, comments from `//` to the end of the line, and comments from
`/*` to the next `*/`. A comment that is not closed reaches the end of the text. Skipping is the run
of a small automaton that looks one character ahead.
-/

namespace Dvilipi.Trivia
set_option autoImplicit false

/-- Where the automaton is: between comments, in a line comment, on the star that opens a block
comment, inside a block comment, or on the slash that closes it. -/
inductive Mode where
  | blank
  | line
  | opening
  | block
  | closing
  deriving DecidableEq, Repr

/-- The mode after the character `c`, whose successor is `ahead`; none if `c` is no trivia. -/
def Mode.next? (mode : Mode) (c : Char) (ahead : Option Char) : Option Mode :=
  match mode with
  | blank =>
    if Text.isBlank c then some blank
    else if c = '/' ∧ ahead = some '/' then some line
    else if c = '/' ∧ ahead = some '*' then some opening
    else none
  | line => some (if c = '\n' then blank else line)
  | opening => some block
  | block => some (if c = '*' ∧ ahead = some '/' then closing else block)
  | closing => some blank

/-- Divides a text into the trivia it starts with and the rest. -/
def split (mode : Mode) : List Char → List Char × List Char
  | [] => ([], [])
  | c :: rest =>
    match mode.next? c rest.head? with
    | some mode =>
      let s := split mode rest
      (c :: s.1, s.2)
    | none => ([], c :: rest)

theorem split_append (mode : Mode) (cs : List Char) :
    (split mode cs).1 ++ (split mode cs).2 = cs := by
  induction cs generalizing mode with
  | nil => rfl
  | cons c rest ih =>
    unfold split
    split
    · next m _ => simp [ih m]
    · rfl

theorem split_length (mode : Mode) (cs : List Char) :
    (split mode cs).2.length ≤ cs.length := by
  have h := congrArg List.length (split_append mode cs)
  rw [List.length_append] at h
  omega

theorem next?_blank_of_eq_none {mode : Mode} {c : Char} {ahead : Option Char}
    (h : mode.next? c ahead = none) : Mode.blank.next? c ahead = none := by
  cases mode with
  | blank => exact h
  | line => cases h
  | opening => cases h
  | block => cases h
  | closing => cases h

theorem split_rest (mode : Mode) (cs : List Char) :
    split .blank (split mode cs).2 = ([], (split mode cs).2) := by
  induction cs generalizing mode with
  | nil => rfl
  | cons c rest ih =>
    cases h : mode.next? c rest.head? with
    | some m => simpa only [split, h] using ih m
    | none => simp only [split, h, next?_blank_of_eq_none h]

end Dvilipi.Trivia
