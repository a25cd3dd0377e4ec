/-!
Places in a text. A position counts lines and columns from one, a span is a half-open range of
character offsets, and a place holds an offset together with its position. Walking over characters
moves a place; only a newline starts a line.
-/

namespace Dvilipi
set_option autoImplicit false

structure Position where
  line : Nat
  column : Nat
  deriving DecidableEq, Repr, Inhabited

namespace Position

def origin : Position := ⟨1, 1⟩

def step (p : Position) (c : Char) : Position :=
  if c = '\n' then ⟨p.line + 1, 1⟩ else ⟨p.line, p.column + 1⟩

def describe (p : Position) : String :=
  "line " ++ toString p.line ++ ", column " ++ toString p.column

end Position

/-- The characters from offset `start` up to, and not including, offset `stop`. -/
structure Span where
  start : Nat
  stop : Nat
  deriving DecidableEq, Repr, Inhabited

namespace Span

def single (offset : Nat) : Span := ⟨offset, offset + 1⟩

/-- From the start of `a` to whichever end comes last. -/
def «to» (a b : Span) : Span := ⟨a.start, max b.stop a.stop⟩

/-- Every offset of the span belongs to a text of `n` characters, or lies at its end. -/
def Fits (s : Span) (n : Nat) : Prop :=
  s.start ≤ n ∧ (s.start < s.stop → s.stop - 1 ≤ n)

instance (s : Span) (n : Nat) : Decidable (s.Fits n) := by
  unfold Fits; infer_instance

theorem le_to_stop (a b : Span) : a.stop ≤ (a.«to» b).stop := Nat.le_max_right _ _

end Span

/-- An offset with its line and column. -/
structure Place where
  offset : Nat
  position : Position
  deriving DecidableEq, Repr, Inhabited

namespace Place

def origin : Place := ⟨0, .origin⟩

def step (p : Place) (c : Char) : Place := ⟨p.offset + 1, p.position.step c⟩

def after (p : Place) (cs : List Char) : Place := cs.foldl step p

def span (a b : Place) : Span := ⟨a.offset, b.offset⟩

@[simp] theorem after_nil (p : Place) : p.after [] = p := rfl

@[simp] theorem after_cons (p : Place) (c : Char) (cs : List Char) :
    p.after (c :: cs) = (p.step c).after cs := rfl

theorem after_append (p : Place) (as bs : List Char) :
    p.after (as ++ bs) = (p.after as).after bs := by
  simp [after]

@[simp] theorem after_offset (p : Place) (cs : List Char) :
    (p.after cs).offset = p.offset + cs.length := by
  induction cs generalizing p with
  | nil => rfl
  | cons c cs ih =>
    rw [after_cons, ih, List.length_cons]
    simp only [step]
    omega

end Place
end Dvilipi
