import Dvilipi.Text.Span

/-!
Lines of a text that is shown to a person, and lines of a byte stream. A shown text ends its lines at
any of Unicode's mandatory breaks, a carriage return and the newline after it counting as one; the end
of the last line opens no further line. A byte stream ends its lines at the newline byte alone.
-/

namespace Dvilipi.Text
set_option autoImplicit false

/-- Whether `c` ends its line, given the text after it. -/
def endsLine (c : Char) (rest : List Char) : Bool :=
  if c = '\r' then rest.head? != some '\n'
  else
    let n := c.toNat
    (0x0A ≤ n && n ≤ 0x0C) || n == 0x85 || n == 0x2028 || n == 0x2029

/-- The position `n` characters further on in a text, when its first character is at `p`. -/
def positionFrom (p : Position) : List Char → Nat → Position
  | _, 0 => p
  | [], _ + 1 => p
  | c :: rest, n + 1 =>
    let opens := endsLine c rest && !rest.isEmpty
    positionFrom (if opens then ⟨p.line + 1, 1⟩ else ⟨p.line, p.column + 1⟩) rest n

/-- Line and column of an offset in a shown text. -/
def positionAt (text : List Char) (offset : Nat) : Position := positionFrom .origin text offset

/-- The lines of a byte stream, each with the newline that ends it. -/
def byteLines : List UInt8 → List (List UInt8)
  | [] => []
  | b :: rest =>
    match byteLines rest with
    | [] => [[b]]
    | line :: lines => if b = 10 then [b] :: line :: lines else (b :: line) :: lines

theorem byteLines_flatten (bytes : List UInt8) : (byteLines bytes).flatten = bytes := by
  induction bytes with
  | nil => rfl
  | cons b rest ih =>
    unfold byteLines
    split
    · next h => simp [h] at ih; simp [← ih]
    · next line lines h =>
      rw [h] at ih
      split <;> simp_all

end Dvilipi.Text
