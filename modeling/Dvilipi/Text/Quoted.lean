import Dvilipi.Text.Visible

/-!
Quoted text, the form in which listings show a string. It stands between double quotes; tab, newline,
carriage return, the null character, the backslash and the double quote are written with a backslash
and one character, hidden characters by their code point in hexadecimal, and all others as they are.
-/

namespace Dvilipi.Text
set_option autoImplicit false

/-- The code point of `c` between braces, in lower-case hexadecimal without leading zeros. -/
def codePoint (c : Char) : List Char :=
  '\\' :: 'u' :: '\x7b' :: (Nat.toDigits 16 c.toNat ++ ['\x7d'])

/-- How one character is written inside a quoted text. -/
def quotedChar (c : Char) : List Char :=
  if c = '\t' then ['\\', 't']
  else if c = '\r' then ['\\', 'r']
  else if c = '\n' then ['\\', 'n']
  else if c = '\x00' then ['\\', '0']
  else if c = '\\' then ['\\', '\\']
  else if c = '"' then ['\\', '"']
  else if isVisible c then [c]
  else codePoint c

def quotedChars (cs : List Char) : List Char := '"' :: (cs.flatMap quotedChar ++ ['"'])

def quoted (text : String) : String := String.ofList (quotedChars text.toList)

theorem quotedChar_ne_nil (c : Char) : quotedChar c ≠ [] := by
  unfold quotedChar codePoint
  repeat' split
  all_goals exact List.cons_ne_nil _ _

end Dvilipi.Text
