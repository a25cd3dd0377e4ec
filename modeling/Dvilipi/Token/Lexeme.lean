import Dvilipi.Token.Basic

/-!
Lexemes: the piece of text that a token is read from. `first?` takes the longest piece that its first
character calls for and leaves the rest; it fails on a character that starts no token. Digits come
before letters, because the Devanagari digits lie inside the block of letters.
-/

namespace Dvilipi
set_option autoImplicit false

/-- A piece of text, what it says, and the text after it. -/
structure Lexeme where
  content : Token.Content
  raw : List Char
  rest : List Char

namespace Lexeme

def isOperatorMark (c : Char) : Bool :=
  ['+', '-', '*', '/', '=', '<', '>', '!', '&', '|', '^', '%'].contains c

def isDelimiterMark (c : Char) : Bool :=
  ['(', ')', '\x7b', '\x7d', '[', ']', ',', ';', ':'].contains c

def isQuoteMark (c : Char) : Bool := c == '"' || c == '\''

/-- A numeral is a run of digits of either script and points. -/
def continuesNumber (c : Char) : Bool := Text.isDigit c || c == '.'

/-- The number that a run of digits and points stands for; with two points it is not-a-number. -/
def numeral (raw : List Char) : Float := Decimal.read (raw.map Text.latinDigit)

def number (cs : List Char) : Lexeme :=
  let raw := cs.takeWhile continuesNumber
  ⟨.number (numeral raw), raw, cs.dropWhile continuesNumber⟩

def wordContent (word : String) : Token.Content :=
  match Keyword.ofWord? word with
  | some (keyword, script) => .keyword keyword script
  | none => .identifier word

def word (cs : List Char) : Lexeme :=
  let raw := cs.takeWhile Text.continuesWord
  ⟨wordContent (String.ofList raw), raw, cs.dropWhile Text.continuesWord⟩

/-- The character that a backslash and `c` stand for. -/
def escaped (c : Char) : Char :=
  if c = 'n' then '\n' else if c = 't' then '\t' else if c = 'r' then '\r' else c

/-- Divides the text after an opening quote at its end: the closing quote, or the end of the text. A
character after a backslash never closes. -/
def closeQuote (quote : Char) : List Char → List Char × List Char
  | [] => ([], [])
  | c :: rest =>
    if c = quote then ([c], rest)
    else if c = '\\' then
      match rest with
      | [] => ([c], [])
      | d :: rest =>
        let s := closeQuote quote rest
        (c :: d :: s.1, s.2)
    else
      let s := closeQuote quote rest
      (c :: s.1, s.2)

/-- The text that stands between the quotes, its escapes resolved. -/
def unquote (quote : Char) : List Char → List Char
  | [] => []
  | c :: rest =>
    if c = quote then []
    else if c = '\\' then
      match rest with
      | [] => []
      | d :: rest => escaped d :: unquote quote rest
    else c :: unquote quote rest

def string (quote : Char) (cs : List Char) : Lexeme :=
  let s := closeQuote quote cs
  ⟨.string (String.ofList (unquote quote s.1)), quote :: s.1, s.2⟩

/-- An operator takes a second character if it is `=`, or doubles `&` or `|`. -/
def extendsOperator (c d : Char) : Bool := d == '=' || (d == c && (c == '&' || c == '|'))

def operator (c : Char) (cs : List Char) : Lexeme :=
  match cs with
  | d :: rest =>
    if extendsOperator c d then ⟨.operator (String.ofList [c, d]), [c, d], rest⟩
    else ⟨.operator (String.singleton c), [c], d :: rest⟩
  | [] => ⟨.operator (String.singleton c), [c], []⟩

/-- The lexeme at the start of a text that does not start with trivia. -/
def first? : List Char → Option Lexeme
  | [] => none
  | c :: rest =>
    if Text.isDigit c then some (number (c :: rest))
    else if Text.startsWord c then some (word (c :: rest))
    else if isQuoteMark c then some (string c rest)
    else if isOperatorMark c then some (operator c rest)
    else if isDelimiterMark c then some ⟨.delimiter c, [c], rest⟩
    else none

theorem closeQuote_append (quote : Char) (cs : List Char) :
    (closeQuote quote cs).1 ++ (closeQuote quote cs).2 = cs := by
  fun_induction closeQuote quote cs with
  | case1 => rfl
  | case2 => rfl
  | case3 => rfl
  | case4 _ d rest s ih => exact congrArg (fun t => '\\' :: _ :: t) ih
  | case5 c rest _ _ s ih => exact congrArg (c :: ·) ih

section Quotes

variable {quote c : Char} (rest : List Char)

theorem closeQuote_quote : closeQuote quote (quote :: rest) = ([quote], rest) := by
  unfold closeQuote
  rw [if_pos rfl]

theorem closeQuote_backslash (hquote : quote ≠ '\\') (d : Char) :
    closeQuote quote ('\\' :: d :: rest) =
      ('\\' :: d :: (closeQuote quote rest).1, (closeQuote quote rest).2) := by
  rw [closeQuote, if_neg hquote.symm, if_pos rfl]

theorem closeQuote_cons (hquote : c ≠ quote) (hbackslash : c ≠ '\\') :
    closeQuote quote (c :: rest) = (c :: (closeQuote quote rest).1, (closeQuote quote rest).2) := by
  rw [closeQuote.eq_def]
  dsimp only
  rw [if_neg hquote, if_neg hbackslash]

theorem unquote_quote : unquote quote (quote :: rest) = [] := by
  unfold unquote
  rw [if_pos rfl]

theorem unquote_backslash (hquote : quote ≠ '\\') (d : Char) :
    unquote quote ('\\' :: d :: rest) = escaped d :: unquote quote rest := by
  rw [unquote, if_neg hquote.symm, if_pos rfl]

theorem unquote_cons (hquote : c ≠ quote) (hbackslash : c ≠ '\\') :
    unquote quote (c :: rest) = c :: unquote quote rest := by
  rw [unquote.eq_def]
  dsimp only
  rw [if_neg hquote, if_neg hbackslash]

end Quotes

theorem operator_append (c : Char) (cs : List Char) :
    (operator c cs).raw ++ (operator c cs).rest = c :: cs := by
  unfold operator
  split
  · split <;> rfl
  · rfl

theorem operator_raw_ne_nil (c : Char) (cs : List Char) : (operator c cs).raw ≠ [] := by
  unfold operator
  split
  · split <;> exact List.cons_ne_nil _ _
  · exact List.cons_ne_nil _ _

theorem first?_append {cs : List Char} {x : Lexeme} (h : first? cs = some x) :
    x.raw ++ x.rest = cs := by
  cases cs with
  | nil => cases h
  | cons c rest =>
    simp only [first?] at h
    repeat' split at h
    · cases h; exact List.takeWhile_append_dropWhile
    · cases h; exact List.takeWhile_append_dropWhile
    · cases h; exact congrArg (c :: ·) (closeQuote_append c rest)
    · cases h; exact operator_append c rest
    · cases h; rfl
    · cases h

theorem first?_raw_ne_nil {cs : List Char} {x : Lexeme} (h : first? cs = some x) : x.raw ≠ [] := by
  cases cs with
  | nil => cases h
  | cons c rest =>
    simp only [first?] at h
    repeat' split at h
    · next hd =>
      cases h
      simp [number, continuesNumber, hd]
    · next hw =>
      cases h
      simp [word, Text.continuesWord_of_startsWord hw]
    · cases h; exact List.cons_ne_nil _ _
    · cases h; exact operator_raw_ne_nil c rest
    · cases h; exact List.cons_ne_nil _ _
    · cases h

theorem first?_rest_length {cs : List Char} {x : Lexeme} (h : first? cs = some x) :
    x.rest.length < cs.length := by
  have ha := congrArg List.length (first?_append h)
  have hp := List.length_pos_iff.mpr (first?_raw_ne_nil h)
  rw [List.length_append] at ha
  omega

end Lexeme
end Dvilipi
