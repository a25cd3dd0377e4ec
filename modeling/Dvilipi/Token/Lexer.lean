import Dvilipi.Error
import Dvilipi.Token.Lexeme
import Dvilipi.Token.Trivia

/-!
A lexer is a place in a source together with the text from there on. `next` skips trivia and reads one
token; at the end of the source it goes on giving the end token, and at a character that starts no
token it stays and goes on failing. `scanAll` collects tokens through the first end token.
-/

namespace Dvilipi
set_option autoImplicit false

structure Lexer where
  source : List Char
  place : Place
  rest : List Char
  deriving DecidableEq

namespace Lexer

def ofChars (source : List Char) : Lexer := ⟨source, .origin, source⟩

def ofSource (source : String) : Lexer := ofChars source.toList

def reset (l : Lexer) : Lexer := ofChars l.source

def skipTrivia (l : Lexer) : Lexer :=
  let s := Trivia.split .blank l.rest
  ⟨l.source, l.place.after s.1, s.2⟩

def token (l : Lexer) : Except LexError Token × Lexer :=
  match l.rest with
  | [] => (.ok ⟨.endOfInput, l.place.position, l.place.span l.place⟩, l)
  | c :: _ =>
    match Lexeme.first? l.rest with
    | none => (.error ⟨c, l.place.position, .single l.place.offset⟩, l)
    | some x =>
      let stop := l.place.after x.raw
      (.ok ⟨x.content, l.place.position, l.place.span stop⟩, ⟨l.source, stop, x.rest⟩)

def next (l : Lexer) : Except LexError Token × Lexer := l.skipTrivia.token

theorem skipTrivia_length (l : Lexer) : l.skipTrivia.rest.length ≤ l.rest.length :=
  Trivia.split_length .blank l.rest

theorem skipTrivia_skipTrivia (l : Lexer) : l.skipTrivia.skipTrivia = l.skipTrivia := by
  simp [skipTrivia, Trivia.split_rest]

theorem token_length {l m : Lexer} {t : Token} (h : l.token = (.ok t, m)) (ht : t.isEnd = false) :
    m.rest.length < l.rest.length := by
  unfold token at h
  split at h
  · cases h; cases ht
  · split at h
    · cases h
    · next x hx => cases h; exact Lexeme.first?_rest_length hx

theorem next_length {l m : Lexer} {t : Token} (h : l.next = (.ok t, m)) (ht : t.isEnd = false) :
    m.rest.length < l.rest.length :=
  Nat.lt_of_lt_of_le (token_length h ht) (skipTrivia_length l)

theorem token_length_le {l m : Lexer} {r : Except LexError Token} (h : l.token = (r, m)) :
    m.rest.length ≤ l.rest.length := by
  unfold token at h
  split at h
  · cases h
    exact Nat.le_refl _
  · split at h
    · cases h
      exact Nat.le_refl _
    · next x hx =>
      cases h
      exact Nat.le_of_lt (Lexeme.first?_rest_length hx)

theorem next_length_le {l m : Lexer} {r : Except LexError Token} (h : l.next = (r, m)) :
    m.rest.length ≤ l.rest.length :=
  Nat.le_trans (token_length_le h) (skipTrivia_length l)

/-- A failing lexer stays where it failed. -/
theorem token_error {l m : Lexer} {e : LexError} (h : l.token = (.error e, m)) : m = l := by
  unfold token at h
  split at h
  · cases h
  · split at h
    · cases h; rfl
    · cases h

/-- All tokens from here through the first end token, or the first failure. -/
def scanAll (l : Lexer) : Except LexError (List Token) × Lexer :=
  match h : l.next with
  | (.error e, m) => (.error e, m)
  | (.ok t, m) =>
    if ht : t.isEnd then (.ok [t], m)
    else
      have : m.rest.length < l.rest.length := next_length h (by simpa using ht)
      let s := scanAll m
      (s.1.map (t :: ·), s.2)
termination_by l.rest.length

end Lexer
end Dvilipi
