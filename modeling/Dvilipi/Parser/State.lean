import Dvilipi.Action
import Dvilipi.Token.Lexer
import Dvilipi.Tree.Basic

/-!
The state of a parser and its first steps. A parser holds one token that it looks at and the source of
the tokens after it. Taking the token asks the source for the next one first, so a lexical error
leaves the token where it is.
-/

namespace Dvilipi
set_option autoImplicit false

/-- Something that gives tokens one at a time, and end tokens when it has no others. `remaining`
bounds the number of tokens before the first end token. -/
class TokenSource (σ : Type) where
  next : σ → Except LexError Token × σ
  remaining : σ → Nat
  remaining_le {s u : σ} {t : Token} : next s = (.ok t, u) → remaining u ≤ remaining s
  remaining_lt {s u : σ} {t : Token} :
    next s = (.ok t, u) → t.isEnd = false → remaining u < remaining s

instance : TokenSource Lexer where
  next := Lexer.next
  remaining l := l.rest.length
  remaining_le := Lexer.next_length_le
  remaining_lt := Lexer.next_length

/-- A finished list of tokens, and the end token that follows it for ever. -/
structure TokenList where
  tokens : List Token
  last : Token
  last_isEnd : last.isEnd = true

namespace TokenList

def next (l : TokenList) : Except LexError Token × TokenList :=
  match l.tokens with
  | [] => (.ok l.last, l)
  | t :: ts => (.ok t, ⟨ts, l.last, l.last_isEnd⟩)

theorem next_length {l m : TokenList} {t : Token} (h : l.next = (.ok t, m))
    (ht : t.isEnd = false) : m.tokens.length < l.tokens.length := by
  unfold next at h
  split at h
  · cases h
    rw [l.last_isEnd] at ht
    cases ht
  · next hl =>
    cases h
    rw [hl]
    exact Nat.lt_succ_self _

theorem next_length_le {l m : TokenList} {t : Token} (h : l.next = (.ok t, m)) :
    m.tokens.length ≤ l.tokens.length := by
  unfold next at h
  split at h
  · cases h
    exact Nat.le_refl _
  · next hl =>
    cases h
    rw [hl]
    exact Nat.le_succ _

instance : TokenSource TokenList where
  next := next
  remaining l := l.tokens.length
  remaining_le := next_length_le
  remaining_lt := next_length

end TokenList

/-- `current` is the token in view, and `previousStop` the end of the last token taken. -/
structure Parser (σ : Type) where
  source : σ
  current : Token
  previousStop : Nat

namespace Parser

variable {σ : Type} [TokenSource σ]

/-- A part of the grammar, read off the front of the tokens. -/
abbrev Production (σ α : Type) := Action ParseError (Parser σ) α

def ofSource (source : σ) : Except ParseError (Parser σ) :=
  match TokenSource.next source with
  | (.ok t, rest) => .ok ⟨rest, t, 0⟩
  | (.error e, _) => .error (.lexical e)

def advance : Production σ Token := fun p =>
  match TokenSource.next p.source with
  | (.ok t, rest) => .ok p.current ⟨rest, t, p.current.span.stop⟩
  | (.error e, rest) => .failed (.lexical e) { p with source := rest }

def content : Production σ Token.Content := fun p => .ok p.current.content p

def currentStart : Production σ Nat := fun p => .ok p.current.span.start p

def lastStop : Production σ Nat := fun p => .ok p.previousStop p

def reject {α : Type} (expected : Expected) : Production σ α := fun p =>
  .failed (.grammatical ⟨expected, p.current⟩) p

def rejectAt {α : Type} (expected : Expected) (found : Token) : Production σ α :=
  Action.fail (.grammatical ⟨expected, found⟩)

/-- Takes the current token if it says `c`. -/
def accept (c : Token.Content) : Production σ Bool := do
  if (← content) = c then
    let _ ← advance
    return true
  else return false

omit [TokenSource σ] in
theorem content_bind {α : Type} (f : Token.Content → Production σ α) (p : Parser σ) :
    (content >>= f) p = f p.current.content p := rfl

theorem accept_bind {α : Type} (c : Token.Content) (f : Bool → Production σ α) (p : Parser σ) :
    (accept c >>= f) p =
      if p.current.content = c then (advance >>= fun _ => f true) p else f false p := by
  unfold accept
  rw [bind_assoc, content_bind]
  split
  · simp only [bind_assoc, pure_bind]
  · rfl

/-- Takes the current token, which has to say `c`. -/
def expect (c : Token.Content) (expected : Expected) : Production σ Token := do
  if (← content) = c then advance else reject expected

/-- Takes the current token, which has to be an identifier, and gives its name and span. -/
def identifier (expected : Expected) : Production σ (String × Span) := do
  match ← content with
  | .identifier name =>
    let t ← advance
    return (name, t.span)
  | _ => reject expected

/-- One or more items with commas between them. -/
def commaList {α : Type} (item : Production σ α) : Nat → Production σ (List α)
  | 0 => .exhausted
  | n + 1 => do
    let a ← item
    if ← accept (.delimiter ',') then
      let rest ← commaList item n
      return a :: rest
    else return [a]

/-- Items with commas between them up to a closing parenthesis, which is left in view. -/
def commaList? {α : Type} (item : Production σ α) (budget : Nat) : Production σ (List α) := do
  if (← content) = .delimiter ')' then return [] else commaList item budget

/-- Items up to a token at which `stops` holds, which is left in view. -/
def itemsUntil {α : Type} (stops : Token.Content → Bool) (item : Production σ α) :
    Nat → Production σ (List α)
  | 0 => .exhausted
  | n + 1 => do
    if stops (← content) then return []
    else
      let a ← item
      let rest ← itemsUntil stops item n
      return a :: rest

end Parser
end Dvilipi
