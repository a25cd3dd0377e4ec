import Dvilipi.Proofs.Token.Shift

/-!
Texts as string literals. Between quotation marks most characters can be written in several ways, and
whichever are chosen, the literal is read as one token that says the text. What stands behind it is
read as it is read alone, from the place on where the literal ends.
-/

namespace Dvilipi
set_option autoImplicit false

/-- The position `p` of a text, when the text starts at `start`. -/
def Position.relocate (start p : Position) : Position :=
  if p.line = 1 then ⟨start.line, start.column + (p.column - 1)⟩
  else ⟨start.line + (p.line - 1), p.column⟩

theorem Position.relocate_step (start : Position) (line column : Nat) (c : Char) :
    start.relocate (step ⟨line + 1, column + 1⟩ c) =
      (start.relocate ⟨line + 1, column + 1⟩).step c := by
  unfold relocate step
  cases line with
  | zero => by_cases hc : c = '\n' <;> simp [hc, Nat.add_assoc]
  | succ line => by_cases hc : c = '\n' <;> simp [hc, Nat.add_assoc]

/-- Walking over a text leads as far from any place as from the origin. -/
theorem Place.after_eq_carry (start : Place) (cs : List Char) :
    start.after cs = (origin.after cs).carry start.offset start.position.relocate := by
  induction cs using List.reverseRecOn with
  | nil => simp [carry, origin, Position.origin, Position.relocate]
  | append_singleton cs c ih =>
    have hstep := Position.relocate_step start.position (cs.count '\n')
      (cs.reverse.takeWhile (· ≠ '\n')).length c
    rw [← after_position cs] at hstep
    rw [after_append, after_append, after_cons, after_cons, after_nil, after_nil, ih, carry, carry,
      step, step, hstep, Nat.add_right_comm]

namespace Lexeme

/-- The ways to write a character between quotation marks. -/
inductive Encodes (quote : Char) : Char → List Char → Prop where
  | plain {c : Char} (hquote : c ≠ quote) (hbackslash : c ≠ '\\') : Encodes quote c [c]
  | newline : Encodes quote '\n' ['\\', 'n']
  | tab : Encodes quote '\t' ['\\', 't']
  | carriageReturn : Encodes quote '\r' ['\\', 'r']
  | escaped {c : Char} (hn : c ≠ 'n') (ht : c ≠ 't') (hr : c ≠ 'r') : Encodes quote c ['\\', c]

/-- The second text is the first, written between quotation marks one character after the other. -/
inductive Writes (quote : Char) : List Char → List Char → Prop where
  | nil : Writes quote [] []
  | cons {c : Char} {text raw body : List Char} (hc : Encodes quote c raw)
      (h : Writes quote text body) : Writes quote (c :: text) (raw ++ body)

variable {quote c : Char} {text raw body : List Char}

theorem ne_backslash_of_isQuoteMark (h : isQuoteMark quote = true) : quote ≠ '\\' := by
  rintro rfl
  exact absurd h (by decide)

theorem escaped_of_ne (hn : c ≠ 'n') (ht : c ≠ 't') (hr : c ≠ 'r') : escaped c = c := by
  rw [escaped, if_neg hn, if_neg ht, if_neg hr]

namespace Encodes

theorem closeQuote (h : Encodes quote c raw) (hquote : quote ≠ '\\') (rest : List Char) :
    closeQuote quote (raw ++ rest) =
      (raw ++ (closeQuote quote rest).1, (closeQuote quote rest).2) := by
  cases h with
  | plain hc hbackslash => exact closeQuote_cons rest hc hbackslash
  | newline => exact closeQuote_backslash rest hquote 'n'
  | tab => exact closeQuote_backslash rest hquote 't'
  | carriageReturn => exact closeQuote_backslash rest hquote 'r'
  | escaped _ _ _ => exact closeQuote_backslash rest hquote c

theorem unquote (h : Encodes quote c raw) (hquote : quote ≠ '\\') (rest : List Char) :
    unquote quote (raw ++ rest) = c :: unquote quote rest := by
  cases h with
  | plain hc hbackslash => exact unquote_cons rest hc hbackslash
  | newline => exact unquote_backslash rest hquote 'n'
  | tab => exact unquote_backslash rest hquote 't'
  | carriageReturn => exact unquote_backslash rest hquote 'r'
  | escaped hn ht hr =>
    exact (unquote_backslash rest hquote c).trans (congrArg (· :: _) (escaped_of_ne hn ht hr))

end Encodes

namespace Writes

theorem closeQuote (h : Writes quote text body) (hquote : quote ≠ '\\') (rest : List Char) :
    closeQuote quote (body ++ rest) =
      (body ++ (closeQuote quote rest).1, (closeQuote quote rest).2) := by
  induction h with
  | nil => rfl
  | cons hc _ ih => rw [List.append_assoc, hc.closeQuote hquote, ih, List.append_assoc]

theorem unquote (h : Writes quote text body) (hquote : quote ≠ '\\') (rest : List Char) :
    unquote quote (body ++ rest) = text ++ unquote quote rest := by
  induction h with
  | nil => rfl
  | cons hc _ ih => rw [List.append_assoc, hc.unquote hquote, ih, List.cons_append]

/-- Behind an opening quotation mark a written text is read up to the mark that closes it. -/
theorem string (h : Writes quote text body) (hquote : quote ≠ '\\') (rest : List Char) :
    string quote (body ++ quote :: rest) =
      ⟨.string (String.ofList text), quote :: (body ++ [quote]), rest⟩ := by
  have hclosed := h.closeQuote hquote (quote :: rest)
  rw [closeQuote_quote] at hclosed
  have htext := h.unquote hquote [quote]
  rw [unquote_quote, List.append_nil] at htext
  simp only [Lexeme.string, hclosed, htext]

end Writes

theorem Encodes.special (hquote : isQuoteMark quote = true) (h : c = quote ∨ c = '\\') :
    Encodes quote c ['\\', c] := by
  have hmark : quote = '"' ∨ quote = '\'' := by simpa [isQuoteMark] using hquote
  have hc : c ≠ 'n' ∧ c ≠ 't' ∧ c ≠ 'r' := by
    rcases h with rfl | rfl
    · rcases hmark with rfl | rfl <;> decide
    · decide
  exact .escaped hc.1 hc.2.1 hc.2.2

theorem exists_writes (hquote : isQuoteMark quote = true) (text : List Char) :
    ∃ body, Writes quote text body := by
  induction text with
  | nil => exact ⟨[], .nil⟩
  | cons c text ih =>
    obtain ⟨body, hbody⟩ := ih
    by_cases hspecial : c = quote ∨ c = '\\'
    · exact ⟨_, .cons (.special hquote hspecial) hbody⟩
    · obtain ⟨hc, hbackslash⟩ := not_or.mp hspecial
      exact ⟨_, .cons (.plain hc hbackslash) hbody⟩

theorem first?_quote (h : isQuoteMark quote = true) (cs : List Char) :
    first? (quote :: cs) = some (Lexeme.string quote cs) := by
  have hmark : quote = '"' ∨ quote = '\'' := by simpa [isQuoteMark] using h
  have hclass : Text.isDigit quote = false ∧ Text.startsWord quote = false := by
    rcases hmark with rfl | rfl <;> decide
  simp [first?, hclass.1, hclass.2, h]

end Lexeme

theorem Trivia.split_quote {quote : Char} (h : Lexeme.isQuoteMark quote = true) (cs : List Char) :
    split .blank (quote :: cs) = ([], quote :: cs) := by
  have hmark : quote = '"' ∨ quote = '\'' := by simpa [Lexeme.isQuoteMark] using h
  have hnone : Mode.blank.next? quote cs.head? = none := by
    rcases hmark with rfl | rfl <;> rfl
  simp only [split, hnone]

namespace Lexer

/-- Wherever a lexer is, a literal in front of it is the next token, and the lexer then stands behind
it. -/
theorem next_literal {quote : Char} (hquote : Lexeme.isQuoteMark quote = true)
    {text body rest : List Char} (h : Lexeme.Writes quote text body) {l : Lexer}
    (hl : l.rest = quote :: (body ++ quote :: rest)) :
    let stop := l.place.after (quote :: (body ++ [quote]))
    l.next = (.ok ⟨.string (String.ofList text), l.place.position, l.place.span stop⟩,
      ⟨l.source, stop, rest⟩) := by
  intro stop
  have hskip : l.skipTrivia = l := by
    rw [skipTrivia, hl, Trivia.split_quote hquote, Place.after_nil, ← hl]
  have hfirst := Lexeme.first?_quote hquote (body ++ quote :: rest)
  rw [h.string (Lexeme.ne_backslash_of_isQuoteMark hquote)] at hfirst
  unfold next token
  rw [hskip, hl]
  dsimp only
  rw [hfirst]

theorem carries_after (source cs : List Char) (rest : String) :
    Carries cs.length (Place.origin.after cs).position.relocate
      ⟨source, Place.origin.after cs, rest.toList⟩ (ofSource rest) := by
  refine ⟨rfl, fun more => ?_⟩
  rw [← Place.offset_after_origin cs]
  exact Place.after_eq_carry _ more

/-- The lexer after `n` tokens have been asked for, one after the other. -/
def asked (l : Lexer) : Nat → Lexer
  | 0 => l
  | n + 1 => l.next.2.asked n

theorem Carries.asked {d : Nat} {g : Position → Position} {k l : Lexer} (h : Carries d g k l)
    (n : Nat) : Carries d g (k.asked n) (l.asked n) := by
  induction n generalizing k l with
  | zero => exact h
  | succ n ih => exact ih h.skipTrivia.next.2

/-- Every text can be written between quotation marks. However it is written, a source that starts with
it gives it as one token, which covers the literal, and then whatever the rest gives alone, displaced by
the length of the literal: each time it is asked, and in a whole scan. -/
theorem scanAll_literal {quote : Char} (hquote : Lexeme.isQuoteMark quote = true) (text : String) :
    (∃ body, Lexeme.Writes quote text.toList body) ∧
      ∀ body, Lexeme.Writes quote text.toList body → ∀ rest : String,
        let literal := quote :: (body ++ [quote])
        let l := ofSource (String.ofList (literal ++ rest.toList))
        let r := ofSource rest
        let token : Token := ⟨.string text, .origin, ⟨0, literal.length⟩⟩
        let g := (Place.origin.after literal).position.relocate
        l.next.1 = .ok token ∧
          (∀ n, (l.asked (n + 1)).next.1 = ((r.asked n).next.1.mapError
            (LexError.carry literal.length g)).map (Token.carry literal.length g)) ∧
          l.scanAll.1 = (r.scanAll.1.mapError (LexError.carry literal.length g)).map
            fun ts => token :: ts.map (Token.carry literal.length g) := by
  refine ⟨Lexeme.exists_writes hquote text.toList, fun body hbody rest => ?_⟩
  intro literal l r token g
  have hl : l.rest = quote :: (body ++ quote :: rest.toList) := by
    simp [l, literal, ofSource, ofChars]
  have hspan : Place.origin.span (Place.origin.after literal) = ⟨0, literal.length⟩ :=
    congrArg (Span.mk 0) (Place.offset_after_origin literal)
  have hnext : l.next = (.ok token, ⟨l.source, Place.origin.after literal, rest.toList⟩) := by
    have h := next_literal hquote hbody hl
    rw [String.ofList_toList] at h
    exact h.trans (congrArg (fun span => (Except.ok (Token.mk _ _ span), _)) hspan)
  have hcarries : Carries literal.length g l.next.2 r := by
    rw [hnext]
    exact carries_after l.source literal rest
  refine ⟨congrArg Prod.fst hnext, fun n => (hcarries.asked n).skipTrivia.next.1, ?_⟩
  have hscan := hcarries.skipTrivia.scanAll
  rw [hnext] at hscan
  rw [scanAll_cons hnext rfl, hscan]
  cases r.scanAll.1 <;> rfl

/-- An escaped quotation mark, a newline as it is, a backslash before the mark that closes the literal,
and a rest that does not scan. -/
theorem scanAll_literal_mixed :
    Lexeme.isQuoteMark '\'' = true ∧
      Lexeme.Writes '\'' "n's\n\\".toList "n\\'s\n\\\\".toList ∧
      let l := ofSource "'n\\'s\n\\\\' + #"
      l.next.1 = .ok ⟨.string "n's\n\\", ⟨1, 1⟩, ⟨0, 9⟩⟩ ∧
        (l.asked 1).next.1 = .ok ⟨.operator "+", ⟨2, 5⟩, ⟨10, 11⟩⟩ ∧
        (l.asked 2).next.1 = .error ⟨'#', ⟨2, 7⟩, ⟨12, 13⟩⟩ ∧
        l.scanAll.1 = .error ⟨'#', ⟨2, 7⟩, ⟨12, 13⟩⟩ := by
  have hwrites : Lexeme.Writes '\'' "n's\n\\".toList "n\\'s\n\\\\".toList :=
    .cons (.plain (by decide) (by decide)) <| .cons (.escaped (by decide) (by decide) (by decide)) <|
      .cons (.plain (by decide) (by decide)) <| .cons (.plain (by decide) (by decide)) <|
        .cons (.escaped (by decide) (by decide) (by decide)) .nil
  obtain ⟨hnext, hasked, hscan⟩ :=
    (scanAll_literal (by decide : Lexeme.isQuoteMark '\'' = true) _).2 _ hwrites " + #"
  refine ⟨by decide, hwrites, hnext, hasked 0, hasked 1, hscan.trans ?_⟩
  rw [scanAll_cons (l := ofSource " + #") rfl rfl, scanAll_error rfl]
  rfl

end Lexer
end Dvilipi
