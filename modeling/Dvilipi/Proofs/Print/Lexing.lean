import Dvilipi.Proofs.Print.Text
import Dvilipi.Proofs.Token.Form

/-!
Reading the printed tokens. The text of every token is read as this token, provided that a blank or the
end of the source follows; so the tokens of a printed text are those that were printed.
-/

namespace Dvilipi
set_option autoImplicit false

namespace Print

/-- What may follow a printed token. -/
def Gap (rest : List Char) : Prop := rest = [] ∨ ∃ more, rest = ' ' :: more

/-- A text that no trivia begins, and that is read as one token with the content `c` in front of every
gap. -/
structure Lexes (text : List Char) (c : Token.Content) : Prop where
  plain : ∀ {rest}, Gap rest → Trivia.split .blank (text ++ rest) = ([], text ++ rest)
  first : ∀ {rest}, Gap rest → Lexeme.first? (text ++ rest) = some ⟨c, text, rest⟩

theorem Lexes.of_form {text : List Char} {c : Token.Content} (h : Lexeme.Form text c (some ' ')) :
    Lexes text c := by
  have hreads : ∀ {rest}, Gap rest → Trivia.split .blank (text ++ rest) = ([], text ++ rest) ∧
      Lexeme.first? (text ++ rest) = some ⟨c, text, rest⟩ := by
    rintro rest (rfl | ⟨more, rfl⟩)
    · exact h.alone.reads rfl
    · exact h.reads rfl
  exact ⟨fun hgap => (hreads hgap).1, fun hgap => (hreads hgap).2⟩

theorem lexes_word {text : List Char} (h : IsWord text) :
    Lexes text (Lexeme.wordContent (String.ofList text)) := by
  cases text with
  | nil => exact h.elim
  | cons c cs =>
    obtain ⟨hstart, hdigit, hcs⟩ := h
    refine .of_form (.word hstart hdigit (List.all_eq_true.mp hcs) fun d hd => ?_)
    obtain rfl := Option.some.inj hd
    decide

theorem lexes_identifier {x : String} (h : IsName x) : Lexes x.toList (.identifier x) := by
  have hword := lexes_word h.1
  rwa [String.ofList_toList, Lexeme.wordContent, h.2] at hword

theorem isWord_spelling (word : Keyword) (script : Script) :
    IsWord (word.spelling script).toList := by
  cases word <;> cases script <;> decide +kernel

theorem lexes_keyword (word : Keyword) (script : Script) :
    Lexes (word.spelling script).toList (.keyword word script) := by
  have hword := lexes_word (isWord_spelling word script)
  rwa [String.ofList_toList, Lexeme.wordContent, Keyword.ofWord?_spelling] at hword

theorem isDigit_of_isAsciiDigit {c : Char} (h : Decimal.isAsciiDigit c = true) :
    Text.isDigit c = true := by
  rw [Decimal.isAsciiDigit_iff] at h
  simp [Text.isDigit, Text.isLatinDigit, Script.digitValue?, Script.zero, h]

theorem latinDigit_of_isAsciiDigit {c : Char} (h : Decimal.isAsciiDigit c = true) :
    Text.latinDigit c = c := by
  rw [Decimal.isAsciiDigit_iff] at h
  have hvalue : Script.devanagari.digitValue? c = none := by
    rw [Script.digitValue?, if_neg]
    simp [Script.zero]
    omega
  refine Text.latinDigit_of_not_isDevanagariDigit ?_
  simp [Text.isDevanagariDigit, hvalue]

theorem lexes_number {x : Float} (h : Number.IsPlain x) :
    Lexes (Number.positionalText x).toList (.number x) := by
  have hread := Number.read_positionalText h
  obtain ⟨⟨c, cs, htext, hc⟩, hall⟩ := Number.isNumeral_positionalText h
  have hcontinues : ∀ d ∈ (Number.positionalText x).toList, Lexeme.continuesNumber d = true := by
    intro d hd
    rcases hall d hd with hdigit | rfl
    · simp [Lexeme.continuesNumber, isDigit_of_isAsciiDigit hdigit]
    · rfl
  have hlatin : (Number.positionalText x).toList.map Text.latinDigit =
      (Number.positionalText x).toList := by
    refine (List.map_congr_left fun d hd => ?_).trans (List.map_id _)
    rcases hall d hd with hdigit | rfl
    · exact latinDigit_of_isAsciiDigit hdigit
    · decide
  have hvalue : Lexeme.numeral (Number.positionalText x).toList = x := by
    rw [Lexeme.numeral, hlatin, hread]
  rw [htext] at hcontinues hvalue ⊢
  rw [← hvalue]
  refine .of_form (.number (isDigit_of_isAsciiDigit hc) (List.forall_mem_cons.mp hcontinues).2
    fun d hd => ?_)
  obtain rfl := Option.some.inj hd
  decide

variable {quote : Char}

/-- The backslashes keep every quotation mark of the text from closing it. -/
theorem writes_escape (hquote : Lexeme.isQuoteMark quote = true) (text : List Char) :
    Lexeme.Writes quote text (text.flatMap (escape quote)) := by
  induction text with
  | nil => exact .nil
  | cons c cs ih =>
    rw [List.flatMap_cons, escape]
    split
    · next hspecial => exact .cons (.special hquote hspecial) ih
    · next hspecial =>
      obtain ⟨hc, hbackslash⟩ := not_or.mp hspecial
      exact .cons (.plain hc hbackslash) ih

theorem lexes_string (hquote : Lexeme.isQuoteMark quote = true) (text : String) :
    Lexes (spelling quote (.string text)) (.string text) := by
  have hform : Lexeme.Form (spelling quote (.string text)) (.string (String.ofList text.toList))
      (some ' ') := .literal hquote (writes_escape hquote text.toList)
  rw [String.ofList_toList] at hform
  exact .of_form hform

/-- One operator mark, or two that are read together. -/
def IsSymbol : List Char → Prop
  | [c] => Lexeme.isOperatorMark c = true
  | [c, d] => Lexeme.isOperatorMark c = true ∧ Lexeme.extendsOperator c d = true
  | _ => False

instance : DecidablePred IsSymbol
  | [] => .isFalse id
  | [c] => inferInstanceAs (Decidable (Lexeme.isOperatorMark c = true))
  | [c, d] =>
    inferInstanceAs (Decidable (Lexeme.isOperatorMark c = true ∧ Lexeme.extendsOperator c d = true))
  | _ :: _ :: _ :: _ => .isFalse id

theorem not_extendsOperator_blank {c : Char} (h : Lexeme.isOperatorMark c = true) :
    Lexeme.extendsOperator c ' ' = false := by
  have hc : c ≠ ' ' := by
    rintro rfl
    exact absurd h (by decide)
  simp [Lexeme.extendsOperator, hc.symm]

theorem lexes_mark {c : Char} (h : Lexeme.isOperatorMark c = true) :
    Lexes [c] (.operator (String.singleton c)) := by
  refine .of_form (.mark h (fun d hd => ?_) fun _ => by simp)
  obtain rfl := Option.some.inj hd
  exact not_extendsOperator_blank h

theorem lexes_operator {symbol : String} (h : IsSymbol symbol.toList) :
    Lexes symbol.toList (.operator symbol) := by
  have hsymbol : String.ofList symbol.toList = symbol := String.ofList_toList
  match hs : symbol.toList with
  | [] =>
    rw [hs] at h
    exact h.elim
  | [c] =>
    rw [hs] at h hsymbol
    exact hsymbol ▸ lexes_mark h
  | [c, d] =>
    rw [hs] at h hsymbol
    exact hsymbol ▸ .of_form (.marks h.1 h.2)
  | _ :: _ :: _ :: _ =>
    rw [hs] at h
    exact h.elim

/-- What a text can say. -/
def Spellable : Token.Content → Prop
  | .keyword _ _ => True
  | .identifier x => IsName x
  | .number x => Number.IsPlain x
  | .string _ => True
  | .operator symbol => IsSymbol symbol.toList
  | .delimiter mark => Lexeme.isDelimiterMark mark = true
  | .endOfInput => False

theorem lexes_spelling (hquote : Lexeme.isQuoteMark quote = true) {c : Token.Content}
    (h : Spellable c) : Lexes (spelling quote c) c := by
  cases c with
  | keyword word script => exact lexes_keyword word script
  | identifier x => exact lexes_identifier h
  | number x => exact lexes_number h
  | string text => exact lexes_string hquote text
  | operator symbol => exact lexes_operator h
  | delimiter mark => exact .of_form (.delimiter h)
  | endOfInput => exact h.elim

theorem spaced_cons (quote : Char) (c : Token.Content) (us : List Token.Content) :
    ∃ rest, spaced quote (c :: us) = spelling quote c ++ rest ∧ Gap rest ∧
      (rest = spaced quote us ∨ rest = ' ' :: spaced quote us) := by
  cases us with
  | nil => exact ⟨[], by simp [spaced], .inl rfl, .inl rfl⟩
  | cons d us => exact ⟨' ' :: spaced quote (d :: us), by simp [spaced], .inr ⟨_, rfl⟩, .inr rfl⟩

theorem split_blank {cs : List Char} (h : Trivia.split .blank cs = ([], cs)) :
    (Trivia.split .blank (' ' :: cs)).2 = cs := by
  have hnext : Trivia.Mode.blank.next? ' ' cs.head? = some .blank := rfl
  simp only [Trivia.split, hnext, h]

theorem next_of_lexes {text rest : List Char} {c : Token.Content} (h : Lexes text c) (hgap : Gap rest)
    {l : Lexer} (hl : l.rest = text ++ rest ∨ l.rest = ' ' :: (text ++ rest)) :
    ∃ t m, l.next = (.ok t, m) ∧ t.content = c ∧ m.rest = rest := by
  have hplain := h.plain hgap
  have hskip : l.skipTrivia.rest = text ++ rest := by
    rcases hl with hl | hl
    · simp only [Lexer.skipTrivia, hl, hplain]
    · simp only [Lexer.skipTrivia, hl, split_blank hplain]
  have hfirst := h.first hgap
  rw [← hskip] at hfirst
  unfold Lexer.next Lexer.token
  cases hrest : l.skipTrivia.rest with
  | nil =>
    rw [hrest] at hfirst
    cases hfirst
  | cons d ds =>
    rw [hrest] at hfirst
    simp only [hfirst]
    exact ⟨_, _, rfl, rfl, rfl⟩

theorem scans_spaced (hquote : Lexeme.isQuoteMark quote = true) {us : List Token.Content}
    (h : ∀ c ∈ us, Spellable c) {l : Lexer}
    (hl : l.rest = spaced quote us ∨ l.rest = ' ' :: spaced quote us) :
    ∃ ts, l.Scans ts ∧ Token.contents ts = us := by
  induction us generalizing l with
  | nil =>
    have hskip : l.skipTrivia.rest = [] := by
      rcases hl with hl | hl
      · simp only [Lexer.skipTrivia, hl]
        rfl
      · simp only [Lexer.skipTrivia, hl]
        rfl
    have hnext : ∃ t, l.next = (.ok t, l.skipTrivia) ∧ t.isEnd = true := by
      unfold Lexer.next Lexer.token
      rw [hskip]
      exact ⟨_, rfl, rfl⟩
    obtain ⟨t, hnext, ht⟩ := hnext
    exact ⟨[t], .last hnext ht, Token.contents_cons_end ht⟩
  | cons c us ih =>
    obtain ⟨rest, htext, hgap, hrest⟩ := spaced_cons quote c us
    have hc := h c List.mem_cons_self
    rw [htext] at hl
    obtain ⟨t, m, hnext, ht, hm⟩ := next_of_lexes (lexes_spelling hquote hc) hgap hl
    rw [← hm] at hrest
    obtain ⟨ts, hscans, hts⟩ := ih (fun d hd => h d (List.mem_cons_of_mem c hd)) hrest
    have hne : t.content ≠ .endOfInput := by
      rw [ht]
      rintro rfl
      exact hc
    have hend : t.isEnd = false := by simpa [Token.isEnd] using hne
    refine ⟨t :: ts, .cons hnext hend hscans, ?_⟩
    rw [Token.contents_cons hne, ht, hts]

end Print
end Dvilipi
