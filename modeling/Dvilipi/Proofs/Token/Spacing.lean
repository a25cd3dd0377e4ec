import Dvilipi.Proofs.Token.Form

/-!
Tokens with other separators. A token whose text stands in front of a blank, or at the end, is read as it
was where it came from; so a text in which the tokens of a source stand in their order, each behind a
separator that begins with a blank, holds tokens that say the same.
-/

namespace Dvilipi
set_option autoImplicit false

namespace Trivia

/-- Blanks, line comments with the newlines that end them, and closed block comments. -/
inductive Closed : List Char → Prop where
  | nil : Closed []
  | blank {c : Char} {gap : List Char} (hc : Text.isBlank c = true) (h : Closed gap) :
      Closed (c :: gap)
  | line {body gap : List Char} (hbody : '\n' ∉ body) (h : Closed gap) :
      Closed ('/' :: '/' :: (body ++ '\n' :: gap))
  | block {body gap : List Char} (hbody : ¬ ['*', '/'] <:+: body) (h : Closed gap) :
      Closed ('/' :: '*' :: (body ++ '*' :: '/' :: gap))

theorem Closed.layout {gap : List Char} (h : Closed gap) (rest : List Char) : Layout gap rest := by
  induction h with
  | nil => exact .nil
  | blank hc _ ih => exact .blank hc ih
  | line hbody _ ih => exact .line hbody (by simp) (.blank (by decide) ih)
  | block hbody _ ih => exact .block hbody ih

/-- Closed trivia that begin with a blank. -/
def IsSeparator (gap : List Char) : Prop :=
  ∃ c more, gap = c :: more ∧ Text.isBlank c = true ∧ Closed more

theorem IsSeparator.closed {gap : List Char} (h : IsSeparator gap) : Closed gap := by
  obtain ⟨c, more, rfl, hc, hmore⟩ := h
  exact .blank hc hmore

end Trivia

/-- The slices of the tokens, each behind its gap. -/
def Token.joined (cs : List Char) (gaps : List (List Char)) (ts : List Token) : List Char :=
  (List.zipWith (fun gap t => gap ++ t.span.slice cs) gaps ts).flatten

theorem Token.joined_cons (cs gap : List Char) (gaps : List (List Char)) (t : Token)
    (ts : List Token) :
    joined cs (gap :: gaps) (t :: ts) = gap ++ (t.span.slice cs ++ joined cs gaps ts) := by
  simp [joined]

namespace Lexer

variable {l m k : Lexer} {ts : List Token} {before cs raw : List Char} {c : Token.Content}
  {gaps : List (List Char)}

/-- In front of the separator that comes next, or of the end, a token has the form that it had. -/
theorem Gives.form_joined (h : l.Gives ts m) (hform : Lexeme.Form raw c l.rest.head?)
    (hlength : gaps.length = ts.length) (hgaps : ∀ gap ∈ gaps, Trivia.IsSeparator gap) :
    Lexeme.Form raw c (Token.joined cs gaps ts).head? := by
  cases h with
  | nil =>
    obtain rfl := List.length_eq_zero_iff.mp hlength
    exact hform.alone
  | cons hnext ht _ =>
    cases gaps with
    | nil => cases hlength
    | cons gap gaps =>
      obtain ⟨d, more, rfl, hd, -⟩ := hgaps gap List.mem_cons_self
      rw [Token.joined_cons, List.cons_append, List.head?_cons]
      refine hform.blank hd fun _ hnil => ?_
      have hlt := next_length hnext ht
      rw [List.head?_eq_none_iff.mp hnil] at hlt
      exact absurd hlt (Nat.not_lt_zero _)

theorem Gives.joined (h : l.Gives ts m) (hl : l.StandsAfter before cs)
    (hlength : gaps.length = ts.length) (hgaps : ∀ gap ∈ gaps, Trivia.IsSeparator gap)
    (hk : k.rest = Token.joined cs gaps ts) : ∃ us e, k.Scans (us ++ [e]) ∧ e.isEnd = true ∧
      us.map Token.content = ts.map Token.content := by
  induction h generalizing gaps k before with
  | nil l =>
    obtain rfl := List.length_eq_zero_iff.mp hlength
    exact ⟨[], _, scans_layout hk .nil, rfl, rfl⟩
  | @cons l m n t ts hnext ht hrest ih =>
    cases gaps with
    | nil => cases hlength
    | cons gap gaps =>
      obtain ⟨hgap, hgaps⟩ := List.forall_mem_cons.mp hgaps
      have hlength : gaps.length = ts.length := Nat.succ.inj hlength
      obtain ⟨old, raw, hstep⟩ := step_of_next hnext
      have hform := hstep.form (hstep.raw_ne_nil (Token.isEnd_eq_false_iff.mp ht))
      have hform' : Lexeme.Form raw t.content (Token.joined cs gaps ts).head? :=
        hrest.form_joined hform hlength hgaps
      rw [Token.joined_cons, hl.slice_token hstep] at hk
      have hnext' := next_of_form hk (hgap.closed.layout _) hform'
      obtain ⟨us, e, hus, he, hcontents⟩ := ih (hl.step hstep) hlength hgaps
        (k := ⟨k.source, k.place.after (gap ++ raw), Token.joined cs gaps ts⟩) rfl
      refine ⟨_ :: us, e, .cons hnext' ht hus, he, ?_⟩
      rw [List.map_cons, List.map_cons, hcontents]

end Lexer
end Dvilipi
