import Dvilipi.Proofs.Token.Form

/-!
Two texts with a newline between them are read as each is read alone: no token but a string and no
comment but an open one reaches over a newline.
-/

namespace Dvilipi
set_option autoImplicit false

theorem Token.contents_append (ts us : List Token) :
    contents (ts ++ us) = contents ts ++ contents us := by
  simp only [contents, List.map_append, List.filter_append]

namespace Lexer

variable {l m n : Lexer} {t : Token} {ts : List Token} {us vs : List Token.Content}
  {gap raw more : List Char}

/-- From `l` on the source holds tokens that say `us`. -/
def Says (l : Lexer) (us : List Token.Content) : Prop :=
  ∃ ts, l.Scans ts ∧ Token.contents ts = us

theorem says_nil (hnext : l.next = (.ok t, m)) (ht : t.content = .endOfInput) : l.Says [] := by
  have hend := Token.isEnd_iff.mpr ht
  exact ⟨[t], .last hnext hend, Token.contents_cons_end hend⟩

theorem says_cons (hnext : l.next = (.ok t, m)) (ht : t.content ≠ .endOfInput) (h : m.Says us) :
    l.Says (t.content :: us) := by
  obtain ⟨ts, hts, rfl⟩ := h
  exact ⟨t :: ts, .cons hnext (Token.isEnd_eq_false_iff.mpr ht) hts, Token.contents_cons ht⟩

theorem next_congr (h : l.next = (.ok t, m)) {k : Lexer}
    (hrest : (Trivia.split .blank k.rest).2 = (Trivia.split .blank l.rest).2) :
    ∃ u n, k.next = (.ok u, n) ∧ u.content = t.content ∧ n.rest = m.rest := by
  unfold next token at h ⊢
  have hskip : k.skipTrivia.rest = l.skipTrivia.rest := hrest
  rw [hskip]
  split at h
  · next hnil =>
    cases h
    exact ⟨_, _, rfl, rfl, hskip⟩
  · next c cs hcons =>
    split at h
    · cases h
    · next x hx =>
      cases h
      exact ⟨_, _, rfl, rfl, rfl⟩

theorem Step.newline (h : l.Step gap raw t m) (hraw : raw ≠ [])
    (hstring : ∀ text, t.content = .string text → m.rest ≠ []) {k : Lexer}
    (hk : k.rest = l.rest ++ '\n' :: more) (hplace : k.place = l.place) :
    ∃ j, k.next = (.ok t, j) ∧ j.rest = m.rest ++ '\n' :: more ∧ j.place = m.place := by
  have hform : Lexeme.Form raw t.content (m.rest ++ '\n' :: more).head? := by
    have hform := h.form hraw
    cases hrest : m.rest with
    | nil =>
      refine hform.blank (by decide) ?_
      rintro ⟨text, htext⟩
      exact absurd hrest (hstring text htext)
    | cons d ds => rwa [hrest] at hform
  have hrest : k.rest = gap ++ (raw ++ (m.rest ++ '\n' :: more)) := by
    rw [hk, h.rest_eq, List.append_assoc, List.append_assoc]
  exact ⟨_, (h.before hraw hform hrest hplace).2, rfl, rfl⟩

theorem Step.newline_end (h : l.Step gap [] t m) (hend : m.rest = [])
    (hclosed : ¬ Trivia.Unclosed l.rest) {k i : Lexer} (hk : k.rest = l.rest ++ '\n' :: more)
    (hplace : k.place = l.place) (hi : i.rest = more) {c lines : Nat}
    (hseam : (l.place.after l.rest).step '\n' = i.place.shift c lines) :
    Beyond c lines k.skipTrivia i.skipTrivia := by
  have hgap : l.rest = gap := by rw [h.rest_eq, hend, List.append_nil, List.append_nil]
  have hlayout : Trivia.Layout gap [] := by
    rcases h.between with hlayout | ⟨-, hopen⟩
    · rwa [hend] at hlayout
    · exact absurd (hgap ▸ hopen) hclosed
  have hblank : Text.isBlank '\n' = true := by decide
  have hended : Trivia.Layout gap ('\n' :: more) := hlayout.congr (by simp)
  have hsplit := hended.split_eq
  rw [Trivia.split_blank_cons hblank] at hsplit
  subst hi
  constructor
  · simp only [skipTrivia, hk, hgap, hsplit]
  · simp only [skipTrivia, hk, hgap, hsplit, hplace]
    rw [Place.after_append, Place.after_cons, ← hgap, hseam, Place.shift_after]

theorem Scans.contents_eq_nil (h : l.Scans ts) (hrest : l.rest = []) : Token.contents ts = [] := by
  cases h with
  | last _ ht => exact Token.contents_cons_end ht
  | cons hnext ht _ =>
    have hlt := next_length hnext ht
    rw [hrest] at hlt
    exact absurd hlt (Nat.not_lt_zero _)

/-- Two texts with a newline between them have the tokens of the first, but for the end token, and then
those of the second. -/
theorem Scans.newline (h : l.Scans ts) {before cs : List Char} (hl : l.StandsAfter before cs)
    (hstring : ∀ text, .string text ∉ (Token.contents ts).getLast?)
    (hclosed : ∀ us e, ts = us ++ [e] →
      ¬ Trivia.Unclosed (cs.drop (Token.stopAfter before.length us)))
    {k i : Lexer} (hk : k.rest = l.rest ++ '\n' :: more) (hplace : k.place = l.place)
    (hi : i.rest = more) {c lines : Nat}
    (hseam : (l.place.after l.rest).step '\n' = i.place.shift c lines) {vs : List Token}
    (hvs : i.Scans vs) :
    ∃ us e, ts = us ++ [e] ∧ k.Scans (us ++ vs.map (Token.shift c lines)) := by
  induction h generalizing before k with
  | @last l m t hnext ht =>
    obtain ⟨gap, raw, hstep⟩ := step_of_next hnext
    obtain ⟨rfl, hend⟩ := hstep.at_end (Token.isEnd_iff.mp ht)
    have hopen := hclosed [] t rfl
    rw [hl.1, Token.stopAfter, List.drop_left] at hopen
    exact ⟨[], t, rfl, (hstep.newline_end hend hopen hk hplace hi hseam).scans hvs⟩
  | @cons l m t ts hnext ht hts ih =>
    obtain ⟨gap, raw, hstep⟩ := step_of_next hnext
    have hne := Token.isEnd_eq_false_iff.mp ht
    rw [Token.contents_cons hne] at hstring
    -- a string that runs to the end of the text would be the last thing that it says
    have hrest : ∀ text, t.content = .string text → m.rest ≠ [] := by
      intro text htext hnil
      apply hstring text
      rw [hts.contents_eq_nil hnil, htext]
      rfl
    have hlast : ∀ text, .string text ∉ (Token.contents ts).getLast? := by
      intro text htext
      apply hstring text
      rw [List.getLast?_cons, Option.mem_def.mp htext]
      rfl
    have hopen : ∀ us e, ts = us ++ [e] → ¬ Trivia.Unclosed
        (cs.drop (Token.stopAfter (before ++ (gap ++ raw)).length us)) := by
      intro us e hus
      have hstop : Token.stopAfter (before ++ (gap ++ raw)).length us =
          Token.stopAfter before.length (t :: us) := by
        rw [Token.stopAfter, hl.span hstep, List.length_append, List.length_append,
          List.length_append, Nat.add_assoc]
      rw [hstop]
      exact hclosed (t :: us) e (by rw [hus]; rfl)
    have hseam' : (m.place.after m.rest).step '\n' = i.place.shift c lines := by
      rw [← hseam, hstep.place, ← Place.after_append, List.append_assoc, ← hstep.rest_eq]
    obtain ⟨j, hj, hjrest, hjplace⟩ := hstep.newline (hstep.raw_ne_nil hne) hrest hk hplace
    obtain ⟨us, e, rfl, hus⟩ := ih (hl.step hstep) hlast hopen hjrest hjplace hseam'
    exact ⟨t :: us, e, rfl, .cons hj ht hus⟩

/-- The source has tokens, and a comment is left open behind the last of them. -/
def EndsInComment (source : String) : Prop :=
  ∃ us e, (ofSource source).scanAll.1 = .ok (us ++ [e]) ∧
    Trivia.Unclosed (source.toList.drop (Token.stopAfter 0 us))

theorem not_endsInComment {source : String} (h : ¬ ['/', '*'] <:+: source.toList) :
    ¬ EndsInComment source := by
  rintro ⟨us, e, -, hopen⟩
  exact h (hopen.opens.trans (List.drop_suffix _ _).isInfix)

theorem scans_join {first second : String} {ts vs : List Token} (h : (ofSource first).Scans ts)
    (h' : (ofSource second).Scans vs) (hstring : ∀ text, .string text ∉ (Token.contents ts).getLast?)
    (hclosed : ¬ EndsInComment first) :
    ∃ us e, ts = us ++ [e] ∧ (ofSource (first ++ "\n" ++ second)).Scans
      (us ++ vs.map (Token.shift (first.length + 1) (first.toList.count '\n' + 1))) := by
  have hjoined : (first ++ "\n" ++ second).toList = first.toList ++ '\n' :: second.toList := by simp
  have hseam := Place.step_newline first.toList
  rw [String.length_toList] at hseam
  refine h.newline (k := ofSource (first ++ "\n" ++ second)) (i := ofSource second)
    (standsAfter_ofChars first.toList) hstring ?_ hjoined rfl rfl hseam h'
  rintro ws e rfl hopen
  exact hclosed ⟨ws, e, h.scanAll, hopen⟩

theorem says_join {first second : String} (h : (ofSource first).Says us)
    (h' : (ofSource second).Says vs) (hstring : ∀ text, .string text ∉ us.getLast?)
    (hclosed : ¬ EndsInComment first) :
    (ofSource (first ++ "\n" ++ second)).Says (us ++ vs) := by
  obtain ⟨ts, hts, rfl⟩ := h
  obtain ⟨ws, hws, rfl⟩ := h'
  obtain ⟨rs, e, rfl, hscans⟩ := scans_join hts hws hstring hclosed
  have hend : e.isEnd = true := by
    obtain ⟨rs', e', heq, he'⟩ := hts.ends
    rwa [List.singleton_inj.mp (List.append_inj' heq rfl).2]
  refine ⟨_, hscans, ?_⟩
  rw [Token.contents_append, Token.contents_append, Token.contents_shift,
    Token.contents_cons_end hend]
  exact congrArg (· ++ _) (List.append_nil _).symm

end Lexer
end Dvilipi
