import Dvilipi.Proofs.Token.Form

/-!
Where a scan fails. A character that begins neither trivia nor a token ends every token before it, except
a string that is still open and a numeral that a point goes on with; so a scan fails at the first such
character that is not part of a token or of a comment, and what stands before it scans alone.
-/

namespace Dvilipi
set_option autoImplicit false

/-- Neither trivia nor a token begins with the character. -/
structure Text.Unreadable (c : Char) : Prop where
  blank : Text.isBlank c = false
  digit : Text.isDigit c = false
  word : Text.startsWord c = false
  quote : Lexeme.isQuoteMark c = false
  operator : Lexeme.isOperatorMark c = false
  delimiter : Lexeme.isDelimiterMark c = false

namespace Text.Unreadable

variable {c : Char}

theorem ne_slash (h : Unreadable c) : c ≠ '/' := by
  rintro rfl
  exact absurd h.operator (by decide)

theorem split (h : Unreadable c) (cs : List Char) :
    Trivia.split .blank (c :: cs) = ([], c :: cs) :=
  Trivia.split_cons_iff.mpr ⟨h.blank, fun he => absurd he h.ne_slash⟩

theorem first? (h : Unreadable c) (cs : List Char) : Lexeme.first? (c :: cs) = none := by
  simp [Lexeme.first?, h.digit, h.word, h.quote, h.operator, h.delimiter]

theorem of_first? {cs : List Char} (hsplit : Trivia.split .blank (c :: cs) = ([], c :: cs))
    (h : Lexeme.first? (c :: cs) = none) : Unreadable c := by
  obtain ⟨hblank, -⟩ := Trivia.split_cons_iff.mp hsplit
  simp only [Lexeme.first?] at h
  repeat' split at h
  all_goals simp_all [Unreadable.mk]

end Text.Unreadable

/-- The line and the column behind a text. -/
def Position.behind (cs : List Char) : Position :=
  ⟨cs.count '\n' + 1, (cs.reverse.takeWhile (· ≠ '\n')).length + 1⟩

/-- What the text behind the offset `n` ends with goes no further in front of `c`: no string and no
comment is open, and no numeral goes on with a point. -/
structure Token.Settled (c : Char) (cs : List Char) (n : Nat) (ts : List Token) : Prop where
  strings : ∀ t ∈ ts, ∀ text, t.content = .string text → Lexeme.IsLiteral (t.span.slice cs)
  comments : ¬ Trivia.Unclosed (cs.drop (stopAfter n ts)) ∧ ¬ Trivia.Trailing (cs.drop (stopAfter n ts))
  numerals : c = '.' → ∀ t ∈ ts, ∀ x, t.content = .number x → t.span.stop ≠ cs.length

theorem Token.Settled.tail {c : Char} {cs : List Char} {n : Nat} {t : Token} {ts : List Token}
    (h : Settled c cs n (t :: ts)) : Settled c cs t.span.stop ts :=
  ⟨(List.forall_mem_cons.mp h.strings).2, h.comments,
    fun hpoint => (List.forall_mem_cons.mp (h.numerals hpoint)).2⟩

namespace Lexer

variable {l k m : Lexer} {e : LexError} {t : Token} {ts : List Token}
  {gap raw rest before cs : List Char} {c : Char}

theorem next_of_unreadable (hl : l.rest = gap ++ c :: rest) (hgap : Trivia.Layout gap (c :: rest))
    (hc : Text.Unreadable c) :
    ∃ m, l.next = (.error ⟨c, (l.place.after gap).position, .single (l.place.after gap).offset⟩, m) := by
  have hskip : l.skipTrivia = ⟨l.source, l.place.after gap, c :: rest⟩ := by
    rw [skipTrivia, hl, hgap.split_eq, hc.split, List.append_nil]
  unfold next token
  rw [hskip]
  dsimp only
  rw [hc.first?]
  exact ⟨_, rfl⟩

theorem unreadable_of_next (h : l.next = (.error e, m)) : ∃ gap rest,
    l.rest = gap ++ e.character :: rest ∧ Trivia.Layout gap (e.character :: rest) ∧
      Text.Unreadable e.character ∧ e.position = (l.place.after gap).position ∧
        e.span = .single (l.place.after gap).offset := by
  have hbetween := Trivia.between_split l.rest
  have happend := Trivia.split_append .blank l.rest
  have hstarts := Trivia.split_rest .blank l.rest
  unfold next token at h
  split at h
  · cases h
  · next c cs hcons =>
    split at h
    · next hnone =>
      cases h
      have hrest : (Trivia.split .blank l.rest).2 = c :: cs := hcons
      rw [hrest] at hbetween happend hstarts
      rw [hcons] at hnone
      refine ⟨_, cs, happend.symm, ?_, .of_first? hstarts hnone, rfl, rfl⟩
      exact hbetween.resolve_right fun hopen => List.cons_ne_nil _ _ hopen.1
    · cases h

theorem Step.place_after (h : l.Step gap raw t m) (cs : List Char) :
    m.place.after cs = l.place.after (gap ++ (raw ++ cs)) := by
  rw [h.place, ← Place.after_append, List.append_assoc]

theorem StandsAfter.length_eq (hl : l.StandsAfter before cs) (h : l.Step gap raw t m) :
    cs.length = t.span.stop + m.rest.length := by
  rw [(hl.step h).1, List.length_append, hl.length_eq_stop h]

theorem StandsAfter.settled (hl : l.StandsAfter before cs) (h : l.Step gap raw t m)
    (hform : Lexeme.Form raw t.content (m.rest ++ c :: rest).head?)
    (hsettled : Token.Settled c cs t.span.stop ts) : Token.Settled c cs before.length (t :: ts) := by
  refine ⟨List.forall_mem_cons.mpr ⟨fun text htext => ?_, hsettled.strings⟩, hsettled.comments, ?_⟩
  · rw [hl.slice_token h]
    rw [htext] at hform
    cases hrest : m.rest with
    | nil =>
      rw [hrest] at hform
      exact hform.isLiteral
    | cons d ds =>
      rw [hrest] at hform
      exact hform.isLiteral
  · refine fun hpoint => List.forall_mem_cons.mpr ⟨fun x hx hstop => ?_, hsettled.numerals hpoint⟩
    have hlength := hl.length_eq h
    have hnil : m.rest = [] := List.length_eq_zero_iff.mp (by omega)
    rw [hx, hnil] at hform
    exact hform.ne_point (congrArg some hpoint)

theorem StandsAfter.form (hl : l.StandsAfter before cs) (h : l.Step gap raw t m) (hraw : raw ≠ [])
    (hc : Text.Unreadable c) (hsettled : Token.Settled c cs before.length (t :: ts))
    (rest : List Char) : Lexeme.Form raw t.content (m.rest ++ c :: rest).head? := by
  have hform := h.form hraw
  cases hrest : m.rest with
  | nil =>
    refine hform.before ?_ ?_ hc.digit hc.word hc.operator
    · rintro ⟨text, htext⟩
      rw [← hl.slice_token h]
      exact hsettled.strings t List.mem_cons_self text htext
    · intro hpoint x hx
      apply hsettled.numerals hpoint t List.mem_cons_self x hx
      rw [hl.length_eq h, hrest]
      rfl
  | cons d ds =>
    rw [hrest] at hform
    exact hform

/-- The text in front of the character at which a scan fails scans alone, with the same tokens. -/
theorem scans_of_scanAll_error (h : l.scanAll.1 = .error e) : ∃ inner after,
    l.rest = inner ++ e.character :: after ∧ Text.Unreadable e.character ∧
      e.position = (l.place.after inner).position ∧ e.span = .single (l.place.after inner).offset ∧
      ∀ {k : Lexer} {before cs : List Char}, k.rest = inner → k.place = l.place →
        k.StandsAfter before cs → ∃ us,
          k.Scans (us ++ [⟨.endOfInput, e.position, ⟨e.span.start, e.span.start⟩⟩]) ∧
            Token.Settled e.character cs before.length us := by
  induction l using scanAll.induct with
  | case1 l e' m hnext =>
    rw [scanAll_error hnext] at h
    cases h
    obtain ⟨gap, rest, hrest, hgap, hc, hposition, hspan⟩ := unreadable_of_next hnext
    refine ⟨gap, rest, hrest, hc, hposition, hspan, fun {k before cs} hk hplace hl => ⟨[], ?_, ?_⟩⟩
    · have hscans := scans_layout hk (hgap.congr (by simp))
      rw [hplace, ← hposition] at hscans
      rwa [hspan]
    · refine ⟨by simp, ?_, by simp⟩
      rw [Token.stopAfter, hl.1, List.drop_left, hk]
      exact hgap.not_open hc.blank hc.ne_slash
  | case2 l t m hnext ht =>
    rw [scanAll_end hnext ht] at h
    cases h
  | case3 l t m hnext ht _ ih =>
    rw [Bool.not_eq_true] at ht
    have hgives : l.Gives [t] m := .cons hnext ht (.nil m)
    obtain ⟨inner, after, hrest, hc, hposition, hspan, hscans⟩ := ih (hgives.scanAll_rest h)
    obtain ⟨gap, raw, hstep⟩ := step_of_next hnext
    have hraw := hstep.raw_ne_nil (Token.isEnd_eq_false_iff.mp ht)
    have hform := hstep.form hraw
    rw [hrest] at hform
    have hplace := hstep.place_after inner
    refine ⟨gap ++ (raw ++ inner), after, ?_, hc, hplace ▸ hposition, hplace ▸ hspan, ?_⟩
    · rw [hstep.rest_eq, hrest]
      simp
    intro k before cs hk hkplace hl
    -- the text behind the token begins as before or is empty, so the token ends where it did
    have hform' : Lexeme.Form raw t.content inner.head? := by
      cases inner with
      | nil => exact hform.alone
      | cons d inner => exact hform
    obtain ⟨hstep', hnext'⟩ := hstep.before hraw hform' hk hkplace
    have hl' := hl.step hstep'
    obtain ⟨us, hus, hsettled⟩ := hscans (k := ⟨k.source, m.place, inner⟩) rfl rfl hl'
    rw [hl.length_eq_stop hstep'] at hsettled
    exact ⟨t :: us, .cons hnext' ht hus, hl.settled hstep' hform hsettled⟩

/-- A scan fails at an unreadable character behind a text that is settled in front of it. -/
theorem Gives.scanAll_unreadable (h : k.Gives ts m) {last : Token} {n : Lexer}
    (hlast : m.next = (.ok last, n)) (hend : last.isEnd = true) (hk : k.StandsAfter before cs)
    (hc : Text.Unreadable c) (hsettled : Token.Settled c cs before.length ts)
    (hl : l.rest = k.rest ++ c :: rest) (hplace : l.place = k.place) :
    l.scanAll.1 = .error ⟨c, (k.place.after k.rest).position, .single (k.place.after k.rest).offset⟩ := by
  induction h generalizing l before with
  | nil k =>
    obtain ⟨gap, raw, hstep⟩ := step_of_next hlast
    obtain ⟨rfl, hnil⟩ := hstep.at_end (Token.isEnd_iff.mp hend)
    have hgap : k.rest = gap := by rw [hstep.rest_eq, hnil, List.append_nil, List.append_nil]
    obtain ⟨hopen, hline⟩ := hsettled.comments
    rw [Token.stopAfter, hk.1, List.drop_left, hgap] at hopen hline
    have hlayout : Trivia.Layout gap [] := by
      rcases hstep.between with hlayout | ⟨-, hunclosed⟩
      · rwa [hnil] at hlayout
      · exact absurd hunclosed hopen
    obtain ⟨j, hnext⟩ := next_of_unreadable (hgap ▸ hl) (hlayout.whole hline (c :: rest)) hc
    rw [Lexer.scanAll_error hnext, hplace, hgap]
  | @cons k m' m t ts hnext ht hrest ih =>
    obtain ⟨gap, raw, hstep⟩ := step_of_next hnext
    have hraw := hstep.raw_ne_nil (Token.isEnd_eq_false_iff.mp ht)
    have hform := hk.form hstep hraw hc hsettled rest
    have hfront : l.rest = gap ++ (raw ++ (m'.rest ++ c :: rest)) := by
      rw [hl, hstep.rest_eq, List.append_assoc, List.append_assoc]
    obtain ⟨-, hnext'⟩ := hstep.before hraw hform hfront hplace
    have hsettled' := hsettled.tail
    rw [← hk.length_eq_stop hstep] at hsettled'
    have herror := ih hlast (l := ⟨l.source, m'.place, m'.rest ++ c :: rest⟩) (hk.step hstep)
      hsettled' rfl rfl
    rw [hstep.place_after, ← hstep.rest_eq] at herror
    rw [scanAll_cons hnext' ht, herror]
    rfl

/-- A scan fails at the first unreadable character that is part of no token and no comment. What stands
in front of it scans, ends at its place and is settled there; and every text that does, with such a
character behind it, fails there. -/
theorem scanAll_error_exact (source : String) :
    (∀ e, (ofSource source).scanAll.1 = .error e → ∃ k us,
      source.toList[k]? = some e.character ∧ Text.Unreadable e.character ∧
        e.position = .behind (source.toList.take k) ∧ e.span = ⟨k, k + 1⟩ ∧
        (ofChars (source.toList.take k)).scanAll.1 =
          .ok (us ++ [⟨.endOfInput, e.position, ⟨k, k⟩⟩]) ∧
        Token.Settled e.character (source.toList.take k) 0 us) ∧
      ∀ k c us last, source.toList[k]? = some c → Text.Unreadable c →
        (ofChars (source.toList.take k)).scanAll.1 = .ok (us ++ [last]) →
        Token.Settled c (source.toList.take k) 0 us →
          (ofSource source).scanAll.1 =
            .error ⟨c, .behind (source.toList.take k), ⟨k, k + 1⟩⟩ := by
  constructor
  · intro e h
    obtain ⟨inner, after, hrest, hc, hposition, hspan, hscans⟩ := scans_of_scanAll_error h
    have htake : source.toList.take inner.length = inner := by
      rw [show source.toList = inner ++ e.character :: after from hrest, List.take_left]
    have hbehind : e.position = .behind inner := hposition.trans (Place.after_position inner)
    have hoffset : (Place.origin.after inner).offset = inner.length := by
      rw [Place.after_offset]
      exact Nat.zero_add _
    have hstop : e.span = ⟨inner.length, inner.length + 1⟩ := by
      rw [hspan]
      exact congrArg Span.single hoffset
    obtain ⟨us, hus, hsettled⟩ := hscans (k := ofChars inner) rfl rfl (standsAfter_ofChars inner)
    rw [hstop] at hus
    refine ⟨inner.length, us, ?_, hc, ?_, hstop, ?_, ?_⟩
    · rw [show source.toList = inner ++ e.character :: after from hrest]
      simp
    · rw [htake]
      exact hbehind
    · rw [htake]
      exact hus.scanAll
    · rw [htake]
      exact hsettled
  · intro k c us last hk hc hscan hsettled
    obtain ⟨hlt, hget⟩ := List.getElem?_eq_some_iff.mp hk
    have hsource : source.toList = source.toList.take k ++ c :: source.toList.drop (k + 1) := by
      rw [← hget, ← List.drop_eq_getElem_cons hlt, List.take_append_drop]
    have hlength : (source.toList.take k).length = k := List.length_take_of_le (Nat.le_of_lt hlt)
    obtain ⟨m, n, hgives, hlast, hend⟩ := (scans_of_scanAll hscan).gives
    have herror := hgives.scanAll_unreadable hlast hend (standsAfter_ofChars _) hc hsettled
      (l := ofSource source) hsource rfl
    rw [herror]
    have hoffset : (Place.origin.after (source.toList.take k)).offset = k := by
      rw [Place.after_offset, hlength]
      exact Nat.zero_add _
    exact congrArg₂ (fun position n => Except.error (LexError.mk c position (Span.single n)))
      (Place.after_position _) hoffset

/-- The same character inside a string, another one inside a comment, and behind a word. -/
theorem scanAll_error_exact_behind_word :
    Text.Unreadable '#' ∧ Token.Settled '#' "'#' /* @ */ म".toList 0
      [⟨.string "#", ⟨1, 1⟩, ⟨0, 3⟩⟩, ⟨.identifier "म", ⟨1, 13⟩, ⟨12, 13⟩⟩] ∧
      (ofSource "'#' /* @ */ म# \"").scanAll.1 = .error ⟨'#', ⟨1, 14⟩, ⟨13, 14⟩⟩ ∧
      ∃ us, (ofChars "'#' /* @ */ म".toList).scanAll.1 =
        .ok (us ++ [⟨.endOfInput, ⟨1, 14⟩, ⟨13, 13⟩⟩]) := by
  have hunreadable : Text.Unreadable '#' := by constructor <;> decide +kernel
  have hscan : (ofChars "'#' /* @ */ म".toList).scanAll.1.toOption =
      some ([⟨.string "#", ⟨1, 1⟩, ⟨0, 3⟩⟩, ⟨.identifier "म", ⟨1, 13⟩, ⟨12, 13⟩⟩] ++
        [⟨.endOfInput, ⟨1, 14⟩, ⟨13, 13⟩⟩]) := by decide +kernel
  have hsettled : Token.Settled '#' "'#' /* @ */ म".toList 0
      [⟨.string "#", ⟨1, 1⟩, ⟨0, 3⟩⟩, ⟨.identifier "म", ⟨1, 13⟩, ⟨12, 13⟩⟩] := by
    have hliteral : Lexeme.IsLiteral ['\'', '#', '\''] :=
      ⟨'\'', ['#'], ['#'], rfl, .cons (.plain (by decide) (by decide)) .nil, rfl⟩
    refine ⟨?_, ⟨?_, ?_⟩, fun hpoint => absurd hpoint (by decide)⟩
    · exact List.forall_mem_cons.mpr ⟨fun _ _ => hliteral, by simp⟩
    · rintro ⟨before, body, heq, -⟩
      cases before <;> cases heq
    · rintro ⟨before, body, heq, -⟩
      cases before <;> cases heq
  obtain ⟨hbefore, hfails⟩ := scanAll_error_exact "'#' /* @ */ म# \""
  have herror := hfails 13 '#' _ _ rfl hunreadable (eq_ok_of_toOption hscan) hsettled
  obtain ⟨k, us, -, -, -, hspan, hus, -⟩ := hbefore _ herror
  obtain rfl : k = 13 := (congrArg Span.start hspan).symm
  exact ⟨hunreadable, hsettled, herror, us, hus⟩

end Lexer
end Dvilipi
