import Dvilipi.Proofs.Text.Place
import Dvilipi.Proofs.Token.Layout
import Dvilipi.Proofs.Token.Scan

/-!
A scan divides the source without a loss. Between the tokens stand blanks and comments only, every
token covers the text it was read from, and its position counts what stands before it.
-/

namespace Dvilipi
set_option autoImplicit false

/-- What a token of this kind says is spelled as it stands in the source. -/
def Token.Content.IsVerbatim : Token.Content → Prop
  | keyword _ _ => True
  | identifier _ => True
  | operator _ => True
  | delimiter _ => True
  | _ => False

/-- The token stands in the text: its span is a part of the text, its position is that of its first
character, and what is spelled there is what it says. -/
structure Token.StandsIn (cs : List Char) (t : Token) : Prop where
  within : t.span.Within cs
  position : t.position = ⟨(cs.take t.span.start).count '\n' + 1,
    ((cs.take t.span.start).reverse.takeWhile (· ≠ '\n')).length + 1⟩
  text : t.content.IsVerbatim → t.text.toList = t.span.slice cs

/-- The end of the last token, or `n` if there is none. -/
def Token.stopAfter (n : Nat) : List Token → Nat
  | [] => n
  | t :: ts => Token.stopAfter t.span.stop ts

namespace Lexeme

theorem text_wordContent (word : String) : (wordContent word).text = word := by
  unfold wordContent
  split
  · next k s h => exact Keyword.spelling_of_ofWord? h
  · rfl

theorem text_operator (c : Char) (cs : List Char) :
    (operator c cs).content.text.toList = (operator c cs).raw := by
  unfold operator
  split
  · split
    · exact String.toList_ofList
    · simp [Token.Content.text]
  · simp [Token.Content.text]

theorem first?_content_ne_end {cs : List Char} {x : Lexeme} (h : first? cs = some x) :
    x.content ≠ .endOfInput := by
  cases cs with
  | nil => cases h
  | cons c rest =>
    simp only [first?] at h
    repeat' split at h
    · cases h; exact Token.Content.noConfusion
    · cases h
      unfold word wordContent
      dsimp only
      split <;> exact Token.Content.noConfusion
    · cases h; exact Token.Content.noConfusion
    · cases h
      unfold operator
      split
      · split <;> exact Token.Content.noConfusion
      · exact Token.Content.noConfusion
    · cases h; exact Token.Content.noConfusion
    · cases h

theorem first?_text {cs : List Char} {x : Lexeme} (h : first? cs = some x)
    (hx : x.content.IsVerbatim) : x.content.text.toList = x.raw := by
  cases cs with
  | nil => cases h
  | cons c rest =>
    simp only [first?] at h
    repeat' split at h
    · cases h; exact hx.elim
    · cases h
      change (wordContent (String.ofList _)).text.toList = _
      rw [text_wordContent, String.toList_ofList]
      rfl
    · cases h; exact hx.elim
    · cases h; exact text_operator c rest
    · cases h; simp [Token.Content.text]
    · cases h

end Lexeme

namespace Lexer

variable {l m : Lexer} {t : Token} {ts : List Token} {cs gap raw : List Char}

/-- The lexer passes over `gap`, reads the token `t` from `raw` and becomes `m`. -/
structure Step (l : Lexer) (gap raw : List Char) (t : Token) (m : Lexer) : Prop where
  split : Trivia.split .blank l.rest = (gap, raw ++ m.rest)
  content : raw = [] ∧ m.rest = [] ∧ t.content = .endOfInput ∨
    Lexeme.first? (raw ++ m.rest) = some ⟨t.content, raw, m.rest⟩
  position : t.position = (l.place.after gap).position
  span : t.span = (l.place.after gap).span m.place
  place : m.place = l.place.after (gap ++ raw)

theorem step_of_next (h : l.next = (.ok t, m)) : ∃ gap raw, l.Step gap raw t m := by
  unfold next token at h
  split at h
  · next hrest =>
    cases h
    refine ⟨(Trivia.split .blank l.rest).1, [], ?_, .inl ⟨rfl, hrest, rfl⟩, rfl, rfl, ?_⟩
    · exact Prod.ext rfl rfl
    · rw [List.append_nil]
      rfl
  · next c cs hrest =>
    split at h
    · cases h
    · next x hx =>
      cases h
      have happend := Lexeme.first?_append hx
      refine ⟨(Trivia.split .blank l.rest).1, x.raw, ?_, .inr ?_, rfl, rfl, ?_⟩
      · exact Prod.ext rfl happend.symm
      · rwa [happend]
      · exact (Place.after_append _ _ _).symm

namespace Step

theorem rest_eq (h : l.Step gap raw t m) : l.rest = gap ++ (raw ++ m.rest) := by
  have hsplit := Trivia.split_append .blank l.rest
  rw [h.split] at hsplit
  exact hsplit.symm

theorem between (h : l.Step gap raw t m) : Trivia.Between gap (raw ++ m.rest) := by
  have hbetween := Trivia.between_split l.rest
  rwa [h.split] at hbetween

theorem raw_ne_nil (h : l.Step gap raw t m) (ht : t.content ≠ .endOfInput) : raw ≠ [] := by
  rcases h.content with ⟨-, -, hend⟩ | hx
  · exact absurd hend ht
  · exact Lexeme.first?_raw_ne_nil hx

theorem at_end (h : l.Step gap raw t m) (ht : t.content = .endOfInput) : raw = [] ∧ m.rest = [] := by
  rcases h.content with ⟨hraw, hrest, -⟩ | hx
  · exact ⟨hraw, hrest⟩
  · exact absurd ht (Lexeme.first?_content_ne_end hx)

theorem layout (h : l.Step gap raw t m) (hraw : raw ≠ []) : Trivia.Layout gap (raw ++ m.rest) := by
  rcases h.between with hgap | ⟨hnil, -⟩
  · exact hgap
  · exact absurd (List.append_eq_nil_iff.mp hnil).1 hraw

theorem first? (h : l.Step gap raw t m) (hraw : raw ≠ []) :
    Lexeme.first? (raw ++ m.rest) = some ⟨t.content, raw, m.rest⟩ := by
  rcases h.content with ⟨hnil, -⟩ | hx
  · exact absurd hnil hraw
  · exact hx

theorem starts (h : l.Step gap raw t m) :
    Trivia.split .blank (raw ++ m.rest) = ([], raw ++ m.rest) := by
  have hsplit := Trivia.split_rest .blank l.rest
  rwa [h.split] at hsplit

theorem text (h : l.Step gap raw t m) (ht : t.content.IsVerbatim) : t.text.toList = raw := by
  rcases h.content with ⟨-, -, hend⟩ | hx
  · rw [hend] at ht
    exact ht.elim
  · exact Lexeme.first?_text hx ht

end Step

/-- The lexer stands behind `before` in the text. -/
def StandsAfter (before cs : List Char) (l : Lexer) : Prop :=
  cs = before ++ l.rest ∧ l.place = Place.origin.after before

theorem standsAfter_ofChars (cs : List Char) : (ofChars cs).StandsAfter [] cs := ⟨rfl, rfl⟩

namespace StandsAfter

variable {before : List Char}

theorem offset (h : l.StandsAfter before cs) : l.place.offset = before.length := by
  rw [h.2, Place.after_offset]
  exact Nat.zero_add _

theorem step (h : l.StandsAfter before cs) (hstep : l.Step gap raw t m) :
    m.StandsAfter (before ++ (gap ++ raw)) cs := by
  constructor
  · rw [h.1, hstep.rest_eq]
    simp
  · rw [hstep.place, h.2]
    simp only [Place.after_append]

theorem span (h : l.StandsAfter before cs) (hstep : l.Step gap raw t m) :
    t.span = ⟨(before ++ gap).length, (before ++ gap).length + raw.length⟩ := by
  rw [hstep.span, hstep.place, Place.span]
  simp only [Place.after_offset, h.offset, List.length_append, Nat.add_assoc]

theorem length_eq_stop (h : l.StandsAfter before cs) (hstep : l.Step gap raw t m) :
    (before ++ (gap ++ raw)).length = t.span.stop := by
  rw [h.span hstep]
  simp only [List.length_append, Nat.add_assoc]

theorem source (h : l.StandsAfter before cs) (hstep : l.Step gap raw t m) :
    cs = (before ++ gap) ++ (raw ++ m.rest) := by
  rw [h.1, hstep.rest_eq, List.append_assoc]

theorem slice_token (h : l.StandsAfter before cs) (hstep : l.Step gap raw t m) :
    t.span.slice cs = raw := by
  rw [h.span hstep, h.source hstep]
  exact Span.slice_append _ _ _

theorem standsIn (h : l.StandsAfter before cs) (hstep : l.Step gap raw t m) : t.StandsIn cs := by
  have hspan := h.span hstep
  have hcs := h.source hstep
  constructor
  · rw [hspan, hcs]
    constructor
    · exact Nat.le_add_right _ _
    · simp only [List.length_append]
      omega
  · rw [hspan, hcs, List.take_left, hstep.position, h.2, ← Place.after_append, Place.after_position]
  · intro ht
    rw [h.slice_token hstep]
    exact hstep.text ht

theorem slice_gap (h : l.StandsAfter before cs) (hstep : l.Step gap raw t m) :
    (⟨before.length, t.span.start⟩ : Span).slice cs = gap := by
  rw [h.span hstep, h.source hstep, List.length_append, List.append_assoc]
  exact Span.slice_append _ _ _

end StandsAfter

end Lexer

namespace Token

/-- From the offset `n` on, the text consists of gaps and tokens by turns. -/
inductive Tiles (cs : List Char) : Nat → List Token → Prop where
  | last {n : Nat} {t : Token} (hle : n ≤ t.span.start) (hstands : t.StandsIn cs)
      (hgap : Trivia.Between ((⟨n, t.span.start⟩ : Span).slice cs) [])
      (hend : t.content = .endOfInput) (hspan : t.span = ⟨cs.length, cs.length⟩) : Tiles cs n [t]
  | cons {n : Nat} {t : Token} {ts : List Token} (hle : n ≤ t.span.start) (hstands : t.StandsIn cs)
      (hgap : Trivia.Layout ((⟨n, t.span.start⟩ : Span).slice cs) (cs.drop t.span.start))
      (hne : t.content ≠ .endOfInput) (hlt : t.span.start < t.span.stop)
      (htail : Tiles cs t.span.stop ts) : Tiles cs n (t :: ts)

end Token

theorem Lexer.Scans.tiles {l : Lexer} {ts : List Token} (h : l.Scans ts) {before cs : List Char}
    (hl : l.StandsAfter before cs) : Token.Tiles cs before.length ts := by
  induction h generalizing before with
  | @last l m t hnext ht =>
    obtain ⟨gap, raw, hstep⟩ := step_of_next hnext
    have hend := Token.isEnd_iff.mp ht
    obtain ⟨rfl, hrest⟩ := hstep.at_end hend
    have hspan := hl.span hstep
    have hcs := hl.source hstep
    have hgap := hstep.between
    rw [hrest, List.append_nil] at hgap
    rw [hrest, List.append_nil, List.append_nil] at hcs
    rw [List.length_nil, Nat.add_zero, ← hcs] at hspan
    refine .last ?_ (hl.standsIn hstep) ?_ hend hspan
    · rw [hspan, hcs, List.length_append]
      exact Nat.le_add_right _ _
    · rwa [hl.slice_gap hstep]
  | @cons l m t ts hnext ht _ ih =>
    obtain ⟨gap, raw, hstep⟩ := step_of_next hnext
    have hne := Token.isEnd_eq_false_iff.mp ht
    have hraw := hstep.raw_ne_nil hne
    have hspan := hl.span hstep
    have htail := ih (hl.step hstep)
    rw [hl.length_eq_stop hstep] at htail
    refine .cons ?_ (hl.standsIn hstep) ?_ hne ?_ htail
    · rw [hspan, List.length_append]
      exact Nat.le_add_right _ _
    · -- something follows the gap, so no comment in it is left open
      rw [hl.slice_gap hstep, hspan, hl.source hstep, List.drop_left]
      exact hstep.layout hraw
    · rw [hspan]
      exact Nat.lt_add_of_pos_right (List.length_pos_iff.mpr hraw)

namespace Token

/-- The tokens divide the text: none is empty but the end token behind the text, each stands behind
those before it, and between them are blanks and comments. Only a last comment may be left open. -/
structure Partition (cs : List Char) (ts : List Token) : Prop where
  ends : ∃ us e, ts = us ++ [e] ∧ e.content = .endOfInput ∧ e.span = ⟨cs.length, cs.length⟩ ∧
    ∀ t ∈ us, t.content ≠ .endOfInput ∧ t.span.start < t.span.stop
  ordered : ts.Pairwise fun t u => t.span.stop ≤ u.span.start
  stands : ∀ t ∈ ts, t.StandsIn cs
  gaps : ∀ us t vs, ts = us ++ t :: vs →
    Trivia.Layout ((⟨stopAfter 0 us, t.span.start⟩ : Span).slice cs) (cs.drop t.span.start) ∨
      vs = [] ∧ Trivia.Unclosed ((⟨stopAfter 0 us, t.span.start⟩ : Span).slice cs)

namespace Tiles

variable {cs : List Char} {n : Nat} {ts : List Token}

theorem ends (h : Tiles cs n ts) : ∃ us e, ts = us ++ [e] ∧ e.content = .endOfInput ∧
    e.span = ⟨cs.length, cs.length⟩ ∧
      ∀ t ∈ us, t.content ≠ .endOfInput ∧ t.span.start < t.span.stop := by
  induction h with
  | @last n t _ _ _ hend hspan => exact ⟨[], t, rfl, hend, hspan, by simp⟩
  | @cons n t ts _ _ _ hne hlt _ ih =>
    obtain ⟨us, e, rfl, hend, hspan, hus⟩ := ih
    exact ⟨t :: us, e, rfl, hend, hspan, List.forall_mem_cons.mpr ⟨⟨hne, hlt⟩, hus⟩⟩

theorem le_start (h : Tiles cs n ts) : ∀ t ∈ ts, n ≤ t.span.start := by
  induction h with
  | last hle => simpa using hle
  | cons hle _ _ _ hlt _ ih =>
    refine List.forall_mem_cons.mpr ⟨hle, fun t ht => ?_⟩
    exact Nat.le_trans (Nat.le_trans hle (Nat.le_of_lt hlt)) (ih t ht)

theorem ordered (h : Tiles cs n ts) : ts.Pairwise fun t u => t.span.stop ≤ u.span.start := by
  induction h with
  | last => exact List.pairwise_singleton _ _
  | cons _ _ _ _ _ htail ih => exact List.pairwise_cons.mpr ⟨htail.le_start, ih⟩

theorem stands (h : Tiles cs n ts) : ∀ t ∈ ts, t.StandsIn cs := by
  induction h with
  | last _ hstands => simpa using hstands
  | cons _ hstands _ _ _ _ ih => exact List.forall_mem_cons.mpr ⟨hstands, ih⟩

theorem gaps (h : Tiles cs n ts) : ∀ us t vs, ts = us ++ t :: vs →
    Trivia.Layout ((⟨stopAfter n us, t.span.start⟩ : Span).slice cs) (cs.drop t.span.start) ∨
      vs = [] ∧ Trivia.Unclosed ((⟨stopAfter n us, t.span.start⟩ : Span).slice cs) := by
  induction h with
  | @last n t _ _ hgap _ hspan =>
    intro us u vs hts
    obtain ⟨rfl, rfl, rfl⟩ : us = [] ∧ u = t ∧ vs = [] := by
      cases us with
      | nil => simpa [eq_comm] using hts
      | cons => simp at hts
    have hdrop : cs.drop u.span.start = [] := by rw [hspan, List.drop_length]
    rw [hdrop]
    exact hgap.imp id fun hopen => ⟨rfl, hopen.2⟩
  | @cons n t ts _ _ hgap _ _ _ ih =>
    intro us u vs hts
    cases us with
    | nil =>
      obtain ⟨rfl, rfl⟩ := List.cons.inj hts
      exact .inl hgap
    | cons v us =>
      obtain ⟨rfl, htail⟩ := List.cons.inj hts
      exact ih us u vs htail

theorem partition (h : Tiles cs 0 ts) : Partition cs ts := ⟨h.ends, h.ordered, h.stands, h.gaps⟩

end Tiles

end Token

namespace Lexer

/-- A scan that succeeds divides the source into tokens and what stands between them. -/
theorem scanAll_partition {source : String} {ts : List Token}
    (h : (ofSource source).scanAll.1 = .ok ts) : Token.Partition source.toList ts :=
  (scans_of_scanAll h).tiles (standsAfter_ofChars source.toList) |>.partition

/-- A line comment, a newline inside quotes and a block comment that is left open. -/
theorem scanAll_partition_open_comment :
    (ofSource "a // b\n= 'c\n' /* d").scanAll.1.toOption = some
      [⟨.identifier "a", ⟨1, 1⟩, ⟨0, 1⟩⟩, ⟨.operator "=", ⟨2, 1⟩, ⟨7, 8⟩⟩,
        ⟨.string "c\n", ⟨2, 3⟩, ⟨9, 13⟩⟩, ⟨.endOfInput, ⟨3, 7⟩, ⟨18, 18⟩⟩] ∧
    Token.Partition "a // b\n= 'c\n' /* d".toList
      [⟨.identifier "a", ⟨1, 1⟩, ⟨0, 1⟩⟩, ⟨.operator "=", ⟨2, 1⟩, ⟨7, 8⟩⟩,
        ⟨.string "c\n", ⟨2, 3⟩, ⟨9, 13⟩⟩, ⟨.endOfInput, ⟨3, 7⟩, ⟨18, 18⟩⟩] := by
  have hscan : (ofSource "a // b\n= 'c\n' /* d").scanAll.1.toOption = some
      [⟨.identifier "a", ⟨1, 1⟩, ⟨0, 1⟩⟩, ⟨.operator "=", ⟨2, 1⟩, ⟨7, 8⟩⟩,
        ⟨.string "c\n", ⟨2, 3⟩, ⟨9, 13⟩⟩, ⟨.endOfInput, ⟨3, 7⟩, ⟨18, 18⟩⟩] := by decide +kernel
  exact ⟨hscan, scanAll_partition (eq_ok_of_toOption hscan)⟩

end Lexer

end Dvilipi
