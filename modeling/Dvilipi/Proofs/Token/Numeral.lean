import Dvilipi.Proofs.Number.Numerals
import Dvilipi.Proofs.Token.Cursor
import Dvilipi.Proofs.Token.Form
import Dvilipi.Proofs.Value.Display

/-!
Numerals in a source. Wherever a lexer is in its source, and whatever it is asked, a number that it gives
is read from a whole run of digits and points; it is the number closest to what the run denotes with its
digits brought to one script, and the one that arithmetic takes this text for.
-/

namespace Dvilipi
set_option autoImplicit false

open Binary64 (isNaN isNegative RoundsTo)

/-- The span covers digits and points, from a digit up to the first character that is neither. -/
structure Span.CoversRun (s : Span) (cs : List Char) : Prop where
  nonempty : s.start < s.stop
  first : ∃ c, cs[s.start]? = some c ∧ Text.isDigit c = true
  inside : ∀ i, s.start ≤ i → i < s.stop → ∃ c, cs[i]? = some c ∧ (Text.isDigit c = true ∨ c = '.')
  behind : ∀ c, cs[s.stop]? = some c → Text.isDigit c = false ∧ c ≠ '.'

theorem Text.isAsciiDigit_of_isLatinDigit {c : Char} (h : isLatinDigit c = true) :
    Decimal.isAsciiDigit c = true := by
  obtain ⟨v, hv⟩ := Option.isSome_iff_exists.mp h
  obtain ⟨hle, hlt, -⟩ := Script.digitValue?_eq_some_iff.mp hv
  exact Decimal.isAsciiDigit_iff.mpr ⟨hle, hlt⟩

theorem Text.isAsciiDigit_latinDigit {c : Char} (h : isDigit c = true) :
    Decimal.isAsciiDigit (latinDigit c) = true :=
  isAsciiDigit_of_isLatinDigit (isLatinDigit_latinDigit h)

namespace Lexeme

variable {a : Char} {as raw rest : List Char} {ahead : Option Char} {x : Float}

theorem continuesNumber_iff {c : Char} :
    continuesNumber c = true ↔ Text.isDigit c = true ∨ c = '.' := by
  simp [continuesNumber]

theorem latinDigit_eq_point {c : Char} (h : continuesNumber c = true) :
    Text.latinDigit c = '.' ↔ c = '.' := by
  rcases continuesNumber_iff.mp h with hdigit | rfl
  · refine iff_of_false ?_ ?_
    · intro hpoint
      have hlatin := Text.isAsciiDigit_latinDigit hdigit
      rw [hpoint] at hlatin
      exact absurd hlatin (by decide)
    · rintro rfl
      exact absurd hdigit (by decide)
  · exact iff_of_true (by decide) rfl

theorem count_latinDigit (h : ∀ c ∈ raw, continuesNumber c = true) :
    (raw.map Text.latinDigit).count '.' = raw.count '.' := by
  induction raw with
  | nil => rfl
  | cons c raw ih =>
    obtain ⟨hc, hraw⟩ := List.forall_mem_cons.mp h
    simp only [List.map_cons, List.count_cons, ih hraw, beq_iff_eq, latinDigit_eq_point hc]

theorem isNumeral_latinDigit (ha : Text.isDigit a = true)
    (has : ∀ c ∈ as, continuesNumber c = true) :
    Decimal.IsNumeral ((a :: as).map Text.latinDigit) := by
  refine ⟨⟨_, _, rfl, Text.isAsciiDigit_latinDigit ha⟩, fun d hd => ?_⟩
  obtain ⟨c, hc, rfl⟩ := List.mem_map.mp hd
  rcases List.mem_cons.mp hc with rfl | hc
  · exact .inl (Text.isAsciiDigit_latinDigit ha)
  · rcases continuesNumber_iff.mp (has c hc) with hdigit | rfl
    · exact .inl (Text.isAsciiDigit_latinDigit hdigit)
    · exact .inr (by decide)

theorem Form.read_latinDigit (h : Form raw (.number x) ahead) :
    Decimal.IsNumeral (raw.map Text.latinDigit) ∧ Decimal.read (raw.map Text.latinDigit) = x ∧
      (raw.map Text.latinDigit).count '.' = raw.count '.' := by
  obtain ⟨⟨a, as, rfl, ha, has⟩, -, hvalue⟩ := h.of_number
  have hall : ∀ c ∈ a :: as, continuesNumber c = true :=
    List.forall_mem_cons.mpr ⟨continuesNumber_iff.mpr (.inl ha), has⟩
  exact ⟨isNumeral_latinDigit ha has, hvalue.symm, count_latinDigit hall⟩

theorem Form.coversRun (h : Form raw (.number x) rest.head?) (before : List Char) :
    (⟨before.length, before.length + raw.length⟩ : Span).CoversRun (before ++ (raw ++ rest)) := by
  obtain ⟨⟨a, as, rfl, ha, has⟩, hahead, -⟩ := h.of_number
  have hall : ∀ c ∈ a :: as, Text.isDigit c = true ∨ c = '.' :=
    List.forall_mem_cons.mpr ⟨.inl ha, fun c hc => continuesNumber_iff.mp (has c hc)⟩
  constructor
  · simp
  · exact ⟨a, by simp, ha⟩
  · intro i hstart hstop
    dsimp only at hstart hstop
    have hlt : i - before.length < (a :: as).length := by omega
    refine ⟨(a :: as)[i - before.length], ?_, hall _ (List.getElem_mem hlt)⟩
    rw [List.getElem?_append_right hstart, List.getElem?_append_left hlt, List.getElem?_eq_getElem hlt]
  · intro c hc
    dsimp only at hc
    rw [List.getElem?_append_right (Nat.le_add_right _ _), Nat.add_sub_cancel_left,
      List.getElem?_append_right (Nat.le_refl _), Nat.sub_self, ← List.head?_eq_getElem?] at hc
    have hstops := mt continuesNumber_iff.mpr (Bool.eq_false_iff.mp (hahead c hc))
    exact ⟨Bool.eq_false_iff.mpr fun hdigit => hstops (.inl hdigit), fun hpoint => hstops (.inr hpoint)⟩

end Lexeme

namespace Lexer

variable {l m : Lexer} {t : Token} {ts : List Token} {cs before : List Char}

def Answer.Holds (t : Token) : Answer → Prop
  | .entry reply => reply = .ok t
  | .entries reply => ∃ ts, reply = .ok ts ∧ t ∈ ts
  | .done => False

/-- The lexer stands somewhere in its source. -/
structure InSource (cs : List Char) (l : Lexer) : Prop where
  source : l.source = cs
  stands : ∃ before, l.StandsAfter before cs

theorem inSource_ofChars (cs : List Char) : (ofChars cs).InSource cs :=
  ⟨rfl, [], standsAfter_ofChars cs⟩

theorem StandsAfter.skipTrivia (h : l.StandsAfter before cs) :
    l.skipTrivia.StandsAfter (before ++ (Trivia.split .blank l.rest).1) cs := by
  constructor
  · rw [h.1, List.append_assoc]
    exact congrArg (before ++ ·) (Trivia.split_append .blank l.rest).symm
  · rw [Place.after_append, ← h.2]
    rfl

namespace InSource

theorem next (h : l.InSource cs) : l.next.2.InSource cs := by
  obtain ⟨hsource, before, hl⟩ := h
  refine ⟨l.next_source.trans hsource, ?_⟩
  cases hnext : l.next with
  | mk r m =>
    cases r with
    | error e =>
      -- the trivia in front of the character stay skipped
      obtain rfl := token_error hnext
      exact ⟨_, hl.skipTrivia⟩
    | ok t =>
      obtain ⟨gap, raw, hstep⟩ := step_of_next hnext
      exact ⟨_, hl.step hstep⟩

theorem of_next {r : Except LexError Token} (h : l.InSource cs) (hnext : l.next = (r, m)) :
    m.InSource cs := by
  have hm := h.next
  rwa [hnext] at hm

theorem scanAll (h : l.InSource cs) : l.scanAll.2.InSource cs := by
  induction l using scanAll.induct with
  | case1 l e m hnext =>
    rw [scanAll_error hnext]
    exact h.of_next hnext
  | case2 l t m hnext ht =>
    rw [scanAll_end hnext ht]
    exact h.of_next hnext
  | case3 l t m hnext ht _ ih =>
    rw [scanAll_cons hnext (by simpa using ht)]
    exact ih (h.of_next hnext)

theorem perform (h : l.InSource cs) (call : Call) : (l.perform call).2.InSource cs := by
  cases call with
  | next => exact h.next
  | scanAll => exact h.scanAll
  | reset =>
    change (ofChars l.source).InSource cs
    rw [h.source]
    exact inSource_ofChars cs

theorem of_scans (h : l.InSource cs) (hts : l.Scans ts) (ht : t ∈ ts) :
    ∃ k m, InSource cs k ∧ k.next = (.ok t, m) := by
  induction hts with
  | @last l m u hnext _ =>
    obtain rfl := List.mem_singleton.mp ht
    exact ⟨l, m, h, hnext⟩
  | @cons l m u ts hnext _ _ ih =>
    rcases List.mem_cons.mp ht with rfl | ht
    · exact ⟨l, m, h, hnext⟩
    · exact ih (h.of_next hnext) ht

theorem of_holds {call : Call} (h : l.InSource cs) (ht : (l.perform call).1.Holds t) :
    ∃ k m, InSource cs k ∧ k.next = (.ok t, m) := by
  cases call with
  | next => exact ⟨l, l.next.2, h, Prod.ext ht rfl⟩
  | scanAll =>
    obtain ⟨ts, hts, hmem⟩ := ht
    exact h.of_scans (scans_of_scanAll hts) hmem
  | reset => exact ht.elim

/-- Whatever a lexer is asked, a token that it gives is the next one somewhere in the source. -/
theorem of_answers {calls : List Call} {answer : Answer} (h : l.InSource cs)
    (hanswer : answer ∈ answers Lexer.perform l calls) (ht : answer.Holds t) :
    ∃ k m, InSource cs k ∧ k.next = (.ok t, m) := by
  induction calls generalizing l with
  | nil => cases hanswer
  | cons call calls ih =>
    rcases List.mem_cons.mp hanswer with rfl | hanswer
    · exact h.of_holds ht
    · exact ih (h.perform call) hanswer

theorem exists_form (h : l.InSource cs) (hnext : l.next = (.ok t, m))
    (ht : t.content ≠ .endOfInput) : ∃ before raw rest, cs = before ++ (raw ++ rest) ∧
      t.span = ⟨before.length, before.length + raw.length⟩ ∧
        Lexeme.Form raw t.content rest.head? := by
  obtain ⟨before, hl⟩ := h.stands
  obtain ⟨gap, raw, hstep⟩ := step_of_next hnext
  exact ⟨before ++ gap, raw, m.rest, hl.source hstep, hl.span hstep,
    hstep.form (hstep.raw_ne_nil ht)⟩

end InSource

/-- Every number that a lexer gives, in whatever order it is asked, is read whole: its span covers all
digits and points from its first digit on. With two points it is not-a-number, and else the number without
a sign closest to what the run denotes; the run with its digits in one script is a text that arithmetic
takes for the same number. -/
theorem number_of_answers {source : String} {calls : List Call} {answer : Answer} {t : Token}
    {x : Float} (hanswer : answer ∈ answers Lexer.perform (ofSource source) calls)
    (ht : answer.Holds t) (hx : t.content = .number x) :
    let raw := t.span.slice source.toList
    let text := raw.map Text.latinDigit
    t.span.CoversRun source.toList ∧
      (isNaN x = true ↔ 2 ≤ raw.count '.') ∧
      (raw.count '.' < 2 → ∀ y, isNegative y = false ∧ RoundsTo (Decimal.denoted text) y ↔ y = x) ∧
      Value.toNumber (.string (String.ofList text)) = x := by
  intro raw text
  obtain ⟨k, m, hk, hnext⟩ := (inSource_ofChars source.toList).of_answers hanswer ht
  obtain ⟨before, run, rest, hcs, hspan, hform⟩ := hk.exists_form hnext (by rw [hx]; nofun)
  rw [hx] at hform
  have hraw : raw = run := by
    change t.span.slice source.toList = run
    rw [hspan, hcs]
    exact Span.slice_append _ _ _
  obtain ⟨hnumeral, hread, hcount⟩ := hform.read_latinDigit
  rw [← hraw] at hnumeral hread hcount
  rw [← hread, ← hcount]
  refine ⟨?_, Decimal.isNaN_read_iff hnumeral, Decimal.roundsTo_iff_eq_read hnumeral,
    Value.toNumber_of_isNumeral hnumeral⟩
  rw [hspan, hcs]
  exact hform.coversRun before

/-- Digits of both scripts around a point, and a run with two points in the scan of the rest. -/
theorem number_of_answers_mixed :
    let l := ofSource "१.५0+1.२.३"
    let asked := answers Lexer.perform l [.next, .scanAll]
    let number : Token := ⟨.number 1.5, ⟨1, 1⟩, ⟨0, 4⟩⟩
    let malformed : Token := ⟨.number Binary64.nan, ⟨1, 6⟩, ⟨5, 10⟩⟩
    (∃ answer ∈ asked, answer.Holds number) ∧
      number.span.CoversRun "१.५0+1.२.३".toList ∧
      (∀ y, isNegative y = false ∧ RoundsTo (Decimal.denoted "1.50".toList) y ↔ y = 1.5) ∧
      Value.toNumber (.string "1.50") = 1.5 ∧
      (∃ answer ∈ asked, answer.Holds malformed) ∧
      malformed.span.CoversRun "१.५0+1.२.३".toList ∧
      (isNaN Binary64.nan = true ↔ 2 ≤ "1.२.३".toList.count '.') := by
  intro l asked number malformed
  have hnext : l.next.1 = .ok number := eq_ok_of_toOption (by decide +kernel)
  have hscan : l.next.2.scanAll.1 = .ok [⟨.operator "+", ⟨1, 5⟩, ⟨4, 5⟩⟩, malformed,
      ⟨.endOfInput, ⟨1, 11⟩, ⟨10, 10⟩⟩] := eq_ok_of_toOption (by decide +kernel)
  have hfirst : Answer.entry l.next.1 ∈ asked := List.mem_cons_self
  have hrest : Answer.entries l.next.2.scanAll.1 ∈ asked := List.mem_cons_of_mem _ List.mem_cons_self
  have hmalformed : (Answer.entries l.next.2.scanAll.1).Holds malformed := ⟨_, hscan, by simp⟩
  have hlatin : (number.span.slice "१.५0+1.२.३".toList).map Text.latinDigit = "1.50".toList := by
    decide +kernel
  have hslice : malformed.span.slice "१.५0+1.२.३".toList = "1.२.३".toList := by decide +kernel
  obtain ⟨hrun, -, hrounds, htext⟩ := number_of_answers hfirst hnext rfl
  rw [hlatin] at hrounds htext
  obtain ⟨hrun', hnan, -, -⟩ := number_of_answers hrest hmalformed rfl
  rw [hslice] at hnan
  exact ⟨⟨_, hfirst, hnext⟩, hrun, hrounds (by decide +kernel), htext, ⟨_, hrest, hmalformed⟩, hrun', hnan⟩

end Lexer
end Dvilipi
