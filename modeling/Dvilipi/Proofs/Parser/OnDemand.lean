import Dvilipi.Proofs.Parser.Join
import Dvilipi.Proofs.Parser.Located
import Dvilipi.Proofs.Parser.Locality

/-!
A parser asks for tokens while it goes. Where the source can be scanned as a whole, it does what it
does on the finished list of tokens; where it cannot, the parser fails with the lexical error or with a
complaint about a token in front of it.
-/

namespace Dvilipi
set_option autoImplicit false

/-- The program that a finished list of tokens holds. -/
def Program.ofTokens (l : TokenList) : Except ParseError Program := do
  let p ← Parser.ofSource l
  p.parseProgram.1

theorem Lexer.StandsAfter.error_start {l m : Lexer} {before cs : List Char} {e : LexError}
    (hl : l.StandsAfter before cs) (h : l.next = (.error e, m)) :
    before.length ≤ e.span.start := by
  unfold next token at h
  split at h
  · cases h
  · split at h
    · cases h
      change before.length ≤ l.skipTrivia.place.offset
      rw [skipTrivia, Place.after_offset, hl.offset]
      exact Nat.le_add_right _ _
    · cases h

theorem Lexer.StandsAfter.scanAll_error_start {l : Lexer} {before cs : List Char} {e : LexError}
    (hl : l.StandsAfter before cs) (h : l.scanAll.1 = .error e) : before.length ≤ e.span.start := by
  induction l using scanAll.induct generalizing before with
  | case1 l d m hnext =>
    rw [scanAll_error hnext] at h
    cases h
    exact hl.error_start hnext
  | case2 l t m hnext ht =>
    rw [scanAll_end hnext ht] at h
    cases h
  | case3 l t m hnext ht _ ih =>
    obtain ⟨gap, raw, hstep⟩ := step_of_next hnext
    rw [scanAll_cons hnext (by simpa using ht)] at h
    have hm : m.scanAll.1 = .error e := by
      cases hs : m.scanAll.1 with
      | error d =>
        rw [hs] at h
        exact h
      | ok us =>
        rw [hs] at h
        cases h
    have hle := ih (hl.step hstep) hm
    rw [List.length_append] at hle
    omega

namespace Parser

section OnLexer

variable {l : Lexer} {p q : Parser Lexer} {ts us : List Token}

theorem next_of_advance {t : Token} (h : advance p = .ok t q) :
    p.source.next = (.ok q.current, q.source) := by
  unfold advance at h
  split at h
  · next hnext =>
    cases h
    exact hnext
  · cases h

theorem next_of_ofSource (h : ofSource l = .ok p) : l.next = (.ok p.current, p.source) := by
  unfold ofSource at h
  split at h
  · next hnext =>
    cases h
    exact hnext
  · cases h

theorem previousStop_of_ofSource (h : ofSource l = .ok p) : p.previousStop = 0 := by
  unfold ofSource at h
  split at h
  · cases h
    rfl
  · cases h

theorem Consumed.gives (h : Consumed p ts q) (hl : l.next = (.ok p.current, p.source)) :
    ∃ m, l.Gives ts m ∧ m.next = (.ok q.current, q.source) := by
  induction h generalizing l with
  | nil => exact ⟨l, .nil l, hl⟩
  | cons hend hstep _ ih =>
    obtain ⟨m, hm, hnext⟩ := ih (next_of_advance hstep)
    exact ⟨m, .cons hl (Token.isEnd_eq_false_iff.mpr hend) hm, hnext⟩

theorem Consumed.of_scans (h : Consumed p ts q) (hl : l.next = (.ok p.current, p.source))
    (hs : l.Scans us) : ts ++ [q.current] <+: us ∧
      (q.current.content ≠ .endOfInput → ∀ e r, advance q ≠ .failed e r) := by
  obtain ⟨m, hgives, hnext⟩ := h.gives hl
  obtain ⟨vs, rfl, hvs⟩ := hgives.scans hs
  obtain ⟨ws, rfl, hws⟩ := hvs.uncons hnext
  refine ⟨⟨ws, by simp⟩, fun hend e r hr => ?_⟩
  have hrest := hws (Token.isEnd_eq_false_iff.mpr hend)
  unfold advance at hr
  split at hr
  · cases hr
  · next d k hfails =>
    have hfails' : q.source.next = (.error d, k) := hfails
    cases hrest with
    | last hok =>
      rw [hfails'] at hok
      cases hok
    | cons hok =>
      rw [hfails'] at hok
      cases hok

end OnLexer

def ahead (p : Parser TokenList) : List Token :=
  p.current :: (p.source.tokens ++ [p.source.last])

theorem ofSource_tokens (l : TokenList) : ∃ p : Parser TokenList, ofSource l = .ok p ∧
    p.previousStop = 0 ∧ l.tokens ++ [l.last] <+: p.ahead := by
  obtain ⟨tokens, last, hlast⟩ := l
  cases tokens with
  | nil => exact ⟨⟨⟨[], last, hlast⟩, last, 0⟩, rfl, rfl, [last], rfl⟩
  | cons t ts => exact ⟨⟨⟨ts, last, hlast⟩, t, 0⟩, rfl, rfl, List.prefix_rfl⟩

theorem advance_tokens (p : Parser TokenList) :
    ∃ q, advance p = .ok p.current q ∧ p.source.tokens ++ [p.source.last] <+: q.ahead := by
  obtain ⟨⟨tokens, last, hlast⟩, current, stop⟩ := p
  cases tokens with
  | nil => exact ⟨⟨⟨[], last, hlast⟩, last, _⟩, rfl, [last], rfl⟩
  | cons t ts => exact ⟨⟨⟨ts, last, hlast⟩, t, _⟩, rfl, List.prefix_rfl⟩

theorem consumed_of_prefix {ts : List Token} {t : Token} (hts : ∀ u ∈ ts, u.content ≠ .endOfInput)
    {p : Parser TokenList} (h : ts ++ [t] <+: p.ahead) :
    ∃ q, Consumed p ts q ∧ q.current = t := by
  induction ts generalizing p with
  | nil => exact ⟨p, .nil p, (List.cons_prefix_cons.mp h).1.symm⟩
  | cons u ts ih =>
    obtain ⟨rfl, htail⟩ := List.cons_prefix_cons.mp h
    obtain ⟨hend, hts⟩ := List.forall_mem_cons.mp hts
    obtain ⟨q, hstep, hq⟩ := advance_tokens p
    obtain ⟨r, hr, ht⟩ := ih hts (htail.trans hq)
    exact ⟨r, .cons hend hstep hr, ht⟩

/-- A parser on the finished list goes alongside one on the lexer, from the first token on. -/
theorem Consumed.alongside {l : Lexer} {us : TokenList} {p q : Parser Lexer} {ts : List Token}
    (h : Consumed p ts q) (hl : ofSource l = .ok p) (hs : l.Scans (us.tokens ++ [us.last]))
    {p' : Parser TokenList} (hp' : ofSource us = .ok p') : ∃ q', Alongside p ts q p' q' := by
  obtain ⟨p'', hp'', hstop, hahead⟩ := ofSource_tokens us
  rw [hp'] at hp''
  cases hp''
  have hfront := (h.of_scans (next_of_ofSource hl) hs).1
  obtain ⟨q', hq', hcurrent⟩ := consumed_of_prefix h.ne_end (hfront.trans hahead)
  exact ⟨q', hq', hcurrent, hstop.trans (previousStop_of_ofSource hl).symm⟩

theorem repeats_on_list (p : Parser Lexer) :
    Repeats (fun n => (program n : Production TokenList Program)) p (program p.budget p) :=
  repeats_program p.budget id p

end Parser

namespace Program

variable {source : String} {p : Parser Lexer}

theorem ofSource_eq_ofTokens {us : TokenList}
    (hs : (Lexer.ofSource source).Scans (us.tokens ++ [us.last])) :
    ofSource source = ofTokens us := by
  obtain ⟨p', hp', -⟩ := Parser.ofSource_tokens us
  obtain ⟨t, m, hnext, -⟩ := Parser.took_of_scans hs
  have hp : Parser.ofSource (Lexer.ofSource source) = .ok ⟨m, t, 0⟩ := by
    rw [Parser.ofSource, show TokenSource.next (Lexer.ofSource source) = (.ok t, m) from hnext]
  generalize (⟨m, t, 0⟩ : Parser Lexer) = p at hp
  rw [ofSource, ofTokens, hp, hp']
  change p.parseProgram.1 = p'.parseProgram.1
  have hrepeats := Parser.repeats_on_list p
  have hends := p'.program_ne_exhausted
  cases hr : Parser.program p.budget p with
  | ok a q =>
    rw [hr] at hrepeats
    obtain ⟨ts, hts, hall⟩ := hrepeats
    obtain ⟨q', halong⟩ := hts.alongside hp hs hp'
    have hp₁ : p.parseProgram = (.ok a, q) := (Reply.settled_eq_ok p.program_ne_exhausted).mpr hr
    have hp₂ : p'.parseProgram = (.ok a, q') := (Reply.settled_eq_ok hends).mpr (hall halong _ hends)
    rw [hp₁, hp₂]
  | failed e q =>
    rw [hr] at hrepeats
    cases e with
    | grammatical x =>
      obtain ⟨ts, us, m, hts, hus, -, -, hall⟩ := hrepeats
      obtain ⟨q', halong⟩ := (hts.trans hus).alongside hp hs hp'
      have hp₁ : p.parseProgram = (.error (.grammatical x), q) :=
        (Reply.settled_eq_error p.program_ne_exhausted).mpr hr
      have hp₂ : p'.parseProgram = (.error (.grammatical x), q') :=
        (Reply.settled_eq_error hends).mpr (hall halong _ hends)
      rw [hp₁, hp₂]
    | lexical e =>
      obtain ⟨ts, m, hts, hend, hstuck, -⟩ := hrepeats
      exact absurd hstuck ((hts.of_scans (Parser.next_of_ofSource hp) hs).2 hend _ q)
  | exhausted => exact absurd hr p.program_ne_exhausted

theorem parser_of_grammatical {x : SyntaxError} (h : ofSource source = .error (.grammatical x)) :
    ∃ p q, Parser.ofSource (Lexer.ofSource source) = .ok p ∧
      Parser.program p.budget p = .failed (.grammatical x) q := by
  cases hp : Parser.ofSource (Lexer.ofSource source) with
  | error e =>
    rw [ofSource, hp] at h
    cases h
    unfold Parser.ofSource at hp
    split at hp <;> cases hp
  | ok p =>
    obtain ⟨q, hq⟩ := ofSource_eq_error hp h
    exact ⟨p, q, rfl, hq⟩

/-- The token that a program is rejected for is one that the lexer gives. -/
theorem gives_of_ofSource {x : SyntaxError} (h : ofSource source = .error (.grammatical x)) :
    ∃ p ts m k, Parser.ofSource (Lexer.ofSource source) = .ok p ∧ Parser.Consumed p ts m ∧
      m.current = x.found ∧ (Lexer.ofSource source).Gives ts k ∧
      k.next = (.ok x.found, m.source) := by
  obtain ⟨p, q, hp, hq⟩ := parser_of_grammatical h
  have hrepeats := Parser.repeats_on_list p
  rw [hq] at hrepeats
  obtain ⟨ts, us, m, hts, -, hfound, -⟩ := hrepeats
  obtain ⟨k, hgives, hnext⟩ := hts.gives (Parser.next_of_ofSource hp)
  rw [hfound] at hnext
  exact ⟨p, ts, m, k, hp, hts, hfound, hgives, hnext⟩

theorem scanAll_of_ofSource {e : LexError} (h : ofSource source = .error (.lexical e)) :
    (Lexer.ofSource source).scanAll.1 = .error e := by
  cases hp : Parser.ofSource (Lexer.ofSource source) with
  | error d =>
    rw [ofSource, hp] at h
    cases h
    unfold Parser.ofSource at hp
    split at hp
    · cases hp
    · next hnext =>
      cases hp
      rw [Lexer.scanAll_error hnext]
  | ok p =>
    obtain ⟨q, hq⟩ := ofSource_eq_error hp h
    have hrepeats := Parser.repeats_on_list p
    rw [hq] at hrepeats
    obtain ⟨ts, m, hts, hend, hstuck, -⟩ := hrepeats
    obtain ⟨k, hgives, hnext⟩ := hts.gives (Parser.next_of_ofSource hp)
    have hgives' := hgives.snoc hnext (Token.isEnd_eq_false_iff.mpr hend)
    unfold Parser.advance at hstuck
    split at hstuck
    · cases hstuck
    · next hfails =>
      cases hstuck
      exact hgives'.scanAll_error hfails

theorem scanAll_of_ofSource_ok {a : Program} (h : ofSource source = .ok a) :
    ∃ ts, (Lexer.ofSource source).scanAll.1 = .ok ts := by
  obtain ⟨d, hsays, -⟩ := says_of_ofSource h
  obtain ⟨ts, hts, -⟩ := hsays
  exact ⟨ts, hts.scanAll⟩

theorem found_mem {x : SyntaxError} (h : ofSource source = .error (.grammatical x))
    {ts : List Token} (hs : (Lexer.ofSource source).Scans ts) : x.found ∈ ts := by
  obtain ⟨p, us, m, k, -, -, -, hgives, hnext⟩ := gives_of_ofSource h
  obtain ⟨vs, rfl, hrest⟩ := hgives.scans hs
  obtain ⟨ws, rfl, -⟩ := hrest.uncons hnext
  exact List.mem_append_right us List.mem_cons_self

theorem found_before {x : SyntaxError} (h : ofSource source = .error (.grammatical x))
    {e : LexError} (he : (Lexer.ofSource source).scanAll.1 = .error e) : ∃ ts m,
      (Lexer.ofSource source).Gives (ts ++ [x.found]) m ∧ x.found.span.stop ≤ e.span.start := by
  obtain ⟨p, ts, m, k, hp, hts, hfound, hgives, hnext⟩ := gives_of_ofSource h
  have hne : x.found.isEnd = false := by
    cases hx : x.found.isEnd with
    | false => rfl
    | true =>
      rw [hgives.scanAll_end hnext hx] at he
      cases he
  have hall := hgives.snoc hnext hne
  obtain ⟨before, hstands, hlength⟩ := ((inText_of_ofSource hp).consumed hts).1.source
  refine ⟨ts, m.source, hall, ?_⟩
  rw [← hfound, ← hlength]
  exact hstands.scanAll_error_start (hall.scanAll_rest he)

/-- Reading tokens on demand is reading them all before. If the scan of a source succeeds, its program
is that of the finished list, and a token of the list is the only thing that may be rejected. If the
scan fails, so does the parse, with the same error or for a token that the lexer gives in front of it. -/
theorem ofSource_on_demand (source : String) :
    (∀ ts, (Lexer.ofSource source).scanAll.1 = .ok ts →
      ∃ us : TokenList, us.tokens ++ [us.last] = ts ∧ ofSource source = ofTokens us ∧
        ∀ e, ofSource source = .error e → ∃ x, e = .grammatical x ∧ x.found ∈ ts) ∧
    ∀ e, (Lexer.ofSource source).scanAll.1 = .error e →
      ofSource source = .error (.lexical e) ∨
      ∃ x ts m, ofSource source = .error (.grammatical x) ∧
        (Lexer.ofSource source).Gives (ts ++ [x.found]) m ∧ x.found.span.stop ≤ e.span.start := by
  constructor
  · intro ts hts
    have hscans := Lexer.scans_of_scanAll hts
    obtain ⟨us, last, rfl, hlast⟩ := hscans.ends
    refine ⟨⟨us, last, hlast⟩, rfl, ofSource_eq_ofTokens hscans, fun e he => ?_⟩
    cases e with
    | lexical e =>
      rw [scanAll_of_ofSource he] at hts
      cases hts
    | grammatical x => exact ⟨x, rfl, found_mem he hscans⟩
  · intro e he
    cases h : ofSource source with
    | ok a =>
      obtain ⟨ts, hts⟩ := scanAll_of_ofSource_ok h
      rw [he] at hts
      cases hts
    | error d =>
      cases d with
      | lexical d =>
        have hd := scanAll_of_ofSource h
        rw [he] at hd
        cases hd
        exact .inl rfl
      | grammatical x =>
        obtain ⟨ts, m, hgives, hstop⟩ := found_before h he
        exact .inr ⟨x, ts, m, rfl, hgives, hstop⟩

/-- A complaint about a `=` is raised before the lexer comes to a character that starts no token. -/
theorem ofSource_on_demand_late : ∃ e x ts m, (Lexer.ofSource "'a' = b; @").scanAll.1 = .error e ∧
    ofSource "'a' = b; @" = .error (.grammatical x) ∧
    (Lexer.ofSource "'a' = b; @").Gives (ts ++ [x.found]) m ∧ x.found.span.stop ≤ e.span.start := by
  have hscan : (Lexer.ofSource "'a' = b; @").scanAll.1.toOption = none := by decide +kernel
  have hparse : (match ofSource "'a' = b; @" with
    | .error (.grammatical _) => true
    | _ => false) = true := by decide +kernel
  cases he : (Lexer.ofSource "'a' = b; @").scanAll.1 with
  | ok ts =>
    rw [he] at hscan
    cases hscan
  | error e =>
    rcases (ofSource_on_demand "'a' = b; @").2 e he with hlexical | ⟨x, ts, m, hx, hgives, hle⟩
    · rw [hlexical] at hparse
      cases hparse
    · exact ⟨e, x, ts, m, rfl, hx, hgives, hle⟩

end Program
end Dvilipi
