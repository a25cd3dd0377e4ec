import Dvilipi.Proofs.Grammar.Unambiguous
import Dvilipi.Proofs.Parser.Completeness
import Dvilipi.Proofs.Parser.Soundness
import Dvilipi.Proofs.Token.Scan

/-!
The language of the parser. A parser on a source asks for tokens while it goes; where the whole source
has tokens, it takes exactly these, and it has a program for them if and only if the grammar has.
-/

namespace Dvilipi
set_option autoImplicit false

namespace Parser

theorem took_of_scans {l : Lexer} {ts : List Token} (h : l.Scans ts) :
    ∃ t m, l.next = (.ok t, m) ∧
      ∀ n, ∃ q, Took ⟨m, t, n⟩ (Token.contents ts) q ∧ q.current.content = .endOfInput := by
  induction h with
  | @last l m t hnext ht =>
    refine ⟨t, m, hnext, fun n => ⟨⟨m, t, n⟩, ?_, Token.isEnd_iff.mp ht⟩⟩
    rw [Token.contents_cons_end ht]
    exact .nil _
  | @cons l m t ts hnext ht _ ih =>
    obtain ⟨u, m', hnext', htook⟩ := ih
    have hend : t.content ≠ .endOfInput := fun hc => by
      rw [Token.isEnd_iff.mpr hc] at ht
      cases ht
    refine ⟨t, m, hnext, fun n => ?_⟩
    obtain ⟨q, hq, hqend⟩ := htook t.span.stop
    refine ⟨q, ?_, hqend⟩
    rw [Token.contents_cons hend]
    have hstep : advance ⟨m, t, n⟩ = .ok t ⟨m', u, t.span.stop⟩ := by
      rw [advance, show TokenSource.next m = (.ok u, m') from hnext']
    exact .cons hend hstep hq

theorem Took.unique_to_end {σ : Type} [TokenSource σ] {p q r : Parser σ}
    {us vs : List Token.Content} (h : Took p us q) (h' : Took p vs r)
    (hq : q.current.content = .endOfInput) (hr : r.current.content = .endOfInput) : us = vs := by
  induction h generalizing vs with
  | nil =>
    cases h' with
    | nil => rfl
    | cons hend => exact absurd hq hend
  | cons hend hstep _ ih =>
    cases h' with
    | nil => exact absurd hr hend
    | cons _ hstep' htail' =>
      rw [hstep] at hstep'
      cases hstep'
      rw [ih htail' hq]

end Parser

namespace Program

theorem ofSource_eq_ok {source : String} {a : Program} {p : Parser Lexer}
    (hp : Parser.ofSource (Lexer.ofSource source) = .ok p) :
    ofSource source = .ok a ↔ ∃ q, Parser.program p.budget p = .ok a q := by
  rw [ofSource, hp]
  change p.parseProgram.1 = .ok a ↔ _
  constructor
  · intro h
    exact ⟨p.parseProgram.2, (Reply.settled_eq_ok p.program_ne_exhausted).mp (Prod.ext h rfl)⟩
  · rintro ⟨q, hq⟩
    exact congrArg Prod.fst ((Reply.settled_eq_ok p.program_ne_exhausted).mpr hq)

variable {source : String} {ts : List Token} {a : Program}

theorem derivation_of_ofSource (h : (Lexer.ofSource source).Scans ts) (ha : ofSource source = .ok a) :
    ∃ d : Grammar.Program, d.tokens = Token.contents ts ∧ d.tree? = some a.bare := by
  obtain ⟨t, m, hnext, htook⟩ := Parser.took_of_scans h
  obtain ⟨q, hq, hqend⟩ := htook 0
  have hp : Parser.ofSource (Lexer.ofSource source) = .ok ⟨m, t, 0⟩ := by
    rw [Parser.ofSource, show TokenSource.next (Lexer.ofSource source) = (.ok t, m) from hnext]
  obtain ⟨r, hr⟩ := (ofSource_eq_ok hp).mp ha
  have hyields := Parser.yields_program (Parser.budget ⟨m, t, 0⟩) ⟨m, t, 0⟩
  rw [hr] at hyields
  obtain ⟨us, hus, d, hd, ht⟩ := hyields
  obtain rfl := hus.unique_to_end hq (Parser.end_of_program hr) hqend
  exact ⟨d, hd, ht⟩

theorem ofSource_of_derivation (h : (Lexer.ofSource source).Scans ts) {d : Grammar.Program}
    {t : Program} (hd : d.tokens = Token.contents ts) (ht : d.tree? = some t) :
    ∃ a, ofSource source = .ok a ∧ a.bare = t := by
  obtain ⟨u, m, hnext, htook⟩ := Parser.took_of_scans h
  obtain ⟨q, hq, hqend⟩ := htook 0
  have hp : Parser.ofSource (Lexer.ofSource source) = .ok ⟨m, u, 0⟩ := by
    rw [Parser.ofSource, show TokenSource.next (Lexer.ofSource source) = (.ok u, m) from hnext]
  obtain ⟨a, ha, hbare⟩ := Parser.completes_program ht (hd ▸ hq) hqend
  exact ⟨a, (ofSource_eq_ok hp).mpr ⟨q, ha⟩, hbare⟩

/-- A source that has tokens holds a program if and only if the grammar derives its tokens, with a
name on the left of every assignment; the program is the tree of the one derivation there is. -/
theorem ofSource_iff_derivable (h : (Lexer.ofSource source).scanAll.1 = .ok ts) :
    ((∃ a, ofSource source = .ok a) ↔
      ∃ d : Grammar.Program, d.tokens = Token.contents ts ∧ d.tree?.isSome) ∧
    ∀ a, ofSource source = .ok a →
      ∃ d : Grammar.Program, d.tokens = Token.contents ts ∧ d.tree? = some a.bare ∧
        ∀ d' : Grammar.Program, d'.tokens = Token.contents ts → d' = d := by
  have hscans := Lexer.scans_of_scanAll h
  refine ⟨⟨?_, ?_⟩, ?_⟩
  · rintro ⟨a, ha⟩
    obtain ⟨d, hd, ht⟩ := derivation_of_ofSource hscans ha
    exact ⟨d, hd, by rw [ht]; rfl⟩
  · rintro ⟨d, hd, ht⟩
    obtain ⟨t, ht⟩ := Option.isSome_iff_exists.mp ht
    obtain ⟨a, ha, -⟩ := ofSource_of_derivation hscans hd ht
    exact ⟨a, ha⟩
  · intro a ha
    obtain ⟨d, hd, ht⟩ := derivation_of_ofSource hscans ha
    exact ⟨d, hd, ht, fun d' hd' => Grammar.Program.tokens_injective (hd'.trans hd.symm)⟩

/-- Parentheses around the name on the left do no harm. -/
theorem ofSource_iff_derivable_parenthesized : ∃ ts, (Lexer.ofSource "(x) = y;").scanAll.1 = .ok ts ∧
    Token.contents ts = [.delimiter '(', .identifier "x", .delimiter ')', .operator "=",
      .identifier "y", .delimiter ';'] ∧ ∃ a, ofSource "(x) = y;" = .ok a := by
  have hscan : (Lexer.ofSource "(x) = y;").scanAll.1.toOption.map Token.contents =
      some [.delimiter '(', .identifier "x", .delimiter ')', .operator "=", .identifier "y",
        .delimiter ';'] := by decide +kernel
  obtain ⟨ts, hts, hcontents⟩ := Option.map_eq_some_iff.mp hscan
  have hok : (Lexer.ofSource "(x) = y;").scanAll.1 = .ok ts := by
    cases hs : (Lexer.ofSource "(x) = y;").scanAll.1 with
    | error e =>
      rw [hs] at hts
      cases hts
    | ok us =>
      rw [hs] at hts
      cases hts
      rfl
  have hderivable : ∃ d : Grammar.Program, d.tokens = Token.contents ts ∧ d.tree?.isSome := by
    refine ⟨⟨[.expression (.assign (Grammar.Unary.tier (.primary (.group (.plain
      (Grammar.Unary.tier (.primary (.name "x")) 6)))) 6) (.plain
      (Grammar.Unary.tier (.primary (.name "y")) 6)))]⟩, ?_, rfl⟩
    rw [hcontents]
    rfl
  exact ⟨ts, hok, hcontents, (ofSource_iff_derivable hok).1.mpr hderivable⟩

end Program
end Dvilipi
