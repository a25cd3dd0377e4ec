import Dvilipi.Proofs.Grammar.Scripts
import Dvilipi.Proofs.Parser.OnDemand
import Dvilipi.Proofs.Session.Chunks
import Dvilipi.Proofs.Session.Types

/-!
The two scripts are interchangeable. A source with words and digits in other scripts has the same
tokens, the same tree and the same runs, but for spans, the scripts of words, and the spelling that a
type keeps.
-/

namespace Dvilipi
set_option autoImplicit false

namespace Token

/-- The tokens are of one kind, and differ in the text of a word of the language only. -/
structure SameButScript (t u : Token) : Prop where
  kind : u.kind = t.kind
  text : (∀ word, t.kind ≠ .keyword word) → u.text = t.text
  number : u.content.number? = t.content.number?

theorem SaysSame.sameButScript {t u : Token} (h : t.SaysSame u) : t.SameButScript u := by
  have hkind : u.kind = t.kind := by
    rw [Token.kind, ← u.content.kind_latinized, h, t.content.kind_latinized, Token.kind]
  refine ⟨hkind, fun hword => ?_, ?_⟩
  · have hword' : ∀ word, u.kind ≠ .keyword word := hkind ▸ hword
    rw [Token.text, ← Content.text_latinized hword', h, Content.text_latinized hword, Token.text]
  · rw [← u.content.number?_latinized, h, t.content.number?_latinized]

theorem rewritten_contents {ts us : List Token} (h : List.Forall₂ SaysSame ts us) :
    Grammar.Rewritten (contents ts) (contents us) := by
  induction h with
  | nil => rfl
  | @cons t u ts us htu _ ih =>
    cases ht : t.isEnd with
    | true =>
      rw [contents_cons_end ht, contents_cons_end (htu.isEnd_eq.trans ht)]
      exact ih
    | false =>
      rw [contents_cons (isEnd_eq_false_iff.mp ht),
        contents_cons (isEnd_eq_false_iff.mp (htu.isEnd_eq.trans ht))]
      exact congrArg₂ List.cons htu ih

end Token

/-- A respelled source holds a program too, and its tree is the same but for spans and the spelling of
types. -/
theorem Program.ofSource_respelled {source source' : String} {p : Program}
    (hp : ofSource source = .ok p) (h : Lexer.Respells source source') :
    ∃ q, ofSource source' = .ok q ∧ q.latinized.bare = p.latinized.bare := by
  obtain ⟨ts, us, hts, hus, hsame⟩ := h.scanAll
  obtain ⟨d, hd, hdp⟩ := derivation_of_ofSource (Lexer.scans_of_scanAll hts) hp
  obtain ⟨d', hd', t, ht, hlatinized⟩ := d.rewritten (hd ▸ Token.rewritten_contents hsame) hdp
  obtain ⟨q, hq, hbare⟩ := ofSource_of_derivation (Lexer.scans_of_scanAll hus) hd' ht
  refine ⟨q, hq, ?_⟩
  rw [bare_latinized, bare_latinized, hbare, hlatinized]

namespace Session

variable {rounds : Nat} {s t : Session} {source source' : String} {p q : Program}

/-- The sessions differ in stored bodies and in the log only, and the stored bodies in spans and in the
spelling of types. -/
def Interchangeable (s t : Session) : Prop :=
  (s.mapTypes TypeName.latinized).Alike (t.mapTypes TypeName.latinized)

theorem Interchangeable.refl (s : Session) : s.Interchangeable s := Alike.refl _

theorem Interchangeable.record (h : s.Interchangeable t) (event event' : Event) :
    (s.record event).Interchangeable (t.record event') :=
  ((Alike.record _ event).symm.trans h).trans (Alike.record _ event')

theorem interpret_congr (h : p.bare = q.bare) (hs : s.Alike t) :
    Semantics.Same (interpret rounds p s) (interpret rounds q t) :=
  (Program.flow_congr (congrArg Program.statements h) hs).bind fun _ _ _ hx => .ok hx

theorem finish_onState (r : Reply RuntimeError Session Value) :
    finish (r.onState (mapTypes TypeName.latinized)) =
      (finish r).onState (mapTypes TypeName.latinized) := by
  cases r <;> rfl

end Session

theorem Reply.Related.of_onState {ε σ α : Type} {E : ε → ε → Prop} {S : σ → σ → Prop} {g : σ → σ}
    {r r' : Reply ε σ α} (h : (r.onState g).Related E S (r'.onState g)) :
    r.Related E (fun s t => S (g s) (g t)) r' := by
  cases r <;> cases r' <;> cases h
  · next h => exact .ok h
  · next he h => exact .failed he h
  · exact .exhausted

namespace Session

variable {rounds : Nat} {s t : Session} {source source' : String} {p q : Program}

theorem finish_interpret_interchangeable (h : q.latinized.bare = p.latinized.bare)
    (hs : s.Interchangeable t) : (finish (interpret rounds p s)).Related Error.SameCause
      Interchangeable (finish (interpret rounds q t)) := by
  refine Reply.Related.of_onState (g := mapTypes TypeName.latinized) ?_
  rw [← finish_onState, ← finish_onState,
    ← Semantics.follows_interpret TypeName.latinized rounds p s,
    ← Semantics.follows_interpret TypeName.latinized rounds q t]
  exact finish_related (interpret_congr h.symm hs)

theorem run_respelled (hp : Program.ofSource source = .ok p) (h : Lexer.Respells source source')
    (hs : s.Interchangeable t) (rounds : Nat) :
    (run rounds source s).Related Error.SameCause Interchangeable (run rounds source' t) := by
  obtain ⟨q, hq, hsame⟩ := Program.ofSource_respelled hp h
  rw [run_of_ofSource hp, run_of_ofSource hq]
  exact finish_interpret_interchangeable hsame ((hs.record _ _).record _ _)

/-- A source that holds a program and the source with words and digits in other scripts have tokens
that differ in the texts of words, trees that differ in spans and in the spelling of types, and runs
that differ in the spans of errors. -/
theorem scripts_interchangeable (hp : Program.ofSource source = .ok p)
    (h : Lexer.Respells source source') :
    (∃ ts us, (Lexer.ofSource source).scanAll.1 = .ok ts ∧
      (Lexer.ofSource source').scanAll.1 = .ok us ∧ List.Forall₂ Token.SameButScript ts us) ∧
    (∃ q, Program.ofSource source' = .ok q ∧ q.latinized.bare = p.latinized.bare) ∧
    ∀ rounds s, (run rounds source s).Related Error.SameCause Interchangeable
      (run rounds source' s) := by
  refine ⟨?_, Program.ofSource_respelled hp h, fun rounds s => run_respelled hp h (.refl s) rounds⟩
  obtain ⟨ts, us, hts, hus, hsame⟩ := h.scanAll
  exact ⟨ts, us, hts, hus, hsame.imp fun _ _ => Token.SaysSame.sameButScript⟩

/-- The type that is a word, and a numeral with digits of both scripts. -/
theorem scripts_interchangeable_tensor : ∃ p, Program.ofSource "let x: tensor = 12;" = .ok p ∧
    Lexer.Respells "let x: tensor = 12;" "चर x: टेन्सर = १2;" ∧
    (∃ ts us, (Lexer.ofSource "let x: tensor = 12;").scanAll.1 = .ok ts ∧
      (Lexer.ofSource "चर x: टेन्सर = १2;").scanAll.1 = .ok us ∧
      List.Forall₂ Token.SameButScript ts us) ∧
    (∃ q, Program.ofSource "चर x: टेन्सर = १2;" = .ok q ∧ q.latinized.bare = p.latinized.bare) ∧
    ∀ rounds s, (run rounds "let x: tensor = 12;" s).Related Error.SameCause Interchangeable
      (run rounds "चर x: टेन्सर = १2;" s) := by
  have hparse : (Program.ofSource "let x: tensor = 12;").toOption.isSome = true := by
    decide +kernel
  have hscan : (Lexer.ofSource "let x: tensor = 12;").scanAll.1.toOption = some
      [⟨.keyword .let_ .latin, ⟨1, 1⟩, ⟨0, 3⟩⟩, ⟨.identifier "x", ⟨1, 5⟩, ⟨4, 5⟩⟩,
        ⟨.delimiter ':', ⟨1, 6⟩, ⟨5, 6⟩⟩, ⟨.keyword .tensor .latin, ⟨1, 8⟩, ⟨7, 13⟩⟩,
        ⟨.operator "=", ⟨1, 15⟩, ⟨14, 15⟩⟩,
        ⟨.number (Lexeme.numeral ['1', '2']), ⟨1, 17⟩, ⟨16, 18⟩⟩,
        ⟨.delimiter ';', ⟨1, 19⟩, ⟨18, 19⟩⟩, ⟨.endOfInput, ⟨1, 20⟩, ⟨19, 19⟩⟩] := by
    decide +kernel
  have hdigits : List.Forall₂ Text.SameDigit ['1', '2'] ['१', '2'] :=
    .cons (.inr ⟨.latin, .devanagari, 1, by decide, by decide⟩) (.cons (.inl rfl) .nil)
  have hrespells : Lexer.Respells "let x: tensor = 12;" "चर x: टेन्सर = १2;" := by
    refine ⟨_, eq_ok_of_toOption hscan, ?_⟩
    exact Eq.subst (motive := Token.Respelled _ 0 _) (by decide +kernel)
      (.cons ⟨.devanagari, rfl⟩ (.cons rfl (.cons rfl (.cons ⟨.devanagari, rfl⟩ (.cons rfl
        (.cons hdigits (.cons rfl .last)))))))
  obtain ⟨p, hp⟩ := Option.isSome_iff_exists.mp hparse
  have hok := eq_ok_of_toOption hp
  exact ⟨p, hok, hrespells, scripts_interchangeable hok hrespells⟩

end Session
end Dvilipi
