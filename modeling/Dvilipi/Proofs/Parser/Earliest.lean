import Dvilipi.Proofs.Grammar.Alphabet
import Dvilipi.Proofs.Parser.Accepts
import Dvilipi.Proofs.Parser.OnDemand
import Dvilipi.Proofs.Parser.Viable

/-!
Complaints come as early as they can. No program begins with the tokens up to the one that is
rejected, and some program of the grammar that allows any operand on the left of an assignment begins
with those before it.
-/

namespace Dvilipi
set_option autoImplicit false

theorem TokenList.exists_of_prefix {us : List Token.Content} {ts : List Token} {t : Token}
    (h : ts.map Token.content ++ [t.content] <+: us ++ [.endOfInput]) :
    ∃ l : TokenList, l.tokens.map Token.content = us ∧ ts ++ [t] <+: l.tokens ++ [l.last] := by
  obtain ⟨ws, hws⟩ := h
  obtain ⟨more, hmore⟩ : ∃ more : List Token, more.map Token.content = ws :=
    ⟨ws.map fun c => ⟨c, .origin, default⟩, by simp [Function.comp_def]⟩
  have hall : (ts ++ [t] ++ more).map Token.content = us ++ [.endOfInput] := by
    rw [List.map_append, hmore, List.map_append]
    exact hws
  obtain ⟨tokens, ends, hsplit, htokens, hends⟩ := List.map_eq_append_iff.mp hall
  obtain ⟨last, rfl, hlast⟩ := List.map_eq_singleton_iff.mp hends
  exact ⟨⟨tokens, last, Token.isEnd_iff.mpr hlast⟩, htokens, more, hsplit⟩

theorem Parser.program_of_tokens {l : TokenList} {d : Grammar.Program} {t : Program}
    (hd : l.tokens.map Token.content = d.tokens) (ht : d.tree? = some t) {p : Parser TokenList}
    (hp : l.tokens ++ [l.last] <+: p.ahead) : ∃ a q, program p.budget p = .ok a q := by
  have hends : ∀ u ∈ l.tokens, u.content ≠ .endOfInput := fun u hu =>
    d.tokens_ne_end _ (hd ▸ List.mem_map_of_mem hu)
  obtain ⟨q, hq, hcurrent⟩ := consumed_of_prefix hends hp
  have hlast : q.current.content = .endOfInput := by
    rw [hcurrent]
    exact Token.isEnd_iff.mp l.last_isEnd
  obtain ⟨a, ha, -⟩ := completes_program ht (hd ▸ hq.took) hlast
  exact ⟨a, q, ha⟩

namespace Program

/-- The token that a program is rejected for is the first that cannot stand where it stands: no program
begins with what comes before it and the token itself, and what comes before it is the beginning of
some program, but for the targets of assignments. -/
theorem ofSource_error_earliest {source : String} {x : SyntaxError}
    (h : ofSource source = .error (.grammatical x)) :
    ∃ ts m k, (Lexer.ofSource source).Gives ts m ∧ m.next = (.ok x.found, k) ∧
      (∀ d : Grammar.Program, d.tree?.isSome →
        ¬ ts.map Token.content ++ [x.found.content] <+: d.tokens ++ [.endOfInput]) ∧
      ∃ d : Grammar.Program, ts.map Token.content <+: d.tokens := by
  obtain ⟨p, q, hp, hq⟩ := parser_of_grammatical h
  have hrepeats := Parser.repeats_on_list p
  have hviable := Parser.viable_program p.budget p
  rw [hq] at hrepeats hviable
  obtain ⟨ts, us, m, hts, hus, hfound, hdoomed, -⟩ := hrepeats
  obtain ⟨k, hgives, hnext⟩ := hts.gives (Parser.next_of_ofSource hp)
  rw [hfound] at hnext
  refine ⟨ts, k, m.source, hgives, hnext, fun d hd hfront => ?_, ?_⟩
  · obtain ⟨t, ht⟩ := Option.isSome_iff_exists.mp hd
    obtain ⟨l, hl, hlist⟩ := TokenList.exists_of_prefix hfront
    obtain ⟨p', -, hstop, hahead⟩ := Parser.ofSource_tokens l
    obtain ⟨a, q', hok⟩ := Parser.program_of_tokens hl ht hahead
    obtain ⟨m', hm', hcurrent⟩ := Parser.consumed_of_prefix hts.ne_end (hlist.trans hahead)
    have halong : Parser.Alongside p ts m p' m' := ⟨hm', hcurrent.trans hfound.symm,
      hstop.trans (Parser.previousStop_of_ofSource hp).symm⟩
    exact hdoomed halong _ a q' hok
  · obtain ⟨-, vs, ws, hvs, d, hd⟩ := hviable
    have htokens := hvs.tokens_unique (hts.trans hus).took
    rw [htokens, List.map_append, List.append_assoc] at hd
    exact ⟨d, _, hd.symm⟩

/-- What is assigned to a text is read, and then the `=` is the token that cannot stand there. -/
theorem ofSource_error_earliest_target : ∃ x, ofSource "'a' = b;" = .error (.grammatical x) ∧
    x.found.content = .operator "=" ∧ ∃ ts m k, (Lexer.ofSource "'a' = b;").Gives ts m ∧
      m.next = (.ok x.found, k) ∧
      (∀ d : Grammar.Program, d.tree?.isSome →
        ¬ ts.map Token.content ++ [x.found.content] <+: d.tokens ++ [.endOfInput]) ∧
      ∃ d : Grammar.Program, ts.map Token.content <+: d.tokens := by
  have hparse : (match ofSource "'a' = b;" with
    | .error (.grammatical x) => x.found.content == .operator "="
    | _ => false) = true := by decide +kernel
  split at hparse
  · next x hx => exact ⟨x, hx, by simpa using hparse, ofSource_error_earliest hx⟩
  · cases hparse

end Program
end Dvilipi
