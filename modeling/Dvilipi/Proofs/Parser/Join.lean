import Dvilipi.Proofs.Parser.Accepts
import Dvilipi.Proofs.Token.Seam

/-!
Sources one after the other. Every statement ends in a delimiter, so two sources that are parsed and
stand on lines of their own are parsed as one, with the statements of both.
-/

namespace Dvilipi
set_option autoImplicit false

namespace Grammar

def EndsInDelimiter (us : List Token.Content) : Prop := ∃ vs mark, us = vs ++ [.delimiter mark]

theorem EndsInDelimiter.append {us : List Token.Content} (h : EndsInDelimiter us)
    (vs : List Token.Content) : EndsInDelimiter (vs ++ us) := by
  obtain ⟨ws, mark, rfl⟩ := h
  exact ⟨vs ++ ws, mark, (List.append_assoc _ _ _).symm⟩

theorem EndsInDelimiter.cons {us : List Token.Content} (h : EndsInDelimiter us)
    (c : Token.Content) : EndsInDelimiter (c :: us) := h.append [c]

theorem endsInDelimiter_single (mark : Char) : EndsInDelimiter [.delimiter mark] := ⟨[], mark, rfl⟩

theorem Block.tokens_end (b : Block) : EndsInDelimiter b.tokens := by
  cases b with
  | mk ss => exact ((endsInDelimiter_single '\x7d').append _).cons _

mutual

theorem Conditional.tokens_end (c : Conditional) : EndsInDelimiter c.tokens := by
  cases c with
  | mk script c yes otherwise =>
    have hend : EndsInDelimiter (yes.tokens ++ otherwise.tokens) := by
      rcases otherwise.tokens_end with hnil | hend
      · rw [hnil, List.append_nil]
        exact yes.tokens_end
      · exact hend.append _
    exact (hend.append _).cons _
termination_by structural c

theorem Alternative.tokens_end (a : Alternative) : a.tokens = [] ∨ EndsInDelimiter a.tokens := by
  cases a with
  | absent => exact .inl rfl
  | block script no => exact .inr (no.tokens_end.cons _)
  | conditional script c => exact .inr (c.tokens_end.cons _)
termination_by structural a

end

theorem Statement.tokens_end (s : Statement) : EndsInDelimiter s.tokens := by
  cases s with
  | function script f ps r body =>
    have hend := (body.tokens_end.append (resultTokens r)).cons (.delimiter ')')
    exact (((hend.append (commas (ps.map Parameter.tokens))).cons _).cons _).cons _
  | binding constant script x t e =>
    exact ((((endsInDelimiter_single ';').append _).append _).cons _).cons _
  | conditional c => exact c.tokens_end
  | loop script c body => exact (body.tokens_end.append _).cons _
  | leave script e => exact ((endsInDelimiter_single ';').append _).cons _
  | expression e => exact (endsInDelimiter_single ';').append _

theorem Statement.tokensOfList_end (ss : List Statement) :
    Statement.tokensOfList ss = [] ∨ EndsInDelimiter (Statement.tokensOfList ss) := by
  induction ss with
  | nil => exact .inl rfl
  | cons s ss ih =>
    rcases ih with hnil | hend
    · rw [Statement.tokensOfList, hnil, List.append_nil]
      exact .inr s.tokens_end
    · exact .inr (hend.append _)

theorem Program.string_notMem_getLast? (d : Program) (text : String) :
    .string text ∉ d.tokens.getLast? := by
  intro h
  rcases Statement.tokensOfList_end d.statements with hnil | ⟨vs, mark, hend⟩
  · rw [Program.tokens, hnil] at h
    cases h
  · rw [Program.tokens, hend, List.getLast?_concat] at h
    cases h

theorem Statement.tokensOfList_append (ss ts : List Statement) :
    Statement.tokensOfList (ss ++ ts) = Statement.tokensOfList ss ++ Statement.tokensOfList ts := by
  simp only [Statement.tokensOfList_eq_flatten, List.map_append, List.flatten_append]

theorem Statement.treeOfList?_append {ss ts : List Statement} {as bs : List Stmt}
    (h : Statement.treeOfList? ss = some as) (h' : Statement.treeOfList? ts = some bs) :
    Statement.treeOfList? (ss ++ ts) = some (as ++ bs) := by
  induction ss generalizing as with
  | nil =>
    cases h
    exact h'
  | cons s ss ih =>
    simp only [Statement.treeOfList?] at h
    split at h
    · next a as' ha has =>
      cases h
      simp only [List.cons_append, Statement.treeOfList?, ha, ih has]
    · cases h

end Grammar

theorem Stmt.bareList_append (ss ts : List Stmt) :
    Stmt.bareList (ss ++ ts) = Stmt.bareList ss ++ Stmt.bareList ts := by
  simp only [Stmt.bareList_eq_map, List.map_append]

namespace Parser

theorem says_of_took {p q : Parser Lexer} {us : List Token.Content} (h : Took p us q)
    (hq : q.current.content = .endOfInput) {l : Lexer} (hl : l.next = (.ok p.current, p.source)) :
    l.Says us := by
  induction h generalizing l with
  | nil => exact Lexer.says_nil hl hq
  | @cons p q r us hend hstep _ ih =>
    refine Lexer.says_cons hl hend (ih hq ?_)
    unfold advance at hstep
    split at hstep
    · next t m hnext =>
      cases hstep
      exact hnext
    · cases hstep

end Parser

namespace Program

theorem says_of_ofSource {source : String} {a : Program} (h : ofSource source = .ok a) :
    ∃ d : Grammar.Program, (Lexer.ofSource source).Says d.tokens ∧ d.tree? = some a.bare := by
  cases hp : Parser.ofSource (Lexer.ofSource source) with
  | error e =>
    rw [ofSource, hp] at h
    cases h
  | ok p =>
    obtain ⟨q, hq⟩ := (ofSource_eq_ok hp).mp h
    have hyields := Parser.yields_program p.budget p
    rw [hq] at hyields
    obtain ⟨us, hus, d, rfl, ht⟩ := hyields
    refine ⟨d, Parser.says_of_took hus (Parser.end_of_program hq) ?_, ht⟩
    unfold Parser.ofSource at hp
    split at hp
    · next t m hnext =>
      cases hp
      exact hnext
    · cases hp

theorem ofSource_join {first second : String} {a b : Program} (ha : ofSource first = .ok a)
    (hb : ofSource second = .ok b) (hclosed : ¬ Lexer.EndsInComment first) :
    ∃ c, ofSource (first ++ "\n" ++ second) = .ok c ∧
      Stmt.bareList c.statements = Stmt.bareList (a.statements ++ b.statements) := by
  obtain ⟨d, hd, hdtree⟩ := says_of_ofSource ha
  obtain ⟨e, he, hetree⟩ := says_of_ofSource hb
  obtain ⟨ts, hts, hcontents⟩ := Lexer.says_join hd he d.string_notMem_getLast? hclosed
  have htokens : Grammar.Program.tokens ⟨d.statements ++ e.statements⟩ = Token.contents ts :=
    (Grammar.Statement.tokensOfList_append _ _).trans hcontents.symm
  obtain ⟨as, has, hasbare⟩ := Option.map_eq_some_iff.mp hdtree
  obtain ⟨bs, hbs, hbsbare⟩ := Option.map_eq_some_iff.mp hetree
  have htree : Grammar.Program.tree? ⟨d.statements ++ e.statements⟩ = some ⟨as ++ bs⟩ :=
    congrArg (Option.map Program.mk) (Grammar.Statement.treeOfList?_append has hbs)
  obtain ⟨c, hc, hbare⟩ := ofSource_of_derivation hts htokens htree
  refine ⟨c, hc, ?_⟩
  obtain rfl : as = Stmt.bareList a.statements := congrArg Program.statements hasbare
  obtain rfl : bs = Stmt.bareList b.statements := congrArg Program.statements hbsbare
  exact (congrArg Program.statements hbare).trans (Stmt.bareList_append _ _).symm

end Program
end Dvilipi
