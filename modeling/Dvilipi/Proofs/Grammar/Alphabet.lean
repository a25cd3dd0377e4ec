import Dvilipi.Proofs.Grammar.Derivation

/-!
The tokens of which derived texts consist. Expressions hold no words of the language, and no text holds
an end token.
-/

namespace Dvilipi.Grammar
set_option autoImplicit false

/-- Neither a word of the language nor the end token. -/
def IsPlain : Token.Content → Prop
  | .keyword _ _ => False
  | .endOfInput => False
  | _ => True

theorem IsPlain.ne_end {c : Token.Content} (h : IsPlain c) : c ≠ .endOfInput := by
  rintro rfl
  exact h

variable {P : Token.Content → Prop}

theorem forall_commas (hcomma : P (.delimiter ',')) {uss : List (List Token.Content)}
    (h : ∀ us ∈ uss, ∀ c ∈ us, P c) : ∀ c ∈ commas uss, P c := by
  induction uss with
  | nil => simp [commas]
  | cons us uss ih =>
    obtain ⟨hus, huss⟩ := List.forall_mem_cons.mp h
    cases uss with
    | nil => exact hus
    | cons vs vss =>
      exact List.forall_mem_append.mpr ⟨hus, List.forall_mem_cons.mpr ⟨hcomma, ih huss⟩⟩

theorem forall_optional {α : Type} {before : List Token.Content} {tokens : α → List Token.Content}
    (hbefore : ∀ c ∈ before, P c) {o : Option α} (h : ∀ a ∈ o, ∀ c ∈ tokens a, P c) :
    ∀ c ∈ optional before tokens o, P c := by
  cases o with
  | none => simp [optional]
  | some a => exact List.forall_mem_append.mpr ⟨hbefore, h a rfl⟩

mutual

theorem Expression.tokens_plain : ∀ (d : Expression), ∀ c ∈ d.tokens, IsPlain c
  | .plain e => e.tokens_plain
  | .assign target value => List.forall_mem_append.mpr
      ⟨target.tokens_plain, List.forall_mem_cons.mpr ⟨trivial, value.tokens_plain⟩⟩

theorem Tier.tokens_plain {n : Nat} : ∀ (d : Tier n), ∀ c ∈ d.tokens, IsPlain c
  | .unary e => e.tokens_plain
  | .chain first rest => List.forall_mem_append.mpr ⟨first.tokens_plain, rest.tokens_plain⟩

theorem Chain.tokens_plain {n : Nat} : ∀ (d : Chain n), ∀ c ∈ d.tokens, IsPlain c
  | .nil => by simp [Chain.tokens]
  | .cons _ right rest => List.forall_mem_cons.mpr
      ⟨trivial, List.forall_mem_append.mpr ⟨right.tokens_plain, rest.tokens_plain⟩⟩

theorem Unary.tokens_plain : ∀ (d : Unary), ∀ c ∈ d.tokens, IsPlain c
  | .applied _ e => List.forall_mem_cons.mpr ⟨trivial, e.tokens_plain⟩
  | .primary e => e.tokens_plain

theorem Primary.tokens_plain : ∀ (d : Primary), ∀ c ∈ d.tokens, IsPlain c
  | .number x => by simp [Primary.tokens, IsPlain]
  | .string t => by simp [Primary.tokens, IsPlain]
  | .name x => by simp [Primary.tokens, IsPlain]
  | .call f es => by
    have harguments := forall_commas trivial (Expression.tokensOfList_plain es)
    simpa [Primary.tokens, IsPlain, or_imp, forall_and] using harguments
  | .group e => by simpa [Primary.tokens, IsPlain, or_imp, forall_and] using e.tokens_plain

theorem Expression.tokensOfList_plain :
    ∀ (ds : List Expression), ∀ us ∈ Expression.tokensOfList ds, ∀ c ∈ us, IsPlain c
  | [] => by simp [Expression.tokensOfList]
  | d :: ds => List.forall_mem_cons.mpr ⟨d.tokens_plain, Expression.tokensOfList_plain ds⟩

end

theorem Expression.tokens_ne_end (d : Expression) : ∀ c ∈ d.tokens, c ≠ .endOfInput :=
  fun c hc => (d.tokens_plain c hc).ne_end

theorem TypeName.content_ne_end (t : TypeName) : t.content ≠ .endOfInput := by
  cases t <;> exact Token.Content.noConfusion

theorem ascriptionTokens_ne_end (t : Option TypeName) :
    ∀ c ∈ ascriptionTokens t, c ≠ .endOfInput :=
  forall_optional (by simp) fun t _ => by simpa using t.content_ne_end

theorem resultTokens_ne_end (t : Option TypeName) : ∀ c ∈ resultTokens t, c ≠ .endOfInput :=
  forall_optional (by simp) fun t _ => by simpa using t.content_ne_end

theorem optionalTokens_ne_end {before : List Token.Content} (h : ∀ c ∈ before, c ≠ .endOfInput)
    (e : Option Expression) : ∀ c ∈ optional before Expression.tokens e, c ≠ .endOfInput :=
  forall_optional h fun e _ => e.tokens_ne_end

theorem Parameter.tokens_ne_end (p : Parameter) : ∀ c ∈ p.tokens, c ≠ .endOfInput :=
  List.forall_mem_cons.mpr ⟨Token.Content.noConfusion, ascriptionTokens_ne_end p.ascription⟩

mutual

theorem Statement.tokens_ne_end : ∀ (s : Statement), ∀ c ∈ s.tokens, c ≠ .endOfInput
  | .function script f ps r body => by
    have hparameters : ∀ c ∈ commas (ps.map Parameter.tokens), c ≠ .endOfInput :=
      forall_commas Token.Content.noConfusion (by simpa using fun p _ => p.tokens_ne_end)
    have hbody := List.forall_mem_append.mpr ⟨resultTokens_ne_end r, body.tokens_ne_end⟩
    simp only [Statement.tokens, List.forall_mem_cons, List.forall_mem_append]
    exact ⟨nofun, nofun, nofun, hparameters, nofun, List.forall_mem_append.mp hbody⟩
  | .binding constant script x t e => by
    simp only [Statement.tokens, List.forall_mem_cons, List.forall_mem_append]
    exact ⟨nofun, nofun, ascriptionTokens_ne_end t, optionalTokens_ne_end (by simp) e, nofun,
      by simp⟩
  | .conditional c => c.tokens_ne_end
  | .loop script c body => by
    simp only [Statement.tokens, List.forall_mem_cons, List.forall_mem_append]
    exact ⟨nofun, c.tokens_ne_end, body.tokens_ne_end⟩
  | .leave script e => by
    simp only [Statement.tokens, List.forall_mem_cons, List.forall_mem_append]
    exact ⟨nofun, optionalTokens_ne_end (by simp) e, nofun, by simp⟩
  | .expression e => by
    simp only [Statement.tokens, List.forall_mem_cons, List.forall_mem_append]
    exact ⟨e.tokens_ne_end, nofun, by simp⟩

theorem Conditional.tokens_ne_end : ∀ (d : Conditional), ∀ c ∈ d.tokens, c ≠ .endOfInput
  | .mk script c yes otherwise => by
    simp only [Conditional.tokens, List.forall_mem_cons, List.forall_mem_append]
    exact ⟨nofun, c.tokens_ne_end, yes.tokens_ne_end, otherwise.tokens_ne_end⟩

theorem Alternative.tokens_ne_end : ∀ (d : Alternative), ∀ c ∈ d.tokens, c ≠ .endOfInput
  | .absent => by simp [Alternative.tokens]
  | .block script no => List.forall_mem_cons.mpr ⟨Token.Content.noConfusion, no.tokens_ne_end⟩
  | .conditional script c => List.forall_mem_cons.mpr ⟨Token.Content.noConfusion, c.tokens_ne_end⟩

theorem Block.tokens_ne_end : ∀ (d : Block), ∀ c ∈ d.tokens, c ≠ .endOfInput
  | .mk ss => by
    simp only [Block.tokens, List.forall_mem_cons, List.forall_mem_append]
    exact ⟨nofun, Statement.tokensOfList_ne_end ss, nofun, by simp⟩

theorem Statement.tokensOfList_ne_end :
    ∀ (ss : List Statement), ∀ c ∈ Statement.tokensOfList ss, c ≠ .endOfInput
  | [] => by simp [Statement.tokensOfList]
  | s :: ss => List.forall_mem_append.mpr ⟨s.tokens_ne_end, Statement.tokensOfList_ne_end ss⟩

end

theorem Program.tokens_ne_end (d : Program) : ∀ c ∈ d.tokens, c ≠ .endOfInput :=
  Statement.tokensOfList_ne_end d.statements

end Dvilipi.Grammar
