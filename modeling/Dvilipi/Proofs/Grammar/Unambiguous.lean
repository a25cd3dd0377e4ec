import Dvilipi.Proofs.Grammar.Follow

/-!
The grammar is unambiguous: a list of tokens has at most one derivation. Two derivations that are
written in front of texts which they cannot go on with are equal as soon as the whole texts are.
-/

namespace Dvilipi.Grammar
set_option autoImplicit false

/-- The text is empty, or its first token has the property. -/
def Opens (P : Token.Content → Prop) (us : List Token.Content) : Prop := ∀ c vs, us = c :: vs → P c

theorem opens_cons {P : Token.Content → Prop} {c : Token.Content} {us : List Token.Content}
    (h : P c) : Opens P (c :: us) := by
  intro d vs he
  cases he
  exact h

theorem Opens.head {P : Token.Content → Prop} {c : Token.Content} {us : List Token.Content}
    (h : Opens P (c :: us)) : P c := h c us rfl

theorem Opens.mono {P Q : Token.Content → Prop} {us : List Token.Content} (h : Opens P us)
    (hPQ : ∀ c, P c → Q c) : Opens Q us := fun c vs hc => hPQ c (h c vs hc)

theorem InfixAt.ext {n : Nat} {op op' : InfixAt n} (h : op.val.1 = op'.val.1) : op = op' := by
  obtain ⟨⟨symbol, op⟩, hop⟩ := op
  obtain ⟨⟨symbol', op'⟩, hop'⟩ := op'
  cases h
  obtain ⟨rfl, -⟩ := infixTable_unique hop hop'
  rfl

theorem UnarySymbol.ext {op op' : UnarySymbol} (h : op.val.1 = op'.val.1) : op = op' := by
  obtain ⟨⟨symbol, op⟩, hop⟩ := op
  obtain ⟨⟨symbol', op'⟩, hop'⟩ := op'
  cases h
  obtain rfl := unaryTable_unique hop hop'
  rfl

/-- What stands behind the first item of a list. -/
def afterFirst : List (List Token.Content) → List Token.Content
  | [] => []
  | us :: uss => .delimiter ',' :: commas (us :: uss)

theorem commas_cons (us : List Token.Content) (uss : List (List Token.Content)) :
    commas (us :: uss) = us ++ afterFirst uss := by
  cases uss with
  | nil => exact (List.append_nil us).symm
  | cons vs vss => rfl

theorem opens_afterFirst {P : Token.Content → Prop} (hcomma : P (.delimiter ','))
    (hclose : P (.delimiter ')')) (uss : List (List Token.Content)) (r : List Token.Content) :
    Opens P (afterFirst uss ++ .delimiter ')' :: r) := by
  cases uss with
  | nil => exact opens_cons hclose
  | cons us uss => exact opens_cons hcomma

theorem afterFirst_cases {uss uss' : List (List Token.Content)} {r r' : List Token.Content}
    (h : afterFirst uss ++ .delimiter ')' :: r = afterFirst uss' ++ .delimiter ')' :: r') :
    (uss = [] ∧ uss' = [] ∧ r = r') ∨
      commas uss ++ .delimiter ')' :: r = commas uss' ++ .delimiter ')' :: r' := by
  cases uss with
  | nil =>
    cases uss' with
    | nil => exact .inl ⟨rfl, rfl, List.tail_eq_of_cons_eq h⟩
    | cons vs' vss' => exact absurd (List.head_eq_of_cons_eq h) (by decide)
  | cons vs vss =>
    cases uss' with
    | nil => exact absurd (List.head_eq_of_cons_eq h) (by decide)
    | cons vs' vss' => exact .inr (List.tail_eq_of_cons_eq h)

theorem commas_ne_close {c : Token.Content} {us : List Token.Content}
    (hc : c ≠ .delimiter ')') {uss : List (List Token.Content)} {r r' : List Token.Content} :
    commas ((c :: us) :: uss) ++ .delimiter ')' :: r ≠ .delimiter ')' :: r' := by
  intro h
  rw [commas_cons] at h
  exact hc (List.head_eq_of_cons_eq h)

theorem Primary.tokens_ne_operator {e : Primary} {symbol : String} {r us : List Token.Content} :
    e.tokens ++ r ≠ .operator symbol :: us := by
  cases e <;> simp [Primary.tokens]

theorem Chain.opens {n : Nat} (d : Chain n) {r : List Token.Content}
    (h : Opens (EndsTier (n + 1)) r) : Opens (EndsTier n) (d.tokens ++ r) := by
  cases d with
  | nil => exact h.mono fun c hc => hc.mono (Nat.le_succ n)
  | cons op right rest => exact opens_cons (endsTier_operator op)

theorem Chain.opens_ne_operator {n : Nat} {op : InfixAt n} {r us : List Token.Content}
    (h : Opens (EndsTier (n + 1)) r) : r ≠ .operator op.val.1 :: us := by
  rintro rfl
  exact h.head.2 n (Nat.lt_succ_self n) _ _ op.property rfl

mutual

theorem Expression.unique (d d' : Expression) {r r' : List Token.Content}
    (h : d.tokens ++ r = d'.tokens ++ r') (hr : Opens EndsExpression r)
    (hr' : Opens EndsExpression r') : d = d' ∧ r = r' := by
  cases d with
  | plain e =>
    cases d' with
    | plain e' =>
      obtain ⟨rfl, rfl⟩ := Tier.unique e e' h (hr.mono fun _ hc => hc.1) (hr'.mono fun _ hc => hc.1)
      exact ⟨rfl, rfl⟩
    | assign target' value' =>
      rw [Expression.tokens, Expression.tokens, List.append_assoc] at h
      obtain ⟨-, rfl⟩ := Tier.unique e target' h (hr.mono fun _ hc => hc.1)
        (opens_cons (endsTier_equals 6))
      exact absurd rfl hr.head.2
  | assign target value =>
    cases d' with
    | plain e' =>
      rw [Expression.tokens, Expression.tokens, List.append_assoc] at h
      obtain ⟨-, rfl⟩ := Tier.unique target e' h (opens_cons (endsTier_equals 6))
        (hr'.mono fun _ hc => hc.1)
      exact absurd rfl hr'.head.2
    | assign target' value' =>
      rw [Expression.tokens, Expression.tokens, List.append_assoc, List.append_assoc] at h
      obtain ⟨rfl, hv⟩ := Tier.unique target target' h (opens_cons (endsTier_equals 6))
        (opens_cons (endsTier_equals 6))
      obtain ⟨rfl, rfl⟩ := Expression.unique value value' (List.tail_eq_of_cons_eq hv) hr hr'
      exact ⟨rfl, rfl⟩
termination_by structural d

theorem Tier.unique {n : Nat} (d d' : Tier n) {r r' : List Token.Content}
    (h : d.tokens ++ r = d'.tokens ++ r') (hr : Opens (EndsTier n) r)
    (hr' : Opens (EndsTier n) r') : d = d' ∧ r = r' := by
  match d, d' with
  | .unary e, .unary e' =>
    obtain ⟨rfl, rfl⟩ := Unary.unique e e' h hr hr'
    exact ⟨rfl, rfl⟩
  | .chain first rest, .chain first' rest' =>
    rw [Tier.tokens, Tier.tokens, List.append_assoc, List.append_assoc] at h
    obtain ⟨rfl, hrest⟩ := Tier.unique first first' h (rest.opens hr) (rest'.opens hr')
    obtain ⟨rfl, rfl⟩ := Chain.unique rest rest' hrest hr hr'
    exact ⟨rfl, rfl⟩
termination_by structural d

theorem Chain.unique {n : Nat} (d d' : Chain n) {r r' : List Token.Content}
    (h : d.tokens ++ r = d'.tokens ++ r') (hr : Opens (EndsTier (n + 1)) r)
    (hr' : Opens (EndsTier (n + 1)) r') : d = d' ∧ r = r' := by
  match d, d' with
  | .nil, .nil => exact ⟨rfl, h⟩
  | .nil, .cons op' right' rest' => exact absurd h (Chain.opens_ne_operator hr)
  | .cons op right rest, .nil => exact absurd h.symm (Chain.opens_ne_operator hr')
  | .cons op right rest, .cons op' right' rest' =>
    simp only [Chain.tokens, List.cons_append, List.append_assoc, List.cons.injEq,
      Token.Content.operator.injEq] at h
    obtain rfl := InfixAt.ext h.1
    obtain ⟨rfl, hrest⟩ := Tier.unique right right' h.2 (rest.opens hr) (rest'.opens hr')
    obtain ⟨rfl, rfl⟩ := Chain.unique rest rest' hrest hr hr'
    exact ⟨rfl, rfl⟩
termination_by structural d

theorem Unary.unique (d d' : Unary) {r r' : List Token.Content}
    (h : d.tokens ++ r = d'.tokens ++ r') (hr : Opens (EndsTier 0) r)
    (hr' : Opens (EndsTier 0) r') : d = d' ∧ r = r' := by
  cases d with
  | applied op e =>
    cases d' with
    | applied op' e' =>
      simp only [Unary.tokens, List.cons_append, List.cons.injEq,
        Token.Content.operator.injEq] at h
      obtain rfl := UnarySymbol.ext h.1
      obtain ⟨rfl, rfl⟩ := Unary.unique e e' h.2 hr hr'
      exact ⟨rfl, rfl⟩
    | primary e' => exact absurd h.symm Primary.tokens_ne_operator
  | primary e =>
    cases d' with
    | applied op' e' => exact absurd h Primary.tokens_ne_operator
    | primary e' =>
      obtain ⟨rfl, rfl⟩ := Primary.unique e e' h hr hr'
      exact ⟨rfl, rfl⟩
termination_by structural d

theorem Primary.unique (d d' : Primary) {r r' : List Token.Content}
    (h : d.tokens ++ r = d'.tokens ++ r') (hr : Opens (EndsTier 0) r)
    (hr' : Opens (EndsTier 0) r') : d = d' ∧ r = r' := by
  cases d with
  | number x => cases d' <;> simp_all [Primary.tokens]
  | string t => cases d' <;> simp_all [Primary.tokens]
  | name x =>
    cases d' with
    | name x' => simp_all [Primary.tokens]
    | call f' es' =>
      simp only [Primary.tokens, List.cons_append, List.nil_append, List.cons.injEq] at h
      obtain ⟨-, rfl⟩ := h
      exact absurd rfl hr.head.1
    | _ => simp [Primary.tokens] at h
  | call f es =>
    cases d' with
    | name x' =>
      simp only [Primary.tokens, List.cons_append, List.nil_append, List.cons.injEq] at h
      obtain ⟨-, rfl⟩ := h
      exact absurd rfl hr'.head.1
    | call f' es' =>
      simp only [Primary.tokens, List.cons_append, List.append_assoc, List.nil_append,
        List.cons.injEq, Token.Content.identifier.injEq, true_and] at h
      obtain ⟨rfl, hlist⟩ := h
      obtain ⟨rfl, rfl⟩ := Expression.unique_list es es' hlist
      exact ⟨rfl, rfl⟩
    | _ => simp [Primary.tokens] at h
  | group e =>
    cases d' with
    | group e' =>
      simp only [Primary.tokens, List.cons_append, List.append_assoc, List.nil_append,
        List.cons.injEq, true_and] at h
      have hclose : EndsExpression (.delimiter ')') := endsExpression_delimiter (by decide)
      obtain ⟨rfl, hrest⟩ := Expression.unique e e' h (opens_cons hclose) (opens_cons hclose)
      exact ⟨rfl, List.tail_eq_of_cons_eq hrest⟩
    | _ => simp [Primary.tokens] at h
termination_by structural d

theorem Expression.unique_list (ds ds' : List Expression) {r r' : List Token.Content}
    (h : commas (Expression.tokensOfList ds) ++ .delimiter ')' :: r =
      commas (Expression.tokensOfList ds') ++ .delimiter ')' :: r') : ds = ds' ∧ r = r' := by
  cases ds with
  | nil =>
    cases ds' with
    | nil => exact ⟨rfl, List.tail_eq_of_cons_eq h⟩
    | cons d' ds' =>
      obtain ⟨c, us, htk, hc⟩ := d'.tokens_start
      simp only [Expression.tokensOfList, htk] at h
      exact absurd h.symm (commas_ne_close (hc.ne_delimiter (by decide)))
  | cons d ds =>
    cases ds' with
    | nil =>
      obtain ⟨c, us, htk, hc⟩ := d.tokens_start
      simp only [Expression.tokensOfList, htk] at h
      exact absurd h (commas_ne_close (hc.ne_delimiter (by decide)))
    | cons d' ds' =>
      have hcomma : EndsExpression (.delimiter ',') := endsExpression_delimiter (by decide)
      have hclose : EndsExpression (.delimiter ')') := endsExpression_delimiter (by decide)
      simp only [Expression.tokensOfList, commas_cons, List.append_assoc] at h
      obtain ⟨rfl, hrest⟩ := Expression.unique d d' h (opens_afterFirst hcomma hclose _ _)
        (opens_afterFirst hcomma hclose _ _)
      rcases afterFirst_cases hrest with ⟨hds, hds', rfl⟩ | hlist
      · rw [Expression.tokensOfList_eq_map, List.map_eq_nil_iff] at hds hds'
        exact ⟨by rw [hds, hds'], rfl⟩
      · obtain ⟨rfl, rfl⟩ := Expression.unique_list ds ds' hlist
        exact ⟨rfl, rfl⟩
termination_by structural ds

end

theorem optional_unique {α : Type} {c : Token.Content} {before : List Token.Content}
    {tokens : α → List Token.Content} {r r' : List Token.Content}
    (htokens : ∀ a a', tokens a ++ r = tokens a' ++ r' → a = a' ∧ r = r')
    (hr : Opens (fun d => d ≠ c) r) (hr' : Opens (fun d => d ≠ c) r') {o o' : Option α}
    (h : optional (c :: before) tokens o ++ r = optional (c :: before) tokens o' ++ r') :
    o = o' ∧ r = r' := by
  cases o with
  | none =>
    cases o' with
    | none => exact ⟨rfl, h⟩
    | some a' => exact absurd rfl (hr c _ h)
  | some a =>
    cases o' with
    | none => exact absurd rfl (hr' c _ h.symm)
    | some a' =>
      simp only [optional, List.cons_append, List.append_assoc, List.cons.injEq, true_and,
        List.append_cancel_left_eq] at h
      obtain ⟨rfl, rfl⟩ := htokens a a' h
      exact ⟨rfl, rfl⟩

theorem TypeName.unique {t t' : TypeName} {r r' : List Token.Content}
    (h : [t.content] ++ r = [t'.content] ++ r') : t = t' ∧ r = r' := by
  refine ⟨?_, List.tail_eq_of_cons_eq h⟩
  have hc := List.head_eq_of_cons_eq h
  cases t <;> cases t' <;> cases hc <;> rfl

theorem ascriptionTokens_unique {t t' : Option TypeName} {r r' : List Token.Content}
    (h : ascriptionTokens t ++ r = ascriptionTokens t' ++ r')
    (hr : Opens (fun c => c ≠ .delimiter ':') r) (hr' : Opens (fun c => c ≠ .delimiter ':') r') :
    t = t' ∧ r = r' :=
  optional_unique (fun _ _ => TypeName.unique) hr hr' h

theorem resultTokens_unique {t t' : Option TypeName} {r r' : List Token.Content}
    (h : resultTokens t ++ r = resultTokens t' ++ r')
    (hr : Opens (fun c => c ≠ .operator "-") r) (hr' : Opens (fun c => c ≠ .operator "-") r') :
    t = t' ∧ r = r' :=
  optional_unique (fun _ _ => TypeName.unique) hr hr' h

theorem Expression.unique_end {e e' : Expression} {r r' : List Token.Content}
    (h : e.tokens ++ .delimiter ';' :: r = e'.tokens ++ .delimiter ';' :: r') : e = e' ∧ r = r' := by
  have hend : EndsExpression (.delimiter ';') := endsExpression_delimiter (by decide)
  obtain ⟨rfl, hrest⟩ := e.unique e' h (opens_cons hend) (opens_cons hend)
  exact ⟨rfl, List.tail_eq_of_cons_eq hrest⟩

theorem initialTokens_unique {e e' : Option Expression} {r r' : List Token.Content}
    (h : initialTokens e ++ .delimiter ';' :: r = initialTokens e' ++ .delimiter ';' :: r') :
    e = e' ∧ r = r' := by
  have htokens : ∀ a a' : Expression,
      a.tokens ++ .delimiter ';' :: r = a'.tokens ++ .delimiter ';' :: r' →
        a = a' ∧ Token.Content.delimiter ';' :: r = .delimiter ';' :: r' :=
    fun _ _ ha => (Expression.unique_end ha).imp_right (congrArg _)
  have hrest := optional_unique htokens (opens_cons Token.Content.noConfusion)
    (opens_cons Token.Content.noConfusion) h
  exact ⟨hrest.1, List.tail_eq_of_cons_eq hrest.2⟩

theorem returnedTokens_unique {e e' : Option Expression} {r r' : List Token.Content}
    (h : optional [] Expression.tokens e ++ .delimiter ';' :: r =
      optional [] Expression.tokens e' ++ .delimiter ';' :: r') : e = e' ∧ r = r' := by
  have hne : ∀ (d : Expression) (s s' : List Token.Content), d.tokens ++ s ≠ .delimiter ';' :: s' := by
    intro d s s' hd
    obtain ⟨c, us, htk, hc⟩ := d.tokens_start
    rw [htk] at hd
    exact hc.ne_delimiter (by decide) (List.head_eq_of_cons_eq hd)
  cases e with
  | none =>
    cases e' with
    | none => exact ⟨rfl, List.tail_eq_of_cons_eq h⟩
    | some d' => exact absurd h.symm (hne d' _ _)
  | some d =>
    cases e' with
    | none => exact absurd h (hne d _ _)
    | some d' =>
      obtain ⟨rfl, rfl⟩ := Expression.unique_end h
      exact ⟨rfl, rfl⟩

theorem Parameter.unique {p p' : Parameter} {r r' : List Token.Content}
    (h : p.tokens ++ r = p'.tokens ++ r') (hr : Opens (fun c => c ≠ .delimiter ':') r)
    (hr' : Opens (fun c => c ≠ .delimiter ':') r') : p = p' ∧ r = r' := by
  obtain ⟨x, t⟩ := p
  obtain ⟨x', t'⟩ := p'
  simp only [Parameter.tokens, List.cons_append, List.cons.injEq,
    Token.Content.identifier.injEq] at h
  obtain ⟨rfl, hrest⟩ := h
  obtain ⟨rfl, rfl⟩ := ascriptionTokens_unique hrest hr hr'
  exact ⟨rfl, rfl⟩

theorem Parameter.unique_list {ps ps' : List Parameter} {r r' : List Token.Content}
    (h : commas (ps.map Parameter.tokens) ++ .delimiter ')' :: r =
      commas (ps'.map Parameter.tokens) ++ .delimiter ')' :: r') : ps = ps' ∧ r = r' := by
  induction ps generalizing ps' with
  | nil =>
    cases ps' with
    | nil => exact ⟨rfl, List.tail_eq_of_cons_eq h⟩
    | cons p' ps' => exact absurd h.symm (commas_ne_close Token.Content.noConfusion)
  | cons p ps ih =>
    cases ps' with
    | nil => exact absurd h (commas_ne_close Token.Content.noConfusion)
    | cons p' ps' =>
      simp only [List.map_cons, commas_cons, List.append_assoc] at h
      obtain ⟨rfl, hrest⟩ := Parameter.unique h (opens_afterFirst (by decide) (by decide) _ _)
        (opens_afterFirst (by decide) (by decide) _ _)
      rcases afterFirst_cases hrest with ⟨hps, hps', rfl⟩ | hlist
      · rw [List.map_eq_nil_iff] at hps hps'
        exact ⟨by rw [hps, hps'], rfl⟩
      · obtain ⟨rfl, rfl⟩ := ih hlist
        exact ⟨rfl, rfl⟩

theorem Statement.word_eq {s s' : Statement} {r r' : List Token.Content}
    (h : s.tokens ++ r = s'.tokens ++ r') : s.word = s'.word := by
  obtain ⟨c, us, hs, hc⟩ := s.wordOf_first
  obtain ⟨c', us', hs', hc'⟩ := s'.wordOf_first
  rw [hs, hs'] at h
  rw [← hc, ← hc', List.head_eq_of_cons_eq h]

theorem Block.opens {P : Token.Content → Prop} (h : P (.delimiter '\x7b')) (b : Block)
    (r : List Token.Content) : Opens P (b.tokens ++ r) := by
  cases b with
  | mk ss => exact opens_cons h

theorem opens_initialTokens (e : Option Expression) (r : List Token.Content) :
    Opens (fun c => c ≠ .delimiter ':') (initialTokens e ++ .delimiter ';' :: r) := by
  cases e with
  | none => exact opens_cons (by decide)
  | some e => exact opens_cons Token.Content.noConfusion

theorem Statement.opens_list {ds : List Statement} {r : List Token.Content}
    (hr : Opens EndsStatement r) : Opens EndsStatement (Statement.tokensOfList ds ++ r) := by
  cases ds with
  | nil => exact hr
  | cons d ds =>
    obtain ⟨c, us, htk, hc⟩ := d.tokens_start
    rw [Statement.tokensOfList, htk, List.append_assoc]
    exact opens_cons hc.ends

theorem Statement.ne_rest {d : Statement} {ds : List Statement} {r r' : List Token.Content}
    (hr' : Opens (fun c => ¬ StartsStatement c) r') :
    Statement.tokensOfList (d :: ds) ++ r ≠ r' := by
  rintro rfl
  obtain ⟨c, us, htk, hc⟩ := d.tokens_start
  rw [Statement.tokensOfList, htk, List.append_assoc] at hr'
  exact hr'.head hc

theorem Alternative.absent_unique {d : Alternative} {r r' : List Token.Content}
    (h : r = d.tokens ++ r') (hr : Opens EndsStatement r) : d = .absent := by
  rcases d.absent_or_else with hd | ⟨script, us, hd⟩
  · exact hd
  · rw [h, hd] at hr
    exact absurd rfl (hr.head script)

mutual

theorem Statement.unique (d d' : Statement) {r r' : List Token.Content}
    (h : d.tokens ++ r = d'.tokens ++ r') (hr : Opens EndsStatement r)
    (hr' : Opens EndsStatement r') : d = d' ∧ r = r' := by
  have hword := Statement.word_eq h
  cases d with
  | function script f ps t body =>
    cases d' with
    | function script' f' ps' t' body' =>
      simp only [Statement.tokens, List.cons_append, List.append_assoc, List.cons.injEq,
        Token.Content.keyword.injEq, Token.Content.identifier.injEq, true_and] at h
      obtain ⟨rfl, rfl, hparameters⟩ := h
      obtain ⟨rfl, hresult⟩ := Parameter.unique_list hparameters
      obtain ⟨rfl, hbody⟩ := resultTokens_unique hresult
        (body.opens Token.Content.noConfusion _) (body'.opens Token.Content.noConfusion _)
      obtain ⟨rfl, rfl⟩ := Block.unique body body' hbody
      exact ⟨rfl, rfl⟩
    | binding constant => cases constant <;> cases hword
    | _ => cases hword
  | binding constant script x t e =>
    cases d' with
    | binding constant' script' x' t' e' =>
      obtain rfl : constant = constant' := by
        cases constant <;> cases constant' <;> cases hword <;> rfl
      simp only [Statement.tokens, List.cons_append, List.append_assoc, List.cons.injEq,
        Token.Content.keyword.injEq, Token.Content.identifier.injEq, true_and,
        List.nil_append] at h
      obtain ⟨rfl, rfl, htype⟩ := h
      obtain ⟨rfl, hinitial⟩ := ascriptionTokens_unique htype (opens_initialTokens e r)
        (opens_initialTokens e' r')
      obtain ⟨rfl, rfl⟩ := initialTokens_unique hinitial
      exact ⟨rfl, rfl⟩
    | _ => cases constant <;> cases hword
  | conditional c =>
    cases d' with
    | conditional c' =>
      obtain ⟨rfl, rfl⟩ := Conditional.unique c c' h hr hr'
      exact ⟨rfl, rfl⟩
    | binding constant => cases constant <;> cases hword
    | _ => cases hword
  | loop script c body =>
    cases d' with
    | loop script' c' body' =>
      simp only [Statement.tokens, List.cons_append, List.append_assoc, List.cons.injEq,
        Token.Content.keyword.injEq, true_and] at h
      obtain ⟨rfl, hcondition⟩ := h
      have hbrace : EndsExpression (.delimiter '\x7b') := endsExpression_delimiter (by decide)
      obtain ⟨rfl, hbody⟩ := c.unique c' hcondition (body.opens hbrace _) (body'.opens hbrace _)
      obtain ⟨rfl, rfl⟩ := Block.unique body body' hbody
      exact ⟨rfl, rfl⟩
    | binding constant => cases constant <;> cases hword
    | _ => cases hword
  | leave script e =>
    cases d' with
    | leave script' e' =>
      simp only [Statement.tokens, List.cons_append, List.append_assoc, List.cons.injEq,
        Token.Content.keyword.injEq, true_and, List.nil_append] at h
      obtain ⟨rfl, hrest⟩ := h
      obtain ⟨rfl, rfl⟩ := returnedTokens_unique hrest
      exact ⟨rfl, rfl⟩
    | binding constant => cases constant <;> cases hword
    | _ => cases hword
  | expression e =>
    cases d' with
    | expression e' =>
      simp only [Statement.tokens, List.append_assoc, List.cons_append, List.nil_append] at h
      obtain ⟨rfl, rfl⟩ := Expression.unique_end h
      exact ⟨rfl, rfl⟩
    | binding constant => cases constant <;> cases hword
    | _ => cases hword
termination_by structural d

theorem Conditional.unique (d d' : Conditional) {r r' : List Token.Content}
    (h : d.tokens ++ r = d'.tokens ++ r') (hr : Opens EndsStatement r)
    (hr' : Opens EndsStatement r') : d = d' ∧ r = r' := by
  match d, d' with
  | .mk script c yes otherwise, .mk script' c' yes' otherwise' =>
    simp only [Conditional.tokens, List.cons_append, List.append_assoc, List.cons.injEq,
      Token.Content.keyword.injEq, true_and] at h
    obtain ⟨rfl, hcondition⟩ := h
    have hbrace : EndsExpression (.delimiter '\x7b') := endsExpression_delimiter (by decide)
    obtain ⟨rfl, hyes⟩ := c.unique c' hcondition (yes.opens hbrace _) (yes'.opens hbrace _)
    obtain ⟨rfl, hrest⟩ := Block.unique yes yes' hyes
    obtain ⟨rfl, rfl⟩ := Alternative.unique otherwise otherwise' hrest hr hr'
    exact ⟨rfl, rfl⟩
termination_by structural d

theorem Alternative.unique (d d' : Alternative) {r r' : List Token.Content}
    (h : d.tokens ++ r = d'.tokens ++ r') (hr : Opens EndsStatement r)
    (hr' : Opens EndsStatement r') : d = d' ∧ r = r' := by
  match d, d' with
  | .absent, d' =>
    obtain rfl := Alternative.absent_unique h hr
    exact ⟨rfl, h⟩
  | .block script no, .absent => cases Alternative.absent_unique h.symm hr'
  | .block script no, .block script' no' =>
    simp only [Alternative.tokens, List.cons_append, List.cons.injEq,
      Token.Content.keyword.injEq, true_and] at h
    obtain ⟨rfl, hrest⟩ := h
    obtain ⟨rfl, rfl⟩ := Block.unique no no' hrest
    exact ⟨rfl, rfl⟩
  | .block script (.mk ss), .conditional script' (.mk _ _ _ _) =>
    simp [Alternative.tokens, Block.tokens, Conditional.tokens] at h
  | .conditional script c, .absent => cases Alternative.absent_unique h.symm hr'
  | .conditional script (.mk _ _ _ _), .block script' (.mk ss') =>
    simp [Alternative.tokens, Block.tokens, Conditional.tokens] at h
  | .conditional script c, .conditional script' c' =>
    simp only [Alternative.tokens, List.cons_append, List.cons.injEq,
      Token.Content.keyword.injEq, true_and] at h
    obtain ⟨rfl, hrest⟩ := h
    obtain ⟨rfl, rfl⟩ := Conditional.unique c c' hrest hr hr'
    exact ⟨rfl, rfl⟩
termination_by structural d

theorem Block.unique (d d' : Block) {r r' : List Token.Content}
    (h : d.tokens ++ r = d'.tokens ++ r') : d = d' ∧ r = r' := by
  match d, d' with
  | .mk ss, .mk ss' =>
    simp only [Block.tokens, List.cons_append, List.append_assoc, List.cons.injEq, true_and,
      List.nil_append] at h
    have hbrace : ∀ c, StartsStatement c → c ≠ .delimiter '\x7d' := fun c hc =>
      hc.ne_delimiter (by decide)
    obtain ⟨rfl, hrest⟩ := Statement.unique_list ss ss' h
      (opens_cons ⟨fun hc => hbrace _ hc rfl, fun _ => Token.Content.noConfusion⟩)
      (opens_cons ⟨fun hc => hbrace _ hc rfl, fun _ => Token.Content.noConfusion⟩)
    exact ⟨rfl, List.tail_eq_of_cons_eq hrest⟩
termination_by structural d

theorem Statement.unique_list (ds ds' : List Statement) {r r' : List Token.Content}
    (h : Statement.tokensOfList ds ++ r = Statement.tokensOfList ds' ++ r')
    (hr : Opens (fun c => ¬ StartsStatement c ∧ EndsStatement c) r)
    (hr' : Opens (fun c => ¬ StartsStatement c ∧ EndsStatement c) r') : ds = ds' ∧ r = r' := by
  cases ds with
  | nil =>
    cases ds' with
    | nil => exact ⟨rfl, h⟩
    | cons d' ds' => exact absurd h.symm (Statement.ne_rest (hr.mono fun _ hc => hc.1))
  | cons d ds =>
    cases ds' with
    | nil => exact absurd h (Statement.ne_rest (hr'.mono fun _ hc => hc.1))
    | cons d' ds' =>
      rw [Statement.tokensOfList, Statement.tokensOfList, List.append_assoc,
        List.append_assoc] at h
      obtain ⟨rfl, hrest⟩ := Statement.unique d d' h
        (Statement.opens_list (hr.mono fun _ hc => hc.2))
        (Statement.opens_list (hr'.mono fun _ hc => hc.2))
      obtain ⟨rfl, rfl⟩ := Statement.unique_list ds ds' hrest hr hr'
      exact ⟨rfl, rfl⟩
termination_by structural ds

end

/-- No two derivations of a program have the same tokens. -/
theorem Program.tokens_injective {d d' : Program} (h : d.tokens = d'.tokens) : d = d' := by
  obtain ⟨ds⟩ := d
  obtain ⟨ds'⟩ := d'
  have hnil : Opens (fun c => ¬ StartsStatement c ∧ EndsStatement c) [] := nofun
  have happend : Statement.tokensOfList ds ++ [] = Statement.tokensOfList ds' ++ [] :=
    congrArg (· ++ []) h
  obtain ⟨rfl, -⟩ := Statement.unique_list ds ds' happend hnil hnil
  rfl

end Dvilipi.Grammar
