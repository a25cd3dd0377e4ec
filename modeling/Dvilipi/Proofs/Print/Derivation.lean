import Dvilipi.Proofs.Grammar.First
import Dvilipi.Proofs.Grammar.Operators
import Dvilipi.Proofs.Print.Text

/-!
The tokens of a printed tree have a derivation, and it is a derivation of the tree. Where the printer
writes no parentheses, the tree fits into the level at hand as it is.
-/

namespace Dvilipi
set_option autoImplicit false

namespace Grammar

/-- One more operator of the level, with its right operand, at the end. -/
def Chain.snoc {n : Nat} : Chain n → InfixAt n → Tier n → Chain n
  | .nil, op, right => .cons op right .nil
  | .cons op' right' rest, op, right => .cons op' right' (rest.snoc op right)

theorem Chain.tokens_snoc {n : Nat} (d : Chain n) (op : InfixAt n) (right : Tier n) :
    (d.snoc op right).tokens = d.tokens ++ .operator op.val.1 :: right.tokens := by
  cases d with
  | nil => simp [Chain.snoc, Chain.tokens]
  | cons op' right' rest => simp [Chain.snoc, Chain.tokens, rest.tokens_snoc op right]
termination_by d

theorem Chain.tree?_snoc {n : Nat} (d : Chain n) {op : InfixAt n} {right : Tier n} {left t e : Expr}
    (hd : d.tree? left = some t) (hright : right.tree? = some e) :
    (d.snoc op right).tree? left = some (joined op.val.2 t e) := by
  cases d with
  | nil =>
    obtain rfl := Option.some.inj hd
    simp [Chain.snoc, Chain.tree?, hright]
  | cons op' right' rest =>
    cases h : right'.tree? with
    | none => simp [Chain.tree?, h] at hd
    | some e' =>
      simp only [Chain.tree?, h] at hd
      simp [Chain.snoc, Chain.tree?, h, rest.tree?_snoc hd hright]
termination_by d

theorem Statement.eq_nil_of_treeOfList? {ds : List Statement}
    (h : Statement.treeOfList? ds = some []) : ds = [] := by
  cases ds with
  | nil => rfl
  | cons d ds =>
    rw [Statement.treeOfList?] at h
    split at h <;> cases h

def InfixAt.of (op : Infix) : InfixAt op.level :=
  ⟨(op.symbol, op), mem_infixTable_iff.mpr ⟨rfl, rfl⟩⟩

def UnarySymbol.of (op : UnaryOp) : UnarySymbol := ⟨(op.symbol, op), mem_unaryTable_iff.mpr rfl⟩

end Grammar

namespace Print

open Grammar (Tier Expression InfixAt UnarySymbol commas)

/-- The tokens `us` have a derivation as an operand in which operators below level `bound` may stand,
or as an expression if all may, and it is one of `t`. -/
def Derives (bound : Nat) (us : List Token.Content) (t : Expr) : Prop :=
  if bound ≤ Infix.levels then ∃ d : Tier bound, d.tokens = us ∧ d.tree? = some t
  else ∃ d : Expression, d.tokens = us ∧ d.tree? = some t

variable {us vs : List Token.Content} {t a b : Expr} {m n : Nat}

theorem derives_tier (h : n ≤ Infix.levels) :
    Derives n us t ↔ ∃ d : Tier n, d.tokens = us ∧ d.tree? = some t := by
  rw [Derives, if_pos h]

theorem derives_expression (h : Infix.levels < n) :
    Derives n us t ↔ ∃ d : Expression, d.tokens = us ∧ d.tree? = some t := by
  rw [Derives, if_neg (Nat.not_le_of_lt h)]

theorem Derives.succ (h : Derives n us t) : Derives (n + 1) us t := by
  rcases Nat.lt_trichotomy n Infix.levels with hlt | rfl | hgt
  · obtain ⟨d, rfl, ht⟩ := (derives_tier (Nat.le_of_lt hlt)).mp h
    exact (derives_tier hlt).mpr ⟨.chain d .nil, by simp [Tier.tokens, Grammar.Chain.tokens],
      by simp [Tier.tree?, Grammar.Chain.tree?, ht]⟩
  · obtain ⟨d, rfl, ht⟩ := (derives_tier (Nat.le_refl _)).mp h
    exact (derives_expression (Nat.lt_succ_self _)).mpr ⟨.plain d, rfl, ht⟩
  · exact (derives_expression (Nat.lt_succ_of_lt hgt)).mpr ((derives_expression hgt).mp h)

theorem Derives.mono (h : Derives m us t) (hmn : m ≤ n) : Derives n us t := by
  induction hmn with
  | refl => exact h
  | step _ ih => exact ih.succ

theorem derives_primary {d : Grammar.Primary} (ht : d.tree? = some t) (n : Nat) :
    Derives n d.tokens t := by
  have hzero : Derives 0 d.tokens t :=
    (derives_tier (Nat.zero_le _)).mpr ⟨.unary (.primary d), rfl, ht⟩
  exact hzero.mono (Nat.zero_le n)

/-- Whatever stands in parentheses fits everywhere. -/
theorem Derives.group (h : Derives n us t) (bound : Nat) :
    Derives bound (.delimiter '(' :: (us ++ [.delimiter ')'])) t := by
  have hlevels : Infix.levels < max n (Infix.levels + 1) := Nat.le_max_right n _
  obtain ⟨d, rfl, ht⟩ := (derives_expression hlevels).mp (h.mono (Nat.le_max_left n _))
  exact derives_primary (d := .group d) ht bound

theorem Derives.enclosed (h : Derives m us t) {fits : Bool} (hfits : fits = true → m ≤ n) :
    Derives n (enclosed fits us) t := by
  cases fits with
  | true => exact h.mono (hfits rfl)
  | false => exact h.group n

theorem Derives.joined (op : Infix) (ha : Derives (op.level + 1) us a) (hb : Derives op.level vs b) :
    Derives (op.level + 1) (us ++ .operator op.symbol :: vs) (Grammar.joined op a b) := by
  have hlevel := op.level_lt
  obtain ⟨d, rfl, ht⟩ := (derives_tier hlevel).mp ha
  obtain ⟨right, rfl, hright⟩ := (derives_tier (Nat.le_of_lt hlevel)).mp hb
  refine (derives_tier hlevel).mpr ?_
  cases d with
  | chain first rest =>
    refine ⟨.chain first (rest.snoc (.of op) right), ?_, ?_⟩
    · rw [Tier.tokens, Tier.tokens, Grammar.Chain.tokens_snoc, List.append_assoc]
      rfl
    · cases hfirst : first.tree? with
      | none => simp [Tier.tree?, hfirst] at ht
      | some left =>
        simp only [Tier.tree?, hfirst] at ht ⊢
        exact rest.tree?_snoc ht hright

theorem Derives.unary (op : UnaryOp) (h : Derives 0 us t) :
    Derives 0 (.operator op.symbol :: us) (.unary op t .blank) := by
  obtain ⟨d, rfl, ht⟩ := (derives_tier (Nat.zero_le _)).mp h
  refine (derives_tier (Nat.zero_le _)).mpr ?_
  cases d with
  | unary e =>
    refine ⟨.unary (.applied (.of op) e), rfl, ?_⟩
    have he : e.tree? = some t := ht
    simp [Tier.tree?, Grammar.Unary.tree?, he, UnarySymbol.of]

theorem Derives.assign (x : String) (h : Derives (Infix.levels + 1) us t) :
    Derives (Infix.levels + 1) (.identifier x :: .operator "=" :: us) (.assign x t .blank) := by
  have hname : ∃ target : Tier 6, target.tokens = [.identifier x] ∧
      target.tree? = some (.reference x .blank) :=
    (derives_tier (Nat.le_refl Infix.levels)).mp (derives_primary (d := .name x) rfl Infix.levels)
  obtain ⟨target, htarget, hx⟩ := hname
  obtain ⟨d, rfl, ht⟩ := (derives_expression (Nat.lt_succ_self _)).mp h
  refine (derives_expression (Nat.lt_succ_self _)).mpr ⟨.assign target d, ?_, ?_⟩
  · rw [Expression.tokens, htarget]
    rfl
  · simp [Expression.tree?, hx, ht, Grammar.assigned?]

theorem derives_infixTokens (op : Infix) {left right : Nat → List Token.Content}
    (hleft : ∀ n, Derives n (left n) a) (hright : ∀ n, Derives n (right n) b) (bound : Nat) :
    Derives bound (infixTokens op bound left right) (Grammar.joined op a b) := by
  refine ((hleft _).joined op (hright _)).enclosed ?_
  exact fun h => of_decide_eq_true h

mutual

theorem derives_exprTokens (e : Expr) (bound : Nat) : Derives bound (exprTokens e bound) e.bare := by
  match e with
  | .number x _ => exact derives_primary (d := .number x) rfl bound
  | .string text _ => exact derives_primary (d := .string text) rfl bound
  | .reference x _ => exact derives_primary (d := .name x) rfl bound
  | .assign x e _ =>
    exact ((derives_exprTokens e _).assign x).enclosed fun h => of_decide_eq_true h
  | .binary op a b _ =>
    exact derives_infixTokens (.binary op) (derives_exprTokens a) (derives_exprTokens b) bound
  | .logical op a b _ =>
    exact derives_infixTokens (.logical op) (derives_exprTokens a) (derives_exprTokens b) bound
  | .unary op e _ => exact ((derives_exprTokens e 0).unary op).mono (Nat.zero_le bound)
  | .call f es _ =>
    obtain ⟨ds, hds, hts⟩ := derives_listTokens es
    have ht : (Grammar.Primary.call f ds).tree? = some (.call f (Expr.bareList es) .blank) := by
      simp [Grammar.Primary.tree?, hts]
    have hcall := derives_primary ht bound
    rw [Grammar.Primary.tokens, hds] at hcall
    exact hcall
termination_by structural e

theorem derives_listTokens (es : List Expr) : ∃ ds : List Expression,
    Expression.tokensOfList ds = listTokens es ∧
      Expression.treeOfList? ds = some (Expr.bareList es) := by
  match es with
  | [] => exact ⟨[], rfl, rfl⟩
  | e :: es =>
    obtain ⟨d, hd, ht⟩ := (derives_expression (Nat.lt_succ_self _)).mp
      (derives_exprTokens e (Infix.levels + 1))
    obtain ⟨ds, hds, hts⟩ := derives_listTokens es
    exact ⟨d :: ds, by simp [Expression.tokensOfList, listTokens, hd, hds],
      by simp [Expression.treeOfList?, Expr.bareList, ht, hts]⟩
termination_by structural es

end

theorem derives_fullTokens (e : Expr) :
    ∃ d : Expression, d.tokens = fullTokens e ∧ d.tree? = some e.bare :=
  (derives_expression (Nat.lt_succ_self _)).mp (derives_exprTokens e _)

theorem derives_typeToken {t : TypeName} (h : t.Printable) :
    ∃ d : Grammar.TypeName, d.content = typeToken t ∧ d.tree = t.bare := by
  obtain ⟨name, span⟩ := t
  rcases h with h | ⟨script, rfl⟩
  · have hword : Keyword.ofWord? name = none := h.2
    exact ⟨.name name, by simp [typeToken, hword, Grammar.TypeName.content], rfl⟩
  · exact ⟨.tensor script, by simp [typeToken, Keyword.ofWord?_spelling, Grammar.TypeName.content], rfl⟩

theorem derives_optionalType (before : List Token.Content) {o : Option TypeName}
    (h : ∀ t ∈ o, t.Printable) : ∃ o' : Option Grammar.TypeName,
      Grammar.optional before (fun t => [t.content]) o' =
        Grammar.optional before (fun t => [typeToken t]) o ∧
      o'.map Grammar.TypeName.tree = o.map TypeName.bare := by
  cases o with
  | none => exact ⟨none, rfl, rfl⟩
  | some t =>
    obtain ⟨d, hd, ht⟩ := derives_typeToken (h t rfl)
    exact ⟨some d, by simp [Grammar.optional, hd], by simp [ht]⟩

theorem derives_optionalExpr (before : List Token.Content) (o : Option Expr) :
    ∃ o' : Option Expression, Grammar.optional before Expression.tokens o' =
        Grammar.optional before fullTokens o ∧
      Grammar.optionalTree? o' = some (o.map Expr.bare) := by
  cases o with
  | none => exact ⟨none, rfl, rfl⟩
  | some e =>
    obtain ⟨d, hd, ht⟩ := derives_fullTokens e
    exact ⟨some d, by simp [Grammar.optional, hd], by simp [Grammar.optionalTree?, ht]⟩

theorem derives_parameter {p : Parameter} (h : p.Printable) :
    ∃ d : Grammar.Parameter, d.tokens = parameterTokens p ∧ d.tree = p.bare := by
  obtain ⟨o, ho, ht⟩ := derives_optionalType [.delimiter ':'] h.2
  exact ⟨⟨p.name, o⟩, congrArg (Token.Content.identifier p.name :: ·) ho,
    by rw [Grammar.Parameter.tree, ht]; rfl⟩

theorem derives_parameters {ps : List Parameter} (h : ∀ p ∈ ps, p.Printable) :
    ∃ ds : List Grammar.Parameter, ds.map Grammar.Parameter.tokens = ps.map parameterTokens ∧
      ds.map Grammar.Parameter.tree = ps.map Parameter.bare := by
  induction ps with
  | nil => exact ⟨[], rfl, rfl⟩
  | cons p ps ih =>
    obtain ⟨d, hd, ht⟩ := derives_parameter (h p List.mem_cons_self)
    obtain ⟨ds, hds, hts⟩ := ih fun q hq => h q (List.mem_cons_of_mem p hq)
    exact ⟨d :: ds, by simp [hd, hds], by simp [ht, hts]⟩

theorem isConditional_tokens {ss : List Stmt} (h : isConditional ss = true) (style : Style) :
    (∃ t, Stmt.bareList ss = [t]) ∧ ∃ us, stmtsTokens style ss = .keyword .if_ style.script :: us := by
  match ss with
  | [.ifThen c yes _] => exact ⟨⟨_, rfl⟩, _, rfl⟩
  | [.ifElse c yes (.mk _ _) _] => exact ⟨⟨_, rfl⟩, _, rfl⟩

theorem conditional_of_list {style : Style} {ss : List Stmt} (hss : isConditional ss = true)
    {ds : List Grammar.Statement} (hds : Grammar.Statement.tokensOfList ds = stmtsTokens style ss)
    (hts : Grammar.Statement.treeOfList? ds = some (Stmt.bareList ss)) :
    ∃ c : Grammar.Conditional, c.tokens = stmtsTokens style ss ∧
      ∃ t, c.tree? = some t ∧ [t] = Stmt.bareList ss := by
  obtain ⟨⟨t, ht⟩, us, hus⟩ := isConditional_tokens hss style
  rw [ht] at hts ⊢
  rw [hus] at hds ⊢
  match ds with
  | [] => cases hts
  | d :: ds =>
    cases hd : d.tree? with
    | none => simp [Grammar.Statement.treeOfList?, hd] at hts
    | some t' =>
      cases hrest : Grammar.Statement.treeOfList? ds with
      | none => simp [Grammar.Statement.treeOfList?, hd, hrest] at hts
      | some ts =>
        simp only [Grammar.Statement.treeOfList?, hd, hrest, Option.some.injEq,
          List.cons.injEq] at hts
        obtain ⟨rfl, rfl⟩ := hts
        obtain rfl := Grammar.Statement.eq_nil_of_treeOfList? hrest
        simp only [Grammar.Statement.tokensOfList, List.append_nil] at hds
        obtain ⟨c, rfl⟩ := Grammar.Statement.eq_conditional hds
        exact ⟨c, hds, t', hd, rfl⟩

variable (style : Style)

mutual

theorem derives_stmtTokens (s : Stmt) (h : s.Printable) :
    ∃ d : Grammar.Statement, d.tokens = stmtTokens style s ∧ d.tree? = some s.bare := by
  match s with
  | .function f ps result body _ =>
    obtain ⟨ps', hps, hpt⟩ := derives_parameters h.2.1
    obtain ⟨o, ho, ht⟩ := derives_optionalType [.operator "-", .operator ">"] h.2.2.1
    obtain ⟨b, hb, hbt⟩ := derives_blockTokens body h.2.2.2
    refine ⟨.function style.script f ps' o b, ?_, ?_⟩
    · simp [Grammar.Statement.tokens, stmtTokens, hps, hb, Grammar.resultTokens, ho]
    · simp [Grammar.Statement.tree?, Stmt.bare, hbt, hpt, ht]
  | .binding x constant type initial _ =>
    obtain ⟨o, ho, ht⟩ := derives_optionalType [.delimiter ':'] h.2.1
    obtain ⟨e, he, het⟩ := derives_optionalExpr [.operator "="] initial
    refine ⟨.binding constant style.script x o e, ?_, ?_⟩
    · simp [Grammar.Statement.tokens, stmtTokens, Grammar.ascriptionTokens, ho,
        Grammar.initialTokens, he]
    · simp [Grammar.Statement.tree?, Stmt.bare, het, ht]
  | .expression e _ =>
    obtain ⟨d, hd, ht⟩ := derives_fullTokens e
    exact ⟨.expression d, by simp [Grammar.Statement.tokens, stmtTokens, hd],
      by simp [Grammar.Statement.tree?, Stmt.bare, ht]⟩
  | .ifThen c yes _ =>
    obtain ⟨d, hd, ht⟩ := derives_fullTokens c
    obtain ⟨b, hb, hbt⟩ := derives_blockTokens yes h.2
    refine ⟨.conditional (.mk style.script d b .absent), ?_, ?_⟩
    · simp [Grammar.Statement.tokens, Grammar.Conditional.tokens, Grammar.Alternative.tokens,
        stmtTokens, hd, hb]
    · simp [Grammar.Statement.tree?, Grammar.Conditional.tree?, Grammar.Alternative.tree?,
        Stmt.bare, ht, hbt]
  | .ifElse c yes (.mk ss _) _ =>
    obtain ⟨d, hd, ht⟩ := derives_fullTokens c
    obtain ⟨b, hb, hbt⟩ := derives_blockTokens yes h.2.1
    obtain ⟨ds, hds, hdts⟩ := derives_stmtsTokens ss h.2.2
    cases hchain : style.chained && isConditional ss with
    | true =>
      obtain ⟨k, hk, t, hkt, hone⟩ := conditional_of_list (Bool.and_eq_true_iff.mp hchain).2 hds hdts
      refine ⟨.conditional (.mk style.script d b (.conditional style.script k)), ?_, ?_⟩
      · simp [Grammar.Statement.tokens, Grammar.Conditional.tokens, Grammar.Alternative.tokens,
          stmtTokens, hd, hb, hk, hchain]
      · simp [Grammar.Statement.tree?, Grammar.Conditional.tree?, Grammar.Alternative.tree?,
          Stmt.bare, Block.bare, ht, hbt, hkt, hone]
    | false =>
      refine ⟨.conditional (.mk style.script d b (.block style.script (.mk ds))), ?_, ?_⟩
      · simp [Grammar.Statement.tokens, Grammar.Conditional.tokens, Grammar.Alternative.tokens,
          Grammar.Block.tokens, stmtTokens, hd, hb, hds, hchain]
      · simp [Grammar.Statement.tree?, Grammar.Conditional.tree?, Grammar.Alternative.tree?,
          Grammar.Block.tree?, Stmt.bare, Block.bare, ht, hbt, hdts]
  | .while_ c body _ =>
    obtain ⟨d, hd, ht⟩ := derives_fullTokens c
    obtain ⟨b, hb, hbt⟩ := derives_blockTokens body h.2
    exact ⟨.loop style.script d b, by simp [Grammar.Statement.tokens, stmtTokens, hd, hb],
      by simp [Grammar.Statement.tree?, Stmt.bare, ht, hbt]⟩
  | .return_ value _ =>
    obtain ⟨e, he, het⟩ := derives_optionalExpr [] value
    exact ⟨.leave style.script e, by simp [Grammar.Statement.tokens, stmtTokens, he],
      by simp [Grammar.Statement.tree?, Stmt.bare, het]⟩
termination_by structural s

theorem derives_blockTokens (b : Block) (h : b.Printable) :
    ∃ d : Grammar.Block, d.tokens = blockTokens style b ∧ d.tree? = some b.bare := by
  match b with
  | .mk ss _ =>
    obtain ⟨ds, hds, hts⟩ := derives_stmtsTokens ss h
    exact ⟨.mk ds, by simp [Grammar.Block.tokens, blockTokens, hds],
      by simp [Grammar.Block.tree?, Block.bare, hts]⟩
termination_by structural b

theorem derives_stmtsTokens (ss : List Stmt) (h : Stmt.PrintableList ss) :
    ∃ ds : List Grammar.Statement, Grammar.Statement.tokensOfList ds = stmtsTokens style ss ∧
      Grammar.Statement.treeOfList? ds = some (Stmt.bareList ss) := by
  match ss with
  | [] => exact ⟨[], rfl, rfl⟩
  | s :: ss =>
    obtain ⟨d, hd, ht⟩ := derives_stmtTokens s h.1
    obtain ⟨ds, hds, hts⟩ := derives_stmtsTokens ss h.2
    exact ⟨d :: ds, by simp [Grammar.Statement.tokensOfList, stmtsTokens, hd, hds],
      by simp [Grammar.Statement.treeOfList?, Stmt.bareList, ht, hts]⟩
termination_by structural ss

end

end Print
end Dvilipi
