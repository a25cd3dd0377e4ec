import Mathlib.Data.List.Forall2
import Dvilipi.Parser.Source
import Dvilipi.Proofs.Grammar.First
import Dvilipi.Proofs.Grammar.Operators
import Dvilipi.Proofs.Parser.Steps

/-!
What the parser accepts is derivable: whatever a production reads successfully is derived by the rule
of the same name, and the bare tree of its result is the tree of the derivation.
-/

namespace Dvilipi
set_option autoImplicit false

namespace Grammar

/-- Some derivation derives the tokens and stands for the tree. -/
def Expression.Reads (us : List Token.Content) (e : Expr) : Prop :=
  ∃ d : Expression, d.tokens = us ∧ d.tree? = some e.bare

def Tier.Reads (n : Nat) (us : List Token.Content) (e : Expr) : Prop :=
  ∃ d : Tier n, d.tokens = us ∧ d.tree? = some e.bare

def Unary.Reads (us : List Token.Content) (e : Expr) : Prop :=
  ∃ d : Unary, d.tokens = us ∧ d.tree? = some e.bare

def Primary.Reads (us : List Token.Content) (e : Expr) : Prop :=
  ∃ d : Primary, d.tokens = us ∧ d.tree? = some e.bare

/-- The chain goes on from `left` and makes it `e`. -/
def Chain.Reads (n : Nat) (left : Expr) (us : List Token.Content) (e : Expr) : Prop :=
  ∃ d : Chain n, d.tokens = us ∧ d.tree? left.bare = some e.bare

theorem Expression.reads_list {uss : List (List Token.Content)} {es : List Expr}
    (h : List.Forall₂ Expression.Reads uss es) :
    ∃ ds, Expression.tokensOfList ds = uss ∧ Expression.treeOfList? ds = some (Expr.bareList es) := by
  induction h with
  | nil => exact ⟨[], rfl, rfl⟩
  | cons hd _ ih =>
    obtain ⟨d, rfl, ht⟩ := hd
    obtain ⟨ds, rfl, hts⟩ := ih
    exact ⟨d :: ds, rfl, by simp only [Expression.treeOfList?, ht, hts, Expr.bareList]⟩

def TypeName.Reads (us : List Token.Content) (t : Dvilipi.TypeName) : Prop :=
  ∃ d : TypeName, us = [d.content] ∧ d.tree = t.bare

/-- An optional part with the tokens before it, read with the relation `R`. -/
def Optional {α : Type} (before : List Token.Content) (R : List Token.Content → α → Prop)
    (us : List Token.Content) : Option α → Prop
  | some a => ∃ vs, us = before ++ vs ∧ R vs a
  | none => us = []

def Parameter.Reads (us : List Token.Content) (p : Dvilipi.Parameter) : Prop :=
  ∃ d : Parameter, d.tokens = us ∧ d.tree = p.bare

def Statement.Reads (us : List Token.Content) (s : Stmt) : Prop :=
  ∃ d : Statement, d.tokens = us ∧ d.tree? = some s.bare

def Block.Reads (us : List Token.Content) (b : Dvilipi.Block) : Prop :=
  ∃ d : Block, d.tokens = us ∧ d.tree? = some b.bare

theorem Statement.reads_list {uss : List (List Token.Content)} {ss : List Stmt}
    (h : List.Forall₂ Statement.Reads uss ss) :
    ∃ ds, Statement.tokensOfList ds = uss.flatten ∧
      Statement.treeOfList? ds = some (Stmt.bareList ss) := by
  induction h with
  | nil => exact ⟨[], rfl, rfl⟩
  | cons hd _ ih =>
    obtain ⟨d, rfl, ht⟩ := hd
    obtain ⟨ds, htk, hts⟩ := ih
    refine ⟨d :: ds, ?_, ?_⟩
    · simp only [Statement.tokensOfList, htk, List.flatten_cons]
    · simp only [Statement.treeOfList?, ht, hts, Stmt.bareList]

theorem Parameter.reads_list {uss : List (List Token.Content)} {ps : List Dvilipi.Parameter}
    (h : List.Forall₂ Parameter.Reads uss ps) :
    ∃ ds : List Parameter, ds.map Parameter.tokens = uss ∧
      ds.map Parameter.tree = ps.map Dvilipi.Parameter.bare := by
  induction h with
  | nil => exact ⟨[], rfl, rfl⟩
  | cons hd _ ih =>
    obtain ⟨d, rfl, ht⟩ := hd
    obtain ⟨ds, rfl, hts⟩ := ih
    exact ⟨d :: ds, rfl, by rw [List.map_cons, List.map_cons, ht, hts]⟩

theorem optional_typeName {before us : List Token.Content} {t : Option Dvilipi.TypeName}
    (h : Optional before TypeName.Reads us t) :
    ∃ d : Option TypeName, optional before (fun t => [t.content]) d = us ∧
      d.map TypeName.tree = t.map Dvilipi.TypeName.bare := by
  cases t with
  | none => exact ⟨none, h.symm, rfl⟩
  | some t =>
    obtain ⟨vs, rfl, d, rfl, ht⟩ := h
    exact ⟨some d, rfl, congrArg some ht⟩

theorem optional_expression {before us : List Token.Content} {e : Option Expr}
    (h : Optional before Expression.Reads us e) :
    ∃ d : Option Expression, optional before Expression.tokens d = us ∧
      optionalTree? d = some (e.map Expr.bare) := by
  cases e with
  | none => exact ⟨none, h.symm, rfl⟩
  | some e =>
    obtain ⟨vs, rfl, d, rfl, ht⟩ := h
    exact ⟨some d, rfl, by simp [optionalTree?, ht]⟩

end Grammar

namespace Parser

open Grammar (commas InfixAt)

variable {σ α : Type} [TokenSource σ]

theorem yields_commaList {item : Production σ α} {R : List Token.Content → α → Prop}
    (h : ∀ p, Yields p R (item p)) :
    ∀ n p, Yields p (fun us as => ∃ uss, us = commas uss ∧ uss ≠ [] ∧ List.Forall₂ R uss as)
      (commaList item n p) := by
  intro n
  induction n with
  | zero => exact fun p => trivial
  | succ n ih =>
    intro p
    unfold commaList
    apply (h p).bind
    intro a q us hus
    rw [accept_bind]
    split
    · next hc =>
      apply (yields_advance hc Token.Content.noConfusion).bind
      intro t r vs hvs
      refine (ih r).bind fun as s ws hws => yields_pure ?_
      obtain ⟨rfl, -⟩ := hvs
      obtain ⟨uss, rfl, hne, hall⟩ := hws
      refine ⟨us :: uss, ?_, List.cons_ne_nil _ _, .cons hus hall⟩
      cases uss with
      | nil => exact absurd rfl hne
      | cons w ws => simp [commas]
    · exact yields_pure ⟨[us], by simp [commas], List.cons_ne_nil _ _, .cons hus .nil⟩

theorem yields_commaList? {item : Production σ α} {R : List Token.Content → α → Prop}
    (h : ∀ p, Yields p R (item p)) (n : Nat) (p : Parser σ) :
    Yields p (fun us as => ∃ uss, us = commas uss ∧ List.Forall₂ R uss as)
      (commaList? item n p) := by
  unfold commaList?
  rw [content_bind]
  split
  · exact yields_pure ⟨[], rfl, .nil⟩
  · refine (yields_commaList h n p).mono ?_
    rintro us as ⟨uss, rfl, -, hall⟩
    exact ⟨uss, rfl, hall⟩

theorem yields_itemsUntil {item : Production σ α} {R : List Token.Content → α → Prop}
    (h : ∀ p, Yields p R (item p)) (stops : Token.Content → Bool) :
    ∀ n p, Yields p (fun us as => ∃ uss, us = uss.flatten ∧ List.Forall₂ R uss as)
      (itemsUntil stops item n p) := by
  intro n
  induction n with
  | zero => exact fun p => trivial
  | succ n ih =>
    intro p
    unfold itemsUntil
    rw [content_bind]
    split
    · exact yields_pure ⟨[], rfl, .nil⟩
    · refine (h p).bind fun a q us hus => ?_
      refine (ih q).bind fun as r vs hvs => yields_pure ?_
      obtain ⟨uss, rfl, hall⟩ := hvs
      exact ⟨us :: uss, by simp, .cons hus hall⟩

omit [TokenSource σ] in
theorem stops_of_itemsUntil {item : Production σ α} {stops : Token.Content → Bool} {n : Nat}
    {p q : Parser σ} {as : List α} (h : itemsUntil stops item n p = .ok as q) :
    stops q.current.content = true := by
  induction n generalizing p as with
  | zero => cases h
  | succ n ih =>
    unfold itemsUntil at h
    rw [content_bind] at h
    split at h
    · next hs =>
      cases h
      exact hs
    · obtain ⟨a, r, -, h⟩ := Action.bind_eq_ok.mp h
      obtain ⟨as, s, hs, h⟩ := Action.bind_eq_ok.mp h
      cases h
      exact ih hs

section Expressions

open Grammar (Expression Tier Chain Unary Primary)

variable {self : Production σ Expr} {budget : Nat} {p : Parser σ}

theorem yields_call (h : ∀ p, Yields p Expression.Reads (self p)) (callee : String) (start : Nat)
    (hc : p.current.content = .delimiter '(') :
    Yields p (fun us e => Primary.Reads (.identifier callee :: us) e)
      (call self budget callee start p) := by
  unfold call
  apply (yields_advance hc Token.Content.noConfusion).bind
  intro t q us hus
  apply (yields_commaList? h budget q).bind
  intro es r vs hvs
  refine (yields_expect Token.Content.noConfusion _).bind fun close s ws hws => yields_pure ?_
  obtain ⟨rfl, -⟩ := hus
  obtain ⟨uss, rfl, hall⟩ := hvs
  obtain ⟨ds, rfl, hts⟩ := Expression.reads_list hall
  refine ⟨.call callee ds, ?_, ?_⟩
  · simp [Primary.tokens, hws]
  · simp only [Primary.tree?, hts, Expr.bare]

theorem yields_named (h : ∀ p, Yields p Expression.Reads (self p)) {name : String}
    (hc : p.current.content = .identifier name) :
    Yields p Primary.Reads (named self budget name p) := by
  unfold named
  apply (yields_advance hc Token.Content.noConfusion).bind
  intro t q us hus
  obtain ⟨rfl, -⟩ := hus
  rw [content_bind]
  split
  · next ho => exact yields_call h name _ ho
  · exact yields_pure ⟨.name name, rfl, rfl⟩

theorem yields_group (h : ∀ p, Yields p Expression.Reads (self p))
    (hc : p.current.content = .delimiter '(') : Yields p Primary.Reads (group self p) := by
  unfold group
  apply (yields_advance hc Token.Content.noConfusion).bind
  intro t q us hus
  apply (h q).bind
  intro e r vs hvs
  refine (yields_expect Token.Content.noConfusion _).bind fun close s ws hws => yields_pure ?_
  obtain ⟨rfl, -⟩ := hus
  obtain ⟨d, rfl, ht⟩ := hvs
  exact ⟨.group d, by simp [Primary.tokens, hws], by simp only [Primary.tree?, ht]⟩

theorem yields_primary (h : ∀ p, Yields p Expression.Reads (self p)) (p : Parser σ) :
    Yields p Primary.Reads (primary self budget p) := by
  unfold primary
  rw [content_bind]
  cases hc : p.current.content with
  | number x =>
    refine (yields_advance hc Token.Content.noConfusion).bind fun t q us hus => yields_pure ?_
    exact ⟨.number x, by rw [hus.1]; rfl, rfl⟩
  | string text =>
    refine (yields_advance hc Token.Content.noConfusion).bind fun t q us hus => yields_pure ?_
    exact ⟨.string text, by rw [hus.1]; rfl, rfl⟩
  | identifier name => exact yields_named h hc
  | delimiter mark =>
    dsimp only
    split
    · next hm => exact yields_group h (hm ▸ hc)
    · exact yields_reject _ _
  | keyword word script => exact yields_reject _ _
  | operator symbol => exact yields_reject _ _
  | endOfInput => exact yields_reject _ _

theorem yields_unary (h : ∀ p, Yields p Expression.Reads (self p)) :
    ∀ n p, Yields p Unary.Reads (unary self budget n p) := by
  intro n
  induction n with
  | zero => exact fun p => trivial
  | succ n ih =>
    intro p
    unfold unary
    rw [content_bind]
    cases ho : unaryOp? p.current.content with
    | some op =>
      obtain ⟨symbol, hc, hmem⟩ := Grammar.unaryOp?_eq_some_iff.mp ho
      apply (yields_advance hc Token.Content.noConfusion).bind
      intro t q us hus
      refine (ih q).bind fun e r vs hvs => yields_pure ?_
      obtain ⟨rfl, -⟩ := hus
      obtain ⟨d, rfl, ht⟩ := hvs
      refine ⟨.applied ⟨(symbol, op), hmem⟩ d, ?_, ?_⟩
      · simp [Unary.tokens]
      · simp only [Unary.tree?, ht, Expr.bare]
    | none =>
      apply (yields_primary h p).mono
      intro us e hreads
      obtain ⟨d, rfl, ht⟩ := hreads
      exact ⟨.primary d, rfl, ht⟩

theorem yields_infixTail {operand : Production σ Expr} {level : Nat}
    (h : ∀ p, Yields p (Tier.Reads level) (operand p)) :
    ∀ n left p, Yields p (Chain.Reads level left) (infixTail operand level n left p) := by
  intro n
  induction n with
  | zero => exact fun left p => trivial
  | succ n ih =>
    intro left p
    unfold infixTail
    rw [content_bind]
    cases ho : infixOp? level p.current.content with
    | some op =>
      obtain ⟨symbol, hc, hmem⟩ := Grammar.infixOp?_eq_some_iff.mp ho
      apply (yields_advance hc Token.Content.noConfusion).bind
      intro t q us hus
      apply (h q).bind
      intro right r vs hvs
      refine (ih _ r).mono ?_
      obtain ⟨rfl, -⟩ := hus
      obtain ⟨d, rfl, ht⟩ := hvs
      rintro ws e ⟨rest, rfl, hrest⟩
      refine ⟨.cons ⟨(symbol, op), hmem⟩ d rest, ?_, ?_⟩
      · simp [Chain.tokens]
      · rw [Grammar.ofInfix_bare] at hrest
        simp only [Chain.tree?, ht, hrest]
    | none => exact yields_pure ⟨.nil, rfl, rfl⟩

theorem yields_tier (h : ∀ p, Yields p Expression.Reads (self p)) :
    ∀ level p, Yields p (Tier.Reads level) (tier self budget level p) := by
  intro level
  induction level with
  | zero =>
    intro p
    apply (yields_unary h budget p).mono
    intro us e hreads
    obtain ⟨d, rfl, ht⟩ := hreads
    exact ⟨.unary d, rfl, ht⟩
  | succ level ih =>
    intro p
    unfold tier
    apply (ih p).bind
    intro left q us hus
    refine (yields_infixTail ih budget left q).mono ?_
    obtain ⟨first, rfl, hf⟩ := hus
    rintro vs e ⟨rest, rfl, hr⟩
    exact ⟨.chain first rest, rfl, by simp only [Tier.tree?, hf, hr]⟩

theorem yields_assignment (h : ∀ p, Yields p Expression.Reads (self p)) (p : Parser σ) :
    Yields p Expression.Reads (assignment self budget p) := by
  have htier : Yields p (Tier.Reads 6) (tier self budget Infix.levels p) := yields_tier h 6 p
  unfold assignment
  apply htier.bind
  intro target q us hus
  obtain ⟨d, rfl, ht⟩ := hus
  rw [content_bind]
  split
  · next hc =>
    apply (yields_advance hc Token.Content.noConfusion).bind
    intro equals r vs hvs
    apply (h r).bind
    intro value s ws hws
    obtain ⟨rfl, -⟩ := hvs
    obtain ⟨v, rfl, hv⟩ := hws
    cases target with
    | reference x span =>
      refine yields_pure ⟨.assign d v, by simp [Expression.tokens], ?_⟩
      simp only [Expression.tree?, ht, hv, Expr.bare, Grammar.assigned?]
    | _ => trivial
  · exact yields_pure ⟨.plain d, by simp [Expression.tokens], ht⟩

theorem yields_expression : ∀ n p, Yields p Expression.Reads (expression n p : Reply _ (Parser σ) _) := by
  intro n
  induction n with
  | zero => exact fun p => trivial
  | succ n ih => exact yields_assignment ih

end Expressions

section Statements

open Grammar (Expression TypeName Statement Block Optional)

variable {self : Production σ Stmt} {expr : Production σ Expr} {budget : Nat} {p : Parser σ}

theorem yields_typeName (p : Parser σ) : Yields p TypeName.Reads (typeName p) := by
  unfold typeName
  rw [content_bind]
  cases hc : p.current.content with
  | identifier name =>
    refine (yields_advance hc Token.Content.noConfusion).bind fun t q us hus => yields_pure ?_
    exact ⟨.name name, by rw [hus.1]; rfl, rfl⟩
  | keyword word script =>
    dsimp only
    split
    · next hw =>
      subst hw
      refine (yields_advance hc Token.Content.noConfusion).bind fun t q us hus => yields_pure ?_
      exact ⟨.tensor script, by rw [hus.1]; rfl, rfl⟩
    · exact yields_reject _ _
  | number x => exact yields_reject _ _
  | string text => exact yields_reject _ _
  | operator symbol => exact yields_reject _ _
  | delimiter mark => exact yields_reject _ _
  | endOfInput => exact yields_reject _ _

theorem yields_ascription? (p : Parser σ) :
    Yields p (Optional [.delimiter ':'] TypeName.Reads) (ascription? p) := by
  unfold ascription?
  rw [accept_bind]
  split
  · next hc =>
    apply (yields_advance hc Token.Content.noConfusion).bind
    intro t q us hus
    refine (yields_typeName q).bind fun name r vs hvs => yields_pure ?_
    exact ⟨vs, by simp [hus.1], hvs⟩
  · exact yields_pure rfl

theorem yields_resultType? (p : Parser σ) :
    Yields p (Optional [.operator "-", .operator ">"] TypeName.Reads) (resultType? p) := by
  unfold resultType?
  rw [accept_bind]
  split
  · next hc =>
    apply (yields_advance hc Token.Content.noConfusion).bind
    intro t q us hus
    apply (yields_expect Token.Content.noConfusion _).bind
    intro arrow r vs hvs
    refine (yields_typeName r).bind fun name s ws hws => yields_pure ?_
    exact ⟨ws, by simp [hus.1, hvs], hws⟩
  · exact yields_pure rfl

theorem yields_initial? (h : ∀ p, Yields p Expression.Reads (expr p)) (p : Parser σ) :
    Yields p (Optional [.operator "="] Expression.Reads) (initial? expr p) := by
  unfold initial?
  rw [accept_bind]
  split
  · next hc =>
    apply (yields_advance hc Token.Content.noConfusion).bind
    intro t q us hus
    refine (h q).bind fun e r vs hvs => yields_pure ?_
    exact ⟨vs, by simp [hus.1], hvs⟩
  · exact yields_pure rfl

theorem yields_returned? (h : ∀ p, Yields p Expression.Reads (expr p)) (p : Parser σ) :
    Yields p (Optional [] Expression.Reads) (returned? expr p) := by
  unfold returned?
  rw [content_bind]
  split
  · exact yields_pure rfl
  · refine (h p).bind fun e q us hus => yields_pure ?_
    exact ⟨us, by simp, hus⟩

theorem yields_parameter (p : Parser σ) : Yields p Grammar.Parameter.Reads (parameter p) := by
  unfold parameter
  apply (yields_identifier _).bind
  intro name q us hus
  apply (yields_ascription? q).bind
  intro t r vs hvs
  refine yields_lastStop fun stop => yields_pure ?_
  obtain ⟨d, hd, ht⟩ := Grammar.optional_typeName hvs
  refine ⟨⟨name.1, d⟩, ?_, ?_⟩
  · simp [Grammar.Parameter.tokens, Grammar.ascriptionTokens, hd, hus]
  · simp [Grammar.Parameter.tree, Parameter.bare, ht]

theorem yields_block (h : ∀ p, Yields p Statement.Reads (self p)) (p : Parser σ) :
    Yields p Block.Reads (block self budget p) := by
  unfold block
  apply (yields_expect Token.Content.noConfusion _).bind
  intro opening q us hus
  apply (yields_itemsUntil h closesBlock budget q).bind
  intro ss r vs hvs
  refine (yields_expect Token.Content.noConfusion _).bind fun closing s ws hws => yields_pure ?_
  obtain ⟨uss, rfl, hall⟩ := hvs
  obtain ⟨ds, hds, hts⟩ := Statement.reads_list hall
  refine ⟨.mk ds, ?_, ?_⟩
  · simp [Block.tokens, hds, hus, hws]
  · simp only [Block.tree?, hts, Block.bare]

theorem yields_functionDeclaration (h : ∀ p, Yields p Statement.Reads (self p)) {script : Script}
    (hc : p.current.content = .keyword .fn script) :
    Yields p Statement.Reads (functionDeclaration self budget p) := by
  unfold functionDeclaration
  apply (yields_advance hc Token.Content.noConfusion).bind
  intro first q us hus
  apply (yields_identifier _).bind
  intro name r vs hvs
  apply (yields_expect Token.Content.noConfusion _).bind
  intro opening s ws hws
  apply (yields_commaList? yields_parameter budget s).bind
  intro ps t xs hxs
  apply (yields_expect Token.Content.noConfusion _).bind
  intro closing u ys hys
  apply (yields_resultType? u).bind
  intro result v zs hzs
  refine (yields_block h v).bind fun body w bs hbs => yields_pure ?_
  obtain ⟨uss, rfl, hall⟩ := hxs
  obtain ⟨ds, rfl, hps⟩ := Grammar.Parameter.reads_list hall
  obtain ⟨r, hr, hrt⟩ := Grammar.optional_typeName hzs
  obtain ⟨b, rfl, hbt⟩ := hbs
  refine ⟨.function script name.1 ds r b, ?_, ?_⟩
  · simp [Statement.tokens, Grammar.resultTokens, hr, hus.1, hvs, hws, hys]
  · simp only [Statement.tree?, hbt, hps, hrt, Stmt.bare]

theorem yields_variableDeclaration (h : ∀ p, Yields p Expression.Reads (expr p)) (constant : Bool)
    {script : Script}
    (hc : p.current.content = .keyword (if constant then .const else .let_) script) :
    Yields p Statement.Reads (variableDeclaration expr constant p) := by
  unfold variableDeclaration
  apply (yields_advance hc Token.Content.noConfusion).bind
  intro first q us hus
  apply (yields_identifier _).bind
  intro name r vs hvs
  apply (yields_ascription? r).bind
  intro t s ws hws
  apply (yields_initial? h s).bind
  intro e u xs hxs
  apply (yields_expect Token.Content.noConfusion _).bind
  intro close v ys hys
  refine yields_lastStop fun stop => yields_pure ?_
  obtain ⟨d, hd, hdt⟩ := Grammar.optional_typeName hws
  obtain ⟨i, hi, hit⟩ := Grammar.optional_expression hxs
  refine ⟨.binding constant script name.1 d i, ?_, ?_⟩
  · simp [Statement.tokens, Grammar.ascriptionTokens, Grammar.initialTokens, hd, hi, hus.1, hvs, hys]
  · simp [Statement.tree?, hdt, hit, Stmt.bare]

/-- A conditional that stands as a statement of its own, and one that follows `else`. -/
theorem yields_nested (h : ∀ p, Yields p Statement.Reads (self p))
    (hc : isKeyword .if_ p.current.content = true) :
    Yields p (fun us s => ∃ c : Grammar.Conditional, c.tokens = us ∧ c.tree? = some s.bare)
      (self p) := by
  apply (h p).first.mono
  intro us s hreads
  obtain ⟨⟨d, rfl, ht⟩, hf⟩ := hreads
  obtain ⟨c, vs, hd, -⟩ := d.tokens_start
  have hp : c = p.current.content := hf c vs hd
  obtain ⟨script, hif⟩ := isKeyword_content hc
  rw [hp, hif] at hd
  obtain ⟨e, rfl⟩ := Statement.eq_conditional hd
  exact ⟨e, rfl, ht⟩

theorem yields_alternative (h : ∀ p, Yields p Statement.Reads (self p)) (p : Parser σ) :
    Yields p (fun us no => ∀ script e (yes : Dvilipi.Block), ∃ d : Grammar.Alternative,
        d.tokens = .keyword .else_ script :: us ∧
          d.tree? e yes = some (.ifElse e yes no.bare .blank))
      (alternative self budget p) := by
  unfold alternative
  rw [content_bind]
  split
  · next hc =>
    refine (yields_nested h hc).bind fun s q us hus => yields_pure fun script e yes => ?_
    obtain ⟨c, rfl, ht⟩ := hus
    refine ⟨.conditional script c, by simp [Grammar.Alternative.tokens], ?_⟩
    simp only [Grammar.Alternative.tree?, ht, Dvilipi.Block.bare, Stmt.bareList]
  · refine (yields_block h p).mono ?_
    rintro us no ⟨d, rfl, ht⟩ script e yes
    exact ⟨.block script d, rfl, by simp only [Grammar.Alternative.tree?, ht]⟩

theorem yields_conditional (h : ∀ p, Yields p Statement.Reads (self p))
    (hx : ∀ p, Yields p Expression.Reads (expr p)) {script : Script}
    (hc : p.current.content = .keyword .if_ script) :
    Yields p Statement.Reads (conditional self expr budget p) := by
  unfold conditional
  apply (yields_advance hc Token.Content.noConfusion).bind
  intro first q us hus
  apply (hx q).bind
  intro condition r vs hvs
  apply (yields_block h r).bind
  intro yes s ws hws
  obtain ⟨rfl, -⟩ := hus
  obtain ⟨c, rfl, hct⟩ := hvs
  obtain ⟨b, rfl, hbt⟩ := hws
  rw [content_bind]
  split
  · next he =>
    obtain ⟨other, ho⟩ := isKeyword_content he
    apply (yields_advance ho Token.Content.noConfusion).bind
    intro t u xs hxs
    apply (yields_alternative h u).bind
    intro no v ys hys
    refine yields_lastStop fun stop => yields_pure ?_
    obtain ⟨d, hd, hdt⟩ := hys other condition.bare yes.bare
    refine ⟨.conditional (.mk script c b d), ?_, ?_⟩
    · simp [Statement.tokens, Grammar.Conditional.tokens, hd, hxs.1]
    · simp only [Statement.tree?, Grammar.Conditional.tree?, hct, hbt, hdt, Stmt.bare]
  · refine yields_lastStop fun stop => yields_pure ?_
    refine ⟨.conditional (.mk script c b .absent), ?_, ?_⟩
    · simp [Statement.tokens, Grammar.Conditional.tokens, Grammar.Alternative.tokens]
    · simp only [Statement.tree?, Grammar.Conditional.tree?, hct, hbt, Grammar.Alternative.tree?,
        Stmt.bare]

theorem yields_loop (h : ∀ p, Yields p Statement.Reads (self p))
    (hx : ∀ p, Yields p Expression.Reads (expr p)) {script : Script}
    (hc : p.current.content = .keyword .while_ script) :
    Yields p Statement.Reads (loop self expr budget p) := by
  unfold loop
  apply (yields_advance hc Token.Content.noConfusion).bind
  intro first q us hus
  apply (hx q).bind
  intro condition r vs hvs
  refine (yields_block h r).bind fun body s ws hws => yields_pure ?_
  obtain ⟨c, rfl, hct⟩ := hvs
  obtain ⟨b, rfl, hbt⟩ := hws
  refine ⟨.loop script c b, ?_, ?_⟩
  · simp [Statement.tokens, hus.1]
  · simp only [Statement.tree?, hct, hbt, Stmt.bare]

theorem yields_returnStatement (h : ∀ p, Yields p Expression.Reads (expr p)) {script : Script}
    (hc : p.current.content = .keyword .return_ script) :
    Yields p Statement.Reads (returnStatement expr p) := by
  unfold returnStatement
  apply (yields_advance hc Token.Content.noConfusion).bind
  intro first q us hus
  apply (yields_returned? h q).bind
  intro e r vs hvs
  apply (yields_expect Token.Content.noConfusion _).bind
  intro close s ws hws
  refine yields_lastStop fun stop => yields_pure ?_
  obtain ⟨d, hd, hdt⟩ := Grammar.optional_expression hvs
  refine ⟨.leave script d, ?_, ?_⟩
  · simp [Statement.tokens, hd, hus.1, hws]
  · simp [Statement.tree?, hdt, Stmt.bare]

theorem yields_expressionStatement (h : ∀ p, Yields p Expression.Reads (expr p)) (p : Parser σ) :
    Yields p Statement.Reads (expressionStatement expr p) := by
  unfold expressionStatement
  apply yields_currentStart
  intro start
  apply (h p).bind
  intro e q us hus
  apply (yields_expect Token.Content.noConfusion _).bind
  intro close r vs hvs
  refine yields_lastStop fun stop => yields_pure ?_
  obtain ⟨d, rfl, ht⟩ := hus
  refine ⟨.expression d, by simp [Statement.tokens, hvs], ?_⟩
  simp [Statement.tree?, ht, Stmt.bare]

theorem yields_keywordStatement (h : ∀ p, Yields p Statement.Reads (self p))
    (hx : ∀ p, Yields p Expression.Reads (expr p)) {word : Keyword} {script : Script}
    (hc : p.current.content = .keyword word script) :
    Yields p Statement.Reads (keywordStatement self expr budget word p) := by
  cases word with
  | fn => exact yields_functionDeclaration h hc
  | let_ => exact yields_variableDeclaration hx false hc
  | const => exact yields_variableDeclaration hx true hc
  | if_ => exact yields_conditional h hx hc
  | while_ => exact yields_loop h hx hc
  | return_ => exact yields_returnStatement hx hc
  | _ => exact yields_reject _ _

theorem yields_statement :
    ∀ n p, Yields p Statement.Reads (statement n p : Reply _ (Parser σ) _) := by
  intro n
  induction n with
  | zero => exact fun p => trivial
  | succ n ih =>
    intro p
    unfold statement statementForm
    rw [content_bind]
    cases hc : p.current.content with
    | keyword word script => exact yields_keywordStatement ih (yields_expression _) hc
    | _ => exact yields_expressionStatement (yields_expression _) p

theorem yields_program (n : Nat) (p : Parser σ) :
    Yields p (fun us a => ∃ d : Grammar.Program, d.tokens = us ∧ d.tree? = some a.bare)
      (program n p) := by
  unfold program
  refine (yields_itemsUntil (yields_statement n) _ n p).bind fun ss q us hus => yields_pure ?_
  obtain ⟨uss, rfl, hall⟩ := hus
  obtain ⟨ds, hds, hts⟩ := Statement.reads_list hall
  refine ⟨⟨ds⟩, by simp [Grammar.Program.tokens, hds], ?_⟩
  simp [Grammar.Program.tree?, hts, Program.bare]

omit [TokenSource σ] in
theorem end_of_program [TokenSource σ] {n : Nat} {p q : Parser σ} {a : Program}
    (h : program n p = .ok a q) : q.current.content = .endOfInput := by
  obtain ⟨ss, r, hr, hp⟩ := Action.bind_eq_ok.mp h
  cases hp
  simpa using stops_of_itemsUntil hr

end Statements

end Parser
end Dvilipi
