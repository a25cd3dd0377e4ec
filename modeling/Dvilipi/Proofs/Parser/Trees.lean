import Dvilipi.Proofs.Grammar.Operators
import Dvilipi.Proofs.Parser.Consumed

/-!
Every production reads the tree that it gives, spans included, from the tokens that it has consumed.
-/

namespace Dvilipi.Parser
set_option autoImplicit false

variable {σ : Type} [TokenSource σ]

section Expressions

variable {self : Production σ Expr} {budget : Nat} {p : Parser σ}

def ReadsExpr (production : Production σ Expr) : Prop :=
  ∀ p, Reads p (fun ts e => e.ReadFrom ts) (production p)

theorem reads_call (h : ReadsExpr self) {name : Token} {f : String}
    (hname : name.content = .identifier f) (hc : p.current.content = .delimiter '(') :
    Reads p (fun ts e => e.ReadFrom (name :: ts)) (call self budget f name.span.start p) := by
  unfold call
  refine .advance hc Token.Content.noConfusion fun q hq => ?_
  apply (reads_commaList? h budget q).bind
  intro es r us hr hes
  refine .expect Token.Content.noConfusion _ fun s hclose hs => reads_pure ?_
  exact .call hname hc (Expr.allReadFrom_of_separated hes) hclose

theorem reads_named (h : ReadsExpr self) {name : String}
    (hc : p.current.content = .identifier name) :
    Reads p (fun ts e => e.ReadFrom ts) (named self budget name p) := by
  unfold named
  refine .advance hc Token.Content.noConfusion fun q hq => ?_
  rw [content_bind]
  split
  · next ho => exact reads_call h hc ho
  · exact reads_pure (.reference hc)

theorem reads_group (h : ReadsExpr self) (hc : p.current.content = .delimiter '(') :
    Reads p (fun ts e => e.ReadFrom ts) (group self p) := by
  unfold group
  refine .advance hc Token.Content.noConfusion fun q hq => ?_
  apply (h q).bind
  intro e r us hr he
  exact .expect Token.Content.noConfusion _ fun s hclose hs => reads_pure (.group hc he hclose)

theorem reads_primary (h : ReadsExpr self) : ReadsExpr (primary self budget) := by
  intro p
  unfold primary
  rw [content_bind]
  cases hc : p.current.content with
  | number x => exact .advance hc Token.Content.noConfusion fun q hq => reads_pure (.number hc)
  | string text => exact .advance hc Token.Content.noConfusion fun q hq => reads_pure (.string hc)
  | identifier name => exact reads_named h hc
  | delimiter mark =>
    dsimp only
    split
    · next hm => exact reads_group h (hm ▸ hc)
    · exact reads_reject _ _
  | keyword word script => exact reads_reject _ _
  | operator symbol => exact reads_reject _ _
  | endOfInput => exact reads_reject _ _

theorem unaryOp?_content {c : Token.Content} {op : UnaryOp} (h : unaryOp? c = some op) :
    c = .operator op.symbol := by
  cases c with
  | operator symbol => rw [← UnaryOp.symbol_of_ofSymbol? h]
  | _ => cases h

theorem infixOp?_content {level : Nat} {c : Token.Content} {op : Infix}
    (h : infixOp? level c = some op) : c = .operator op.symbol := by
  cases c with
  | operator symbol =>
    obtain ⟨hop, -⟩ := Option.filter_eq_some_iff.mp h
    rw [← Infix.symbol_of_ofSymbol? hop]
  | _ => cases h

theorem reads_unary (h : ReadsExpr self) : ∀ n, ReadsExpr (unary self budget n) := by
  intro n
  induction n with
  | zero => exact fun p => trivial
  | succ n ih =>
    intro p
    unfold unary
    rw [content_bind]
    cases ho : unaryOp? p.current.content with
    | some op =>
      have hc := unaryOp?_content ho
      refine .advance hc Token.Content.noConfusion fun q hq => ?_
      exact (ih q).map fun e r us hr he => .unary hc he
    | none => exact reads_primary h p

theorem reads_infixTail {operand : Production σ Expr} (h : ReadsExpr operand) (level : Nat) :
    ∀ n left p, Reads p (fun ts e => ∀ us, left.ReadFrom us → e.ReadFrom (us ++ ts))
      (infixTail operand level n left p) := by
  intro n
  induction n with
  | zero => exact fun left p => trivial
  | succ n ih =>
    intro left p
    unfold infixTail
    rw [content_bind]
    cases ho : infixOp? level p.current.content with
    | some op =>
      have hc := infixOp?_content ho
      refine .advance hc Token.Content.noConfusion fun q hq => ?_
      apply (h q).bind
      intro right r us hr hright
      refine (ih _ r).mono fun vs e he ws hws => ?_
      have hjoined := he _ (.joined hws hc hright)
      simpa using hjoined
    | none =>
      refine reads_pure fun us hus => ?_
      rwa [List.append_nil]

theorem reads_tier (h : ReadsExpr self) : ∀ level, ReadsExpr (tier self budget level) := by
  intro level
  induction level with
  | zero => exact reads_unary h budget
  | succ level ih =>
    intro p
    unfold tier
    apply (ih p).bind
    intro left q us hq hleft
    exact (reads_infixTail ih level budget left q).mono fun vs e he => he us hleft

theorem reads_assignment (h : ReadsExpr self) : ReadsExpr (assignment self budget) := by
  intro p
  unfold assignment
  apply (reads_tier h Infix.levels p).bind
  intro target q us hq htarget
  rw [content_bind]
  split
  · next hc =>
    apply (reads_advance hc Token.Content.noConfusion).seq
    intro equals r vs hr hvs
    obtain ⟨rfl, rfl⟩ := hvs
    -- the token is rejected only after the value behind it has been consumed
    have hself : Reads q (fun ws value => ∃ vs, ws = q.current :: vs ∧ value.ReadFrom vs) (self r) :=
      ((h r).mono fun vs value hvalue => ⟨vs, rfl, hvalue⟩).after hr
    apply hself.seq
    intro value s ws hs hws
    obtain ⟨vs, rfl, hvalue⟩ := hws
    cases target with
    | reference x sp => exact ⟨_, hs, .assign htarget hc hvalue⟩
    | _ => exact reads_rejectAt _ _ hs List.mem_cons_self
  · refine reads_pure ?_
    rwa [List.append_nil]

theorem reads_expression : ∀ n, ReadsExpr (expression n : Production σ Expr) := by
  intro n
  induction n with
  | zero => exact fun p => trivial
  | succ n ih => exact reads_assignment ih

end Expressions

section Statements

variable {self : Production σ Stmt} {expr : Production σ Expr} {budget : Nat} {p : Parser σ}

def ReadsStmt (production : Production σ Stmt) : Prop :=
  ∀ p, Reads p (fun ts s => s.ReadFrom ts) (production p)

theorem reads_typeName (p : Parser σ) : Reads p (fun ts n => n.ReadFrom ts) (typeName p) := by
  unfold typeName
  rw [content_bind]
  cases hc : p.current.content with
  | identifier name =>
    refine .advance hc Token.Content.noConfusion fun q hq => reads_pure ?_
    exact ⟨p.current, rfl, by rw [Token.text, hc]; rfl, .inl ⟨name, hc⟩⟩
  | keyword word script =>
    dsimp only
    split
    · next hw =>
      subst hw
      refine .advance hc Token.Content.noConfusion fun q hq => reads_pure ?_
      exact ⟨p.current, rfl, by rw [Token.text, hc]; rfl, .inr ⟨script, hc⟩⟩
    · exact reads_reject _ _
  | number x => exact reads_reject _ _
  | string text => exact reads_reject _ _
  | operator symbol => exact reads_reject _ _
  | delimiter mark => exact reads_reject _ _
  | endOfInput => exact reads_reject _ _

theorem reads_ascription? (p : Parser σ) :
    Reads p (fun ts n => TypeName.Ascribed n ts) (ascription? p) := by
  unfold ascription?
  rw [accept_bind]
  split
  · next hc =>
    refine .advance hc Token.Content.noConfusion fun q hq => ?_
    have hcolon : [p.current].map Token.content = [.delimiter ':'] := by simp [hc]
    exact (reads_typeName q).map fun n r us hr hn => .some hcolon hn
  · exact reads_pure .none

theorem reads_resultType? (p : Parser σ) :
    Reads p (fun ts n => TypeName.Resulting n ts) (resultType? p) := by
  unfold resultType?
  rw [accept_bind]
  split
  · next hc =>
    refine .advance hc Token.Content.noConfusion fun q hq => ?_
    refine .expect Token.Content.noConfusion _ fun r harrow hr => ?_
    have harrow' : [p.current, q.current].map Token.content = [.operator "-", .operator ">"] := by
      simp [hc, harrow]
    exact (reads_typeName r).map fun n s us hs hn => .some harrow' hn
  · exact reads_pure .none

theorem reads_initial? (h : ReadsExpr expr) (p : Parser σ) :
    Reads p (fun ts e => Announced [.operator "="] Expr.ReadFrom e ts) (initial? expr p) := by
  unfold initial?
  rw [accept_bind]
  split
  · next hc =>
    refine .advance hc Token.Content.noConfusion fun q hq => ?_
    have hequals : [p.current].map Token.content = [.operator "="] := by simp [hc]
    exact (h q).map fun e r us hr he => .some hequals he
  · exact reads_pure .none

theorem reads_returned? (h : ReadsExpr expr) (p : Parser σ) :
    Reads p (fun ts e => Announced [] Expr.ReadFrom e ts) (returned? expr p) := by
  unfold returned?
  rw [content_bind]
  split
  · exact reads_pure .none
  · exact (h p).map fun e q us hq he => .some List.map_nil he

theorem reads_parameter (p : Parser σ) :
    Reads p (fun ts a => a.ReadFrom ts) (parameter p) := by
  unfold parameter
  refine .identifier _ fun name q hname hq => ?_
  apply (reads_ascription? q).bind
  intro n r us hr hn
  refine reads_lastStop (reads_pure ?_)
  rw [List.append_nil]
  exact ⟨⟨p.current, us, rfl, hname, hn⟩, ((hq.trans hr).extent (List.cons_ne_nil _ _)).symm⟩

theorem reads_itemsUntil (h : ReadsStmt self) (stops : Token.Content → Bool) :
    ∀ n p, Reads p (fun ts ss => Stmt.AllReadFrom ss ts) (itemsUntil stops self n p) := by
  intro n
  induction n with
  | zero => exact fun p => trivial
  | succ n ih =>
    intro p
    unfold itemsUntil
    rw [content_bind]
    split
    · exact reads_pure .nil
    · refine (h p).bind fun s q us hq hs => ?_
      exact (ih q).map fun ss r vs hr hss => .cons hs hss

theorem reads_block (h : ReadsStmt self) (p : Parser σ) :
    Reads p (fun ts b => Stmt.BracedFrom b ts) (block self budget p) := by
  unfold block
  refine .expect Token.Content.noConfusion _ fun q hopening hq => ?_
  apply (reads_itemsUntil h closesBlock budget q).bind
  intro ss r us hr hss
  refine .expect Token.Content.noConfusion _ fun s hclosing hs => reads_pure ?_
  have hextent := (hq.trans (hr.trans hs)).extent (List.cons_ne_nil _ _)
  rw [hs.previousStop] at hextent
  exact hextent ▸ .mk hopening hss hclosing rfl

theorem reads_functionDeclaration (h : ReadsStmt self) {script : Script}
    (hc : p.current.content = .keyword .fn script) :
    Reads p (fun ts s => s.ReadFrom ts) (functionDeclaration self budget p) := by
  unfold functionDeclaration
  refine .advance hc Token.Content.noConfusion fun q hq => ?_
  refine .identifier _ fun name r hname hr => ?_
  refine .expect Token.Content.noConfusion _ fun s hopening hs => ?_
  apply (reads_commaList? reads_parameter budget s).bind
  intro ps t us ht hps
  refine .expect Token.Content.noConfusion _ fun u hclosing hu => ?_
  apply (reads_resultType? u).bind
  intro result v vs hv hresult
  refine (reads_block h v).map fun body w ws hw hbody => ?_
  have hchain := hq.trans (hr.trans (hs.trans (ht.trans (hu.trans (hv.trans hw)))))
  rw [hbody.span_eq, hw.extent hbody.ne_nil, ← hchain.extent (List.cons_ne_nil _ _)]
  exact .function hc hname hopening hps hclosing hresult hbody rfl

theorem reads_variableDeclaration (h : ReadsExpr expr) (constant : Bool) {script : Script}
    (hc : p.current.content = .keyword (if constant then .const else .let_) script) :
    Reads p (fun ts s => s.ReadFrom ts) (variableDeclaration expr constant p) := by
  unfold variableDeclaration
  refine .advance hc Token.Content.noConfusion fun q hq => ?_
  refine .identifier _ fun name r hname hr => ?_
  apply (reads_ascription? r).bind
  intro n s us hs hn
  apply (reads_initial? h s).bind
  intro e t vs ht he
  refine .expect Token.Content.noConfusion _ fun u hclose hu => reads_lastStop (reads_pure ?_)
  have hchain := hq.trans (hr.trans (hs.trans (ht.trans hu)))
  rw [← hchain.extent (List.cons_ne_nil _ _)]
  exact .binding hc hname hn he hclose rfl

theorem reads_alternative (h : ReadsStmt self) (p : Parser σ) :
    Reads p (fun ts b => Stmt.BranchFrom b ts) (alternative self budget p) := by
  unfold alternative
  rw [content_bind]
  split
  · next hc =>
    obtain ⟨script, hif⟩ := isKeyword_content hc
    refine (h p).map fun s q us hq hs => ?_
    cases hq with
    | nil => exact absurd rfl hs.ne_nil
    | cons => exact .conditional hif hs
  · exact (reads_block h p).mono fun ts b hb => .block hb

theorem reads_conditional (h : ReadsStmt self) (hx : ReadsExpr expr) {script : Script}
    (hc : p.current.content = .keyword .if_ script) :
    Reads p (fun ts s => s.ReadFrom ts) (conditional self expr budget p) := by
  unfold conditional
  refine .advance hc Token.Content.noConfusion fun q hq => ?_
  apply (hx q).bind
  intro c r us hr hcondition
  apply (reads_block h r).bind
  intro yes s vs hs hyes
  rw [content_bind]
  split
  · next he =>
    obtain ⟨script', hother⟩ := isKeyword_content he
    refine .advance hother Token.Content.noConfusion fun t ht => ?_
    apply (reads_alternative h t).bind
    intro no u ws hu hno
    refine reads_lastStop (reads_pure ?_)
    have hchain := hq.trans (hr.trans (hs.trans (ht.trans hu)))
    rw [← hchain.extent (List.cons_ne_nil _ _), List.append_nil]
    exact .ifElse hc hcondition hyes hother hno rfl
  · refine reads_lastStop (reads_pure ?_)
    rw [← (hq.trans (hr.trans hs)).extent (List.cons_ne_nil _ _), List.append_nil]
    exact .ifThen hc hcondition hyes rfl

theorem reads_loop (h : ReadsStmt self) (hx : ReadsExpr expr) {script : Script}
    (hc : p.current.content = .keyword .while_ script) :
    Reads p (fun ts s => s.ReadFrom ts) (loop self expr budget p) := by
  unfold loop
  refine .advance hc Token.Content.noConfusion fun q hq => ?_
  apply (hx q).bind
  intro c r us hr hcondition
  refine (reads_block h r).map fun body s vs hs hbody => ?_
  have hchain := hq.trans (hr.trans hs)
  rw [hbody.span_eq, hs.extent hbody.ne_nil, ← hchain.extent (List.cons_ne_nil _ _)]
  exact .while_ hc hcondition hbody rfl

theorem reads_returnStatement (h : ReadsExpr expr) {script : Script}
    (hc : p.current.content = .keyword .return_ script) :
    Reads p (fun ts s => s.ReadFrom ts) (returnStatement expr p) := by
  unfold returnStatement
  refine .advance hc Token.Content.noConfusion fun q hq => ?_
  apply (reads_returned? h q).bind
  intro value r us hr hvalue
  refine .expect Token.Content.noConfusion _ fun s hclose hs => reads_lastStop (reads_pure ?_)
  rw [← (hq.trans (hr.trans hs)).extent (List.cons_ne_nil _ _)]
  exact .return_ hc hvalue hclose rfl

theorem reads_expressionStatement (h : ReadsExpr expr) (p : Parser σ) :
    Reads p (fun ts s => s.ReadFrom ts) (expressionStatement expr p) := by
  unfold expressionStatement
  apply reads_currentStart
  apply (h p).bind
  intro e q us hq he
  refine .expect Token.Content.noConfusion _ fun r hclose hr => reads_lastStop (reads_pure ?_)
  rw [← (hq.trans hr).extent (by simp)]
  exact .expression he hclose rfl

theorem reads_keywordStatement (h : ReadsStmt self) (hx : ReadsExpr expr) {word : Keyword}
    {script : Script} (hc : p.current.content = .keyword word script) :
    Reads p (fun ts s => s.ReadFrom ts) (keywordStatement self expr budget word p) := by
  cases word with
  | fn => exact reads_functionDeclaration h hc
  | let_ => exact reads_variableDeclaration hx false hc
  | const => exact reads_variableDeclaration hx true hc
  | if_ => exact reads_conditional h hx hc
  | while_ => exact reads_loop h hx hc
  | return_ => exact reads_returnStatement hx hc
  | _ => exact reads_reject _ _

theorem reads_statement : ∀ n, ReadsStmt (statement n : Production σ Stmt) := by
  intro n
  induction n with
  | zero => exact fun p => trivial
  | succ n ih =>
    intro p
    unfold statement statementForm
    rw [content_bind]
    cases hc : p.current.content with
    | keyword word script => exact reads_keywordStatement ih (reads_expression _) hc
    | _ => exact reads_expressionStatement (reads_expression _) p

theorem reads_program (n : Nat) (p : Parser σ) :
    Reads p (fun ts a => Stmt.AllReadFrom a.statements ts) (program n p) := by
  unfold program
  exact (reads_itemsUntil (reads_statement n) _ n p).map fun ss q us hq hss => hss

end Statements

end Dvilipi.Parser
