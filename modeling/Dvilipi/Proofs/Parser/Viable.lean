import Dvilipi.Proofs.Grammar.First
import Dvilipi.Proofs.Grammar.Operators
import Dvilipi.Proofs.Parser.Steps

/-!
The parser takes no token that cannot be continued. Whatever a production has taken when it rejects a
token begins some text that the rule of the same name derives, with any operand allowed on the left of
an assignment.
-/

namespace Dvilipi
set_option autoImplicit false

def Grammar.Derived {δ : Type} (tokens : δ → List Token.Content) (us : List Token.Content) : Prop :=
  ∃ d, tokens d = us

namespace Parser

variable {σ α β δ : Type} [TokenSource σ]

/-- The tokens that were taken from `p` on are in `L` after a success, and begin some that are in `L`
after a complaint. -/
def Viable (p : Parser σ) (L : List Token.Content → Prop)
    (r : Reply ParseError (Parser σ) α) : Prop :=
  (∃ us, L us) ∧ match r with
  | .ok _ q => ∃ us, Took p us q ∧ L us
  | .failed (.grammatical _) q => ∃ us vs, Took p us q ∧ L (us ++ vs)
  | .failed (.lexical _) _ => True
  | .exhausted => True

section Viable

variable {p : Parser σ} {L M : List Token.Content → Prop}

theorem Viable.mono {r : Reply ParseError (Parser σ) α} (h : Viable p L r)
    (hLM : ∀ us, L us → M us) : Viable p M r := by
  obtain ⟨⟨us, hus⟩, h⟩ := h
  refine ⟨⟨us, hLM us hus⟩, ?_⟩
  cases r with
  | ok a q =>
    obtain ⟨vs, hvs, hL⟩ := h
    exact ⟨vs, hvs, hLM vs hL⟩
  | failed e q =>
    cases e with
    | grammatical e =>
      obtain ⟨vs, ws, hvs, hL⟩ := h
      exact ⟨vs, ws, hvs, hLM _ hL⟩
    | lexical e => trivial
  | exhausted => trivial

theorem Viable.bind [Inhabited α] {P : Production σ α} {f : α → Production σ β}
    (h : Viable p L (P p))
    (hf : ∀ a q us, L us → Viable q (fun vs => M (us ++ vs)) (f a q)) :
    Viable p M ((P >>= f) p) := by
  -- what is missing behind a text of `L` the rest of the sequence tells, wherever it would be read
  have hrest : ∀ us, L us → ∃ vs, M (us ++ vs) := fun us hus =>
    (hf default p us hus).1
  obtain ⟨⟨us, hus⟩, h⟩ := h
  obtain ⟨vs, hvs⟩ := hrest us hus
  refine ⟨⟨_, hvs⟩, ?_⟩
  rw [Action.bind_apply]
  cases hP : P p with
  | ok a q =>
    rw [hP] at h
    obtain ⟨us, hus, hL⟩ := h
    obtain ⟨-, hq⟩ := hf a q us hL
    dsimp only
    cases hr : f a q with
    | ok b r =>
      rw [hr] at hq
      obtain ⟨vs, hvs, hM⟩ := hq
      exact ⟨us ++ vs, hus.trans hvs, hM⟩
    | failed e r =>
      rw [hr] at hq
      cases e with
      | grammatical e =>
        obtain ⟨vs, ws, hvs, hM⟩ := hq
        exact ⟨us ++ vs, ws, hus.trans hvs, by rwa [List.append_assoc]⟩
      | lexical e => trivial
    | exhausted => trivial
  | failed e q =>
    rw [hP] at h
    cases e with
    | grammatical e =>
      obtain ⟨us, vs, hus, hL⟩ := h
      obtain ⟨ws, hws⟩ := hrest _ hL
      exact ⟨us, vs ++ ws, hus, by rwa [← List.append_assoc]⟩
    | lexical e => trivial
  | exhausted => trivial

theorem Viable.first {r : Reply ParseError (Parser σ) α} (h : Viable p L r) (hnil : ¬ L [])
    (hex : ∃ us, L (p.current.content :: us)) :
    Viable p (fun us => L us ∧ ∃ vs, us = p.current.content :: vs) r := by
  obtain ⟨ws, hws⟩ := hex
  obtain ⟨-, h⟩ := h
  refine ⟨⟨_, hws, ws, rfl⟩, ?_⟩
  cases r with
  | ok a q =>
    obtain ⟨us, hus, hL⟩ := h
    refine ⟨us, hus, hL, ?_⟩
    cases hus with
    | nil => exact absurd hL hnil
    | cons => exact ⟨_, rfl⟩
  | failed e q =>
    cases e with
    | grammatical e =>
      obtain ⟨us, vs, hus, hL⟩ := h
      cases hus with
      | nil => exact ⟨[], _, .nil p, hws, ws, rfl⟩
      | cons hend hstep htail => exact ⟨_, vs, .cons hend hstep htail, hL, _, rfl⟩
    | lexical e => trivial
  | exhausted => trivial

theorem viable_pure {a : α} (h : L []) : Viable p L ((pure a : Production σ α) p) :=
  ⟨⟨[], h⟩, [], .nil p, h⟩

theorem viable_reject (h : ∃ us, L us) (expected : Expected) :
    Viable p L ((reject expected : Production σ α) p) := by
  obtain ⟨us, hus⟩ := h
  exact ⟨⟨us, hus⟩, [], us, .nil p, hus⟩

theorem viable_rejectAt (h : ∃ us, L us) (expected : Expected) (t : Token) :
    Viable p L ((rejectAt expected t : Production σ α) p) := by
  obtain ⟨us, hus⟩ := h
  exact ⟨⟨us, hus⟩, [], us, .nil p, hus⟩

theorem viable_exhausted (h : ∃ us, L us) :
    Viable p L ((Action.exhausted : Production σ α) p) := ⟨h, trivial⟩

instance : Inhabited Token := ⟨⟨.endOfInput, .origin, default⟩⟩

theorem viable_advance {c : Token.Content} (hc : p.current.content = c) (hend : c ≠ .endOfInput) :
    Viable p (fun us => us = [c]) (advance p) := by
  refine ⟨⟨[c], rfl⟩, ?_⟩
  cases ha : advance p with
  | ok t q =>
    obtain rfl := advance_eq_ok ha
    subst hc
    exact ⟨_, .single hend ha, rfl⟩
  | failed e q =>
    cases e with
    | grammatical e =>
      unfold advance at ha
      split at ha <;> cases ha
    | lexical e => trivial
  | exhausted => trivial

theorem Viable.advance {c : Token.Content} {f : Token → Production σ β}
    (hc : p.current.content = c) (hend : c ≠ .endOfInput)
    (hf : ∀ t q, Viable q (fun vs => M (c :: vs)) (f t q)) :
    Viable p M ((Parser.advance >>= f) p) := by
  refine (viable_advance hc hend).bind fun t q us hus => ?_
  rw [hus]
  exact hf t q

theorem Viable.expect {c : Token.Content} {f : Token → Production σ β} (hend : c ≠ .endOfInput)
    (expected : Expected) (hf : ∀ t q, Viable q (fun vs => M (c :: vs)) (f t q)) :
    Viable p M ((Parser.expect c expected >>= f) p) := by
  unfold Parser.expect
  rw [Action.bind_assoc, content_bind]
  split
  · next hc => exact .advance hc hend hf
  · obtain ⟨⟨vs, hvs⟩, -⟩ := hf default p
    exact viable_reject ⟨_, hvs⟩ expected

theorem Viable.identifier {f : String × Span → Production σ β} (expected : Expected)
    (hf : ∀ a q name, Viable q (fun vs => M (.identifier name :: vs)) (f a q)) :
    Viable p M ((Parser.identifier expected >>= f) p) := by
  unfold Parser.identifier
  rw [Action.bind_assoc, content_bind]
  cases hc : p.current.content with
  | identifier name =>
    dsimp only
    rw [Action.bind_assoc]
    exact .advance hc Token.Content.noConfusion fun t q => hf _ q name
  | _ =>
    obtain ⟨⟨vs, hvs⟩, -⟩ := hf ("", default) p ""
    exact viable_reject ⟨_, hvs⟩ expected

theorem viable_lastStop {f : Nat → Production σ β} (h : ∀ n, Viable p L (f n p)) :
    Viable p L ((lastStop >>= f) p) := h p.previousStop

theorem viable_currentStart {f : Nat → Production σ β} (h : ∀ n, Viable p L (f n p)) :
    Viable p L ((currentStart >>= f) p) := h p.current.span.start

end Viable

section Lists

open Grammar (commas Derived)

variable {item : Production σ α} {tokens : δ → List Token.Content}

theorem viable_commaList [Inhabited α] (h : ∀ p, Viable p (Derived tokens) (item p)) :
    ∀ n p, Viable p (fun us => ∃ ds : List δ, ds ≠ [] ∧ commas (ds.map tokens) = us)
      (commaList item n p) := by
  intro n
  induction n with
  | zero =>
    intro p
    obtain ⟨-, d, -⟩ := (h p).1
    exact viable_exhausted ⟨_, [d], List.cons_ne_nil _ _, rfl⟩
  | succ n ih =>
    intro p
    unfold commaList
    apply (h p).bind
    rintro a q us ⟨d, rfl⟩
    rw [accept_bind]
    split
    · next hc =>
      refine .advance hc Token.Content.noConfusion fun t r => (ih r).bind ?_
      rintro as s us ⟨ds, hne, rfl⟩
      refine viable_pure ⟨d :: ds, List.cons_ne_nil _ _, ?_⟩
      cases ds with
      | nil => exact absurd rfl hne
      | cons d' ds => simp [commas]
    · exact viable_pure ⟨[d], List.cons_ne_nil _ _, by simp [commas]⟩

theorem viable_commaList? [Inhabited α] (h : ∀ p, Viable p (Derived tokens) (item p)) (n : Nat)
    (p : Parser σ) :
    Viable p (fun us => ∃ ds : List δ, commas (ds.map tokens) = us) (commaList? item n p) := by
  unfold commaList?
  rw [content_bind]
  split
  · exact viable_pure ⟨[], rfl⟩
  · refine (viable_commaList h n p).mono ?_
    rintro us ⟨ds, -, rfl⟩
    exact ⟨ds, rfl⟩

theorem viable_itemsUntil [Inhabited α] (h : ∀ p, Viable p (Derived tokens) (item p))
    (stops : Token.Content → Bool) :
    ∀ n p, Viable p (fun us => ∃ ds : List δ, (ds.map tokens).flatten = us)
      (itemsUntil stops item n p) := by
  intro n
  induction n with
  | zero => exact fun p => viable_exhausted ⟨[], [], rfl⟩
  | succ n ih =>
    intro p
    unfold itemsUntil
    rw [content_bind]
    split
    · exact viable_pure ⟨[], rfl⟩
    · apply (h p).bind
      rintro a q us ⟨d, rfl⟩
      apply (ih q).bind
      rintro as r us ⟨ds, rfl⟩
      exact viable_pure ⟨d :: ds, by simp⟩

end Lists

section Expressions

open Grammar (Derived Expression Tier Chain Unary Primary)

instance : Inhabited Expr := ⟨.string "" .blank⟩

variable {self : Production σ Expr} {budget : Nat} {p : Parser σ}

theorem viable_call (h : ∀ p, Viable p (Derived Expression.tokens) (self p)) (callee : String)
    (start : Nat) (hc : p.current.content = .delimiter '(') :
    Viable p (fun us => Derived Primary.tokens (.identifier callee :: us))
      (call self budget callee start p) := by
  unfold call
  refine .advance hc Token.Content.noConfusion fun t q => ?_
  apply (viable_commaList? h budget q).bind
  rintro es r us ⟨ds, rfl⟩
  refine .expect Token.Content.noConfusion _ fun close s => viable_pure ⟨.call callee ds, ?_⟩
  simp [Primary.tokens, Expression.tokensOfList_eq_map]

theorem viable_named (h : ∀ p, Viable p (Derived Expression.tokens) (self p)) {name : String}
    (hc : p.current.content = .identifier name) :
    Viable p (Derived Primary.tokens) (named self budget name p) := by
  unfold named
  refine .advance hc Token.Content.noConfusion fun t q => ?_
  rw [content_bind]
  split
  · next ho => exact viable_call h name _ ho
  · exact viable_pure ⟨.name name, rfl⟩

theorem viable_group (h : ∀ p, Viable p (Derived Expression.tokens) (self p))
    (hc : p.current.content = .delimiter '(') :
    Viable p (Derived Primary.tokens) (group self p) := by
  unfold group
  refine .advance hc Token.Content.noConfusion fun t q => (h q).bind ?_
  rintro e r us ⟨d, rfl⟩
  refine .expect Token.Content.noConfusion _ fun close s => viable_pure ⟨.group d, ?_⟩
  simp [Primary.tokens]

theorem viable_primary (h : ∀ p, Viable p (Derived Expression.tokens) (self p)) (p : Parser σ) :
    Viable p (Derived Primary.tokens) (primary self budget p) := by
  have hreject : Viable p (Derived Primary.tokens) ((reject .expression : Production σ Expr) p) :=
    viable_reject ⟨_, .name "", rfl⟩ _
  unfold primary
  rw [content_bind]
  cases hc : p.current.content with
  | number x =>
    exact .advance hc Token.Content.noConfusion fun t q => viable_pure ⟨.number x, rfl⟩
  | string text =>
    exact .advance hc Token.Content.noConfusion fun t q => viable_pure ⟨.string text, rfl⟩
  | identifier name => exact viable_named h hc
  | delimiter mark =>
    dsimp only
    split
    · next hm => exact viable_group h (hm ▸ hc)
    · exact hreject
  | keyword word script => exact hreject
  | operator symbol => exact hreject
  | endOfInput => exact hreject

theorem viable_unary (h : ∀ p, Viable p (Derived Expression.tokens) (self p)) :
    ∀ n p, Viable p (Derived Unary.tokens) (unary self budget n p) := by
  intro n
  induction n with
  | zero => exact fun p => viable_exhausted ⟨_, .primary (.name ""), rfl⟩
  | succ n ih =>
    intro p
    unfold unary
    rw [content_bind]
    cases ho : unaryOp? p.current.content with
    | some op =>
      obtain ⟨symbol, hc, hmem⟩ := Grammar.unaryOp?_eq_some_iff.mp ho
      refine .advance hc Token.Content.noConfusion fun t q => (ih q).bind ?_
      rintro e r us ⟨d, rfl⟩
      exact viable_pure ⟨.applied ⟨(symbol, op), hmem⟩ d, by simp [Unary.tokens]⟩
    | none =>
      refine (viable_primary h p).mono ?_
      rintro us ⟨d, rfl⟩
      exact ⟨.primary d, rfl⟩

theorem viable_infixTail {operand : Production σ Expr} {level : Nat}
    (h : ∀ p, Viable p (Derived (Tier.tokens (n := level))) (operand p)) :
    ∀ n left p, Viable p (Derived (Chain.tokens (n := level)))
      (infixTail operand level n left p) := by
  intro n
  induction n with
  | zero => exact fun left p => viable_exhausted ⟨[], .nil, rfl⟩
  | succ n ih =>
    intro left p
    unfold infixTail
    rw [content_bind]
    cases ho : infixOp? level p.current.content with
    | some op =>
      obtain ⟨symbol, hc, hmem⟩ := Grammar.infixOp?_eq_some_iff.mp ho
      refine .advance hc Token.Content.noConfusion fun t q => (h q).bind ?_
      rintro right r us ⟨d, rfl⟩
      refine (ih _ r).mono ?_
      rintro vs ⟨rest, rfl⟩
      exact ⟨.cons ⟨(symbol, op), hmem⟩ d rest, by simp [Chain.tokens]⟩
    | none => exact viable_pure ⟨.nil, rfl⟩

theorem viable_tier (h : ∀ p, Viable p (Derived Expression.tokens) (self p)) :
    ∀ level p, Viable p (Derived (Tier.tokens (n := level))) (tier self budget level p) := by
  intro level
  induction level with
  | zero =>
    intro p
    refine (viable_unary h budget p).mono ?_
    rintro us ⟨d, rfl⟩
    exact ⟨.unary d, rfl⟩
  | succ level ih =>
    intro p
    unfold tier
    apply (ih p).bind
    rintro left q us ⟨first, rfl⟩
    refine (viable_infixTail ih budget left q).mono ?_
    rintro vs ⟨rest, rfl⟩
    exact ⟨.chain first rest, rfl⟩

theorem viable_assignment (h : ∀ p, Viable p (Derived Expression.tokens) (self p))
    (p : Parser σ) : Viable p (Derived Expression.tokens) (assignment self budget p) := by
  have htier : Viable p (Derived (Tier.tokens (n := 6))) (tier self budget Infix.levels p) :=
    viable_tier h 6 p
  unfold assignment
  apply htier.bind
  rintro target q us ⟨d, rfl⟩
  rw [content_bind]
  split
  · next hc =>
    refine .advance hc Token.Content.noConfusion fun equals r => (h r).bind ?_
    rintro value s us ⟨v, rfl⟩
    -- the relaxed grammar has a derivation whether or not the target is a name
    have hassign : Derived Expression.tokens (d.tokens ++ .operator "=" :: (v.tokens ++ [])) :=
      ⟨.assign d v, by simp [Expression.tokens]⟩
    cases target with
    | reference x span => exact viable_pure hassign
    | _ => exact viable_rejectAt ⟨[], hassign⟩ _ _
  · exact viable_pure ⟨.plain d, by simp [Expression.tokens]⟩

theorem viable_expression :
    ∀ n p, Viable p (Derived Expression.tokens) (expression n p : Reply _ (Parser σ) _) := by
  intro n
  induction n with
  | zero =>
    intro p
    exact viable_exhausted ⟨_, .plain (Grammar.Unary.tier (.primary (.name "")) 6), rfl⟩
  | succ n ih => exact viable_assignment ih

end Expressions

section Statements

open Grammar (Derived Expression Statement)

instance : Inhabited TypeName := ⟨⟨"", .blank⟩⟩

instance : Inhabited Parameter := ⟨⟨"", none, .blank⟩⟩

instance : Inhabited Block := ⟨.mk [] .blank⟩

instance : Inhabited Stmt := ⟨.return_ none .blank⟩

variable {self : Production σ Stmt} {expr : Production σ Expr} {budget : Nat} {p : Parser σ}

theorem viable_typeName (p : Parser σ) :
    Viable p (Derived fun t : Grammar.TypeName => [t.content]) (typeName p) := by
  have hreject : Viable p (Derived fun t : Grammar.TypeName => [t.content])
      ((reject .typeName : Production σ TypeName) p) := viable_reject ⟨_, .name "", rfl⟩ _
  unfold typeName
  rw [content_bind]
  cases hc : p.current.content with
  | identifier name =>
    exact .advance hc Token.Content.noConfusion fun t q => viable_pure ⟨.name name, rfl⟩
  | keyword word script =>
    dsimp only
    split
    · next hw =>
      subst hw
      exact .advance hc Token.Content.noConfusion fun t q => viable_pure ⟨.tensor script, rfl⟩
    · exact hreject
  | number x => exact hreject
  | string text => exact hreject
  | operator symbol => exact hreject
  | delimiter mark => exact hreject
  | endOfInput => exact hreject

theorem viable_ascription? (p : Parser σ) :
    Viable p (Derived Grammar.ascriptionTokens) (ascription? p) := by
  unfold ascription?
  rw [accept_bind]
  split
  · next hc =>
    refine .advance hc Token.Content.noConfusion fun t q => (viable_typeName q).bind ?_
    rintro name r us ⟨d, rfl⟩
    exact viable_pure ⟨some d, rfl⟩
  · exact viable_pure ⟨none, rfl⟩

theorem viable_resultType? (p : Parser σ) :
    Viable p (Derived Grammar.resultTokens) (resultType? p) := by
  unfold resultType?
  rw [accept_bind]
  split
  · next hc =>
    refine .advance hc Token.Content.noConfusion fun t q => ?_
    refine .expect Token.Content.noConfusion _ fun arrow r => (viable_typeName r).bind ?_
    rintro name s us ⟨d, rfl⟩
    exact viable_pure ⟨some d, rfl⟩
  · exact viable_pure ⟨none, rfl⟩

theorem viable_initial? (h : ∀ p, Viable p (Derived Expression.tokens) (expr p)) (p : Parser σ) :
    Viable p (Derived Grammar.initialTokens) (initial? expr p) := by
  unfold initial?
  rw [accept_bind]
  split
  · next hc =>
    refine .advance hc Token.Content.noConfusion fun t q => (h q).bind ?_
    rintro e r us ⟨d, rfl⟩
    exact viable_pure ⟨some d, by simp [Grammar.initialTokens, Grammar.optional]⟩
  · exact viable_pure ⟨none, rfl⟩

theorem viable_returned? (h : ∀ p, Viable p (Derived Expression.tokens) (expr p))
    (p : Parser σ) :
    Viable p (Derived (Grammar.optional [] Expression.tokens)) (returned? expr p) := by
  unfold returned?
  rw [content_bind]
  split
  · exact viable_pure ⟨none, rfl⟩
  · apply (h p).bind
    rintro e q us ⟨d, rfl⟩
    exact viable_pure ⟨some d, by simp [Grammar.optional]⟩

theorem viable_parameter (p : Parser σ) :
    Viable p (Derived Grammar.Parameter.tokens) (parameter p) := by
  unfold parameter
  refine .identifier _ fun a q name => (viable_ascription? q).bind ?_
  rintro t r us ⟨d, rfl⟩
  exact viable_lastStop fun stop => viable_pure ⟨⟨name, d⟩, by simp [Grammar.Parameter.tokens]⟩

theorem viable_block (h : ∀ p, Viable p (Derived Statement.tokens) (self p)) (p : Parser σ) :
    Viable p (Derived Grammar.Block.tokens) (block self budget p) := by
  unfold block
  refine .expect Token.Content.noConfusion _ fun opening q => ?_
  apply (viable_itemsUntil h closesBlock budget q).bind
  rintro ss r us ⟨ds, rfl⟩
  refine .expect Token.Content.noConfusion _ fun closing s => viable_pure ⟨.mk ds, ?_⟩
  simp [Grammar.Block.tokens, Statement.tokensOfList_eq_flatten]

theorem viable_functionDeclaration (h : ∀ p, Viable p (Derived Statement.tokens) (self p))
    {script : Script} (hc : p.current.content = .keyword .fn script) :
    Viable p (Derived Statement.tokens) (functionDeclaration self budget p) := by
  unfold functionDeclaration
  refine .advance hc Token.Content.noConfusion fun first q => ?_
  refine .identifier _ fun a r name => ?_
  refine .expect Token.Content.noConfusion _ fun opening s => ?_
  apply (viable_commaList? viable_parameter budget s).bind
  rintro ps t us ⟨ds, rfl⟩
  refine .expect Token.Content.noConfusion _ fun closing u => ?_
  apply (viable_resultType? u).bind
  rintro result v us ⟨r, rfl⟩
  apply (viable_block h v).bind
  rintro body w us ⟨b, rfl⟩
  exact viable_pure ⟨.function script name ds r b, by simp [Statement.tokens]⟩

theorem viable_variableDeclaration (h : ∀ p, Viable p (Derived Expression.tokens) (expr p))
    (constant : Bool) {script : Script}
    (hc : p.current.content = .keyword (if constant then .const else .let_) script) :
    Viable p (Derived Statement.tokens) (variableDeclaration expr constant p) := by
  unfold variableDeclaration
  refine .advance hc Token.Content.noConfusion fun first q => ?_
  refine .identifier _ fun a r name => ?_
  apply (viable_ascription? r).bind
  rintro t s us ⟨d, rfl⟩
  apply (viable_initial? h s).bind
  rintro e u us ⟨i, rfl⟩
  refine .expect Token.Content.noConfusion _ fun close v => ?_
  refine viable_lastStop fun stop => viable_pure ⟨.binding constant script name d i, ?_⟩
  simp [Statement.tokens]

theorem viable_nested (h : ∀ p, Viable p (Derived Statement.tokens) (self p))
    (hc : isKeyword .if_ p.current.content = true) :
    Viable p (Derived Grammar.Conditional.tokens) (self p) := by
  obtain ⟨script, hif⟩ := isKeyword_content hc
  have hnil : ¬ Derived Statement.tokens [] := by
    rintro ⟨d, hd⟩
    obtain ⟨c, us, hcons, -⟩ := d.tokens_start
    rw [hd] at hcons
    cases hcons
  have hex : ∃ us, Derived Statement.tokens (p.current.content :: us) := by
    rw [hif]
    exact ⟨_, .conditional (.mk script (.plain (Grammar.Unary.tier (.primary (.name "")) 6))
      (.mk []) .absent), rfl⟩
  refine ((h p).first hnil hex).mono ?_
  rintro us ⟨⟨d, rfl⟩, vs, hvs⟩
  rw [hif] at hvs
  obtain ⟨c, rfl⟩ := Statement.eq_conditional hvs
  exact ⟨c, rfl⟩

theorem viable_alternative (h : ∀ p, Viable p (Derived Statement.tokens) (self p))
    (script : Script) (p : Parser σ) :
    Viable p (fun us => Derived Grammar.Alternative.tokens (.keyword .else_ script :: us))
      (alternative self budget p) := by
  unfold alternative
  rw [content_bind]
  split
  · next hc =>
    apply (viable_nested h hc).bind
    rintro s q us ⟨c, rfl⟩
    exact viable_pure ⟨.conditional script c, by simp [Grammar.Alternative.tokens]⟩
  · refine (viable_block h p).mono ?_
    rintro us ⟨d, rfl⟩
    exact ⟨.block script d, rfl⟩

theorem viable_conditional (h : ∀ p, Viable p (Derived Statement.tokens) (self p))
    (hx : ∀ p, Viable p (Derived Expression.tokens) (expr p)) {script : Script}
    (hc : p.current.content = .keyword .if_ script) :
    Viable p (Derived Statement.tokens) (conditional self expr budget p) := by
  unfold conditional
  refine .advance hc Token.Content.noConfusion fun first q => ?_
  apply (hx q).bind
  rintro condition r us ⟨c, rfl⟩
  apply (viable_block h r).bind
  rintro yes s us ⟨b, rfl⟩
  rw [content_bind]
  split
  · next he =>
    obtain ⟨other, ho⟩ := isKeyword_content he
    refine .advance ho Token.Content.noConfusion fun t u => ?_
    apply (viable_alternative h other u).bind
    rintro no v us ⟨d, hd⟩
    refine viable_lastStop fun stop => viable_pure ⟨.conditional (.mk script c b d), ?_⟩
    simp [Statement.tokens, Grammar.Conditional.tokens, hd]
  · refine viable_lastStop fun stop => viable_pure ⟨.conditional (.mk script c b .absent), ?_⟩
    simp [Statement.tokens, Grammar.Conditional.tokens, Grammar.Alternative.tokens]

theorem viable_loop (h : ∀ p, Viable p (Derived Statement.tokens) (self p))
    (hx : ∀ p, Viable p (Derived Expression.tokens) (expr p)) {script : Script}
    (hc : p.current.content = .keyword .while_ script) :
    Viable p (Derived Statement.tokens) (loop self expr budget p) := by
  unfold loop
  refine .advance hc Token.Content.noConfusion fun first q => ?_
  apply (hx q).bind
  rintro condition r us ⟨c, rfl⟩
  apply (viable_block h r).bind
  rintro body s us ⟨b, rfl⟩
  exact viable_pure ⟨.loop script c b, by simp [Statement.tokens]⟩

theorem viable_returnStatement (h : ∀ p, Viable p (Derived Expression.tokens) (expr p))
    {script : Script} (hc : p.current.content = .keyword .return_ script) :
    Viable p (Derived Statement.tokens) (returnStatement expr p) := by
  unfold returnStatement
  refine .advance hc Token.Content.noConfusion fun first q => ?_
  apply (viable_returned? h q).bind
  rintro value r us ⟨d, rfl⟩
  refine .expect Token.Content.noConfusion _ fun close s => ?_
  exact viable_lastStop fun stop => viable_pure ⟨.leave script d, by simp [Statement.tokens]⟩

theorem viable_expressionStatement (h : ∀ p, Viable p (Derived Expression.tokens) (expr p))
    (p : Parser σ) : Viable p (Derived Statement.tokens) (expressionStatement expr p) := by
  unfold expressionStatement
  refine viable_currentStart fun start => (h p).bind ?_
  rintro e q us ⟨d, rfl⟩
  refine .expect Token.Content.noConfusion _ fun close r => ?_
  exact viable_lastStop fun stop => viable_pure ⟨.expression d, by simp [Statement.tokens]⟩

theorem viable_keywordStatement (h : ∀ p, Viable p (Derived Statement.tokens) (self p))
    (hx : ∀ p, Viable p (Derived Expression.tokens) (expr p)) {word : Keyword} {script : Script}
    (hc : p.current.content = .keyword word script) :
    Viable p (Derived Statement.tokens) (keywordStatement self expr budget word p) := by
  cases word with
  | fn => exact viable_functionDeclaration h hc
  | let_ => exact viable_variableDeclaration hx false hc
  | const => exact viable_variableDeclaration hx true hc
  | if_ => exact viable_conditional h hx hc
  | while_ => exact viable_loop h hx hc
  | return_ => exact viable_returnStatement hx hc
  | _ => exact viable_reject ⟨_, .leave .latin none, rfl⟩ _

theorem viable_statement :
    ∀ n p, Viable p (Derived Statement.tokens) (statement n p : Reply _ (Parser σ) _) := by
  intro n
  induction n with
  | zero => exact fun p => viable_exhausted ⟨_, .leave .latin none, rfl⟩
  | succ n ih =>
    intro p
    unfold statement statementForm
    rw [content_bind]
    cases hc : p.current.content with
    | keyword word script => exact viable_keywordStatement ih (viable_expression _) hc
    | _ => exact viable_expressionStatement (viable_expression _) p

theorem viable_program (n : Nat) (p : Parser σ) :
    Viable p (Derived Grammar.Program.tokens) (program n p) := by
  unfold program
  apply (viable_itemsUntil (viable_statement n) _ n p).bind
  rintro ss q us ⟨ds, rfl⟩
  exact viable_pure ⟨⟨ds⟩, by simp [Grammar.Program.tokens, Statement.tokensOfList_eq_flatten]⟩

end Statements

end Parser
end Dvilipi
