import Dvilipi.Parser.Statement

/-!
Productions come to an end. `pending` counts the tokens that a parser has in front of it, up to what
its source may hold. Expressions and statements leave fewer tokens pending than they find, nothing
leaves more, and no production gives up while its budget exceeds the pending tokens.
-/

namespace Dvilipi.Parser
set_option autoImplicit false

variable {σ α β : Type} [TokenSource σ]

/-- A bound on the number of tokens from the current one to the end. -/
def pending (p : Parser σ) : Nat :=
  TokenSource.remaining p.source + if p.current.isEnd then 0 else 1

/-- The reply is no giving up, and a success leaves fewer than `k` tokens pending. -/
def Below (k : Nat) : Reply ParseError (Parser σ) α → Prop
  | .ok _ q => q.pending < k
  | .failed _ _ => True
  | .exhausted => False

theorem Below.ne_exhausted {k : Nat} {r : Reply ParseError (Parser σ) α} (h : Below k r) :
    r ≠ .exhausted := by
  rintro rfl
  exact h

theorem Below.mono {j k : Nat} {r : Reply ParseError (Parser σ) α} (h : Below j r) (hjk : j ≤ k) :
    Below k r := by
  cases r with
  | ok a q => exact Nat.lt_of_lt_of_le h hjk
  | failed e q => trivial
  | exhausted => exact h

theorem Below.bind {j k : Nat} {P : Production σ α} {f : α → Production σ β} {p : Parser σ}
    (h : Below j (P p)) (hf : ∀ a q, q.pending < j → Below k (f a q)) :
    Below k ((P >>= f) p) := by
  rw [Action.bind_apply]
  cases hp : P p with
  | ok a q =>
    rw [hp] at h
    exact hf a q h
  | failed e q => trivial
  | exhausted =>
    rw [hp] at h
    exact h

theorem below_pure {k : Nat} {p : Parser σ} (h : p.pending < k) (a : α) :
    Below k ((pure a : Production σ α) p) := h

theorem below_reject (k : Nat) (expected : Expected) (p : Parser σ) :
    Below k ((reject expected : Production σ α) p) := trivial

omit [TokenSource σ] in
theorem ne_end_of_eq {p : Parser σ} {c : Token.Content} (hc : p.current.content = c)
    (h : c ≠ .endOfInput) : p.current.content ≠ .endOfInput := by
  rwa [hc]

theorem below_advance {p : Parser σ} (he : p.current.content ≠ .endOfInput) :
    Below p.pending (advance p) := by
  have hc : p.current.isEnd = false := by simpa [Token.isEnd] using he
  unfold advance
  cases hn : TokenSource.next p.source with
  | mk r rest =>
    cases r with
    | error e => trivial
    | ok t =>
      have hle := TokenSource.remaining_le hn
      have hlt := TokenSource.remaining_lt hn
      simp only [Below, pending, hc, if_neg Bool.false_ne_true]
      cases ht : t.isEnd with
      | true =>
        simp only [if_true]
        omega
      | false =>
        have := hlt ht
        simp only [if_neg Bool.false_ne_true]
        omega

theorem below_expect {p : Parser σ} {c : Token.Content} (hc : c ≠ .endOfInput)
    (expected : Expected) : Below p.pending (expect c expected p) := by
  unfold expect
  rw [content_bind]
  split
  · next he => exact below_advance (ne_end_of_eq he hc)
  · exact below_reject _ expected p

theorem below_identifier (p : Parser σ) (expected : Expected) :
    Below p.pending (identifier expected p) := by
  unfold identifier
  rw [content_bind]
  cases hc : p.current.content with
  | identifier name =>
    exact (below_advance (ne_end_of_eq hc Token.Content.noConfusion)).bind
      fun t q hq => below_pure hq _
  | _ => exact below_reject _ expected p

/-- With fewer than `n` tokens pending, the production comes to an end and takes at least one. -/
def Takes (n : Nat) (P : Production σ α) : Prop :=
  ∀ p, p.pending < n → Below p.pending (P p)

theorem below_commaList {n : Nat} {item : Production σ α} (h : Takes n item) :
    ∀ m p, p.pending < m → p.pending < n → Below p.pending (commaList item m p) := by
  intro m
  induction m with
  | zero => exact fun p hm _ => absurd hm (Nat.not_lt_zero _)
  | succ m ih =>
    intro p hm hn
    unfold commaList
    refine (h p hn).bind fun a q hq => ?_
    rw [accept_bind]
    split
    · next he =>
      refine (below_advance (ne_end_of_eq he Token.Content.noConfusion)).bind fun t r hr => ?_
      refine (ih r (by omega) (by omega)).bind fun as u hu => ?_
      exact below_pure (by omega) _
    · exact below_pure hq _

theorem below_commaList? {n m k : Nat} {item : Production σ α} (h : Takes n item) {p : Parser σ}
    (hm : p.pending < m) (hn : p.pending < n) (hk : p.pending < k) :
    Below k (commaList? item m p) := by
  unfold commaList?
  rw [content_bind]
  split
  · exact below_pure hk _
  · exact (below_commaList h m p hm hn).mono (Nat.le_of_lt hk)

theorem below_itemsUntil {n : Nat} {item : Production σ α} (h : Takes n item)
    (stops : Token.Content → Bool) :
    ∀ m p, p.pending < m → p.pending < n →
      Below (p.pending + 1) (itemsUntil stops item m p) := by
  intro m
  induction m with
  | zero => exact fun p hm _ => absurd hm (Nat.not_lt_zero _)
  | succ m ih =>
    intro p hm hn
    unfold itemsUntil
    rw [content_bind]
    split
    · exact below_pure (Nat.lt_succ_self _) _
    · refine (h p hn).bind fun a q hq => ?_
      refine (ih q (by omega) (by omega)).bind fun as r hr => ?_
      exact below_pure (by omega) _

section Expressions

variable {n budget : Nat} {self : Production σ Expr} {p : Parser σ}

theorem below_call {k : Nat} (h : Takes n self) (hn : p.pending ≤ n) (hb : p.pending ≤ budget)
    (hk : p.pending ≤ k) (he : p.current.content ≠ .endOfInput) (callee : String) (start : Nat) :
    Below k (call self budget callee start p) := by
  unfold call
  refine (below_advance he).bind fun t q hq => ?_
  refine (below_commaList? h (by omega) (by omega) (Nat.lt_succ_self _)).bind fun es r hr => ?_
  refine (below_expect Token.Content.noConfusion _).bind fun close u hu => ?_
  exact below_pure (by omega) _

theorem below_named (h : Takes n self) (hn : p.pending ≤ n) (hb : p.pending ≤ budget)
    (he : p.current.content ≠ .endOfInput) (name : String) :
    Below p.pending (named self budget name p) := by
  unfold named
  refine (below_advance he).bind fun t q hq => ?_
  rw [content_bind]
  split
  · next ho =>
    have hc := ne_end_of_eq ho Token.Content.noConfusion
    exact below_call h (by omega) (by omega) (by omega) hc _ _
  · exact below_pure hq _

theorem below_group (h : Takes n self) (hn : p.pending ≤ n)
    (he : p.current.content ≠ .endOfInput) : Below p.pending (group self p) := by
  unfold group
  refine (below_advance he).bind fun t q hq => ?_
  refine (h q (by omega)).bind fun e r hr => ?_
  refine (below_expect Token.Content.noConfusion _).bind fun close u hu => ?_
  exact below_pure (by omega) _

theorem below_primary (h : Takes n self) (hn : p.pending ≤ n) (hb : p.pending ≤ budget) :
    Below p.pending (primary self budget p) := by
  unfold primary
  rw [content_bind]
  cases hc : p.current.content with
  | number value =>
    exact (below_advance (ne_end_of_eq hc Token.Content.noConfusion)).bind
      fun t q hq => below_pure hq _
  | string text =>
    exact (below_advance (ne_end_of_eq hc Token.Content.noConfusion)).bind
      fun t q hq => below_pure hq _
  | identifier name =>
    exact below_named h hn hb (ne_end_of_eq hc Token.Content.noConfusion) name
  | delimiter mark =>
    dsimp only
    split
    · exact below_group h hn (ne_end_of_eq hc Token.Content.noConfusion)
    · exact below_reject _ _ p
  | keyword word script => exact below_reject _ _ p
  | operator symbol => exact below_reject _ _ p
  | endOfInput => exact below_reject _ _ p

theorem below_unary (h : Takes n self) (hnb : n ≤ budget) :
    ∀ m (p : Parser σ), p.pending < m → p.pending ≤ n →
      Below p.pending (unary self budget m p) := by
  intro m
  induction m with
  | zero => exact fun p hm _ => absurd hm (Nat.not_lt_zero _)
  | succ m ih =>
    intro p hm hn
    unfold unary
    rw [content_bind]
    cases ho : unaryOp? p.current.content with
    | some op =>
      have he : p.current.content ≠ .endOfInput := fun he => by
        rw [he] at ho
        cases ho
      refine (below_advance he).bind fun t q hq => ?_
      refine (ih q (by omega) (by omega)).bind fun e r hr => ?_
      exact below_pure (by omega) _
    | none => exact below_primary h hn (by omega)

theorem below_infixTail {operand : Production σ Expr} (h : Takes n operand) (level : Nat) :
    ∀ m left (p : Parser σ), p.pending < m → p.pending < n →
      Below (p.pending + 1) (infixTail operand level m left p) := by
  intro m
  induction m with
  | zero => exact fun left p hm _ => absurd hm (Nat.not_lt_zero _)
  | succ m ih =>
    intro left p hm hn
    unfold infixTail
    rw [content_bind]
    cases ho : infixOp? level p.current.content with
    | some op =>
      have he : p.current.content ≠ .endOfInput := fun he => by
        rw [he] at ho
        cases ho
      refine (below_advance he).bind fun t q hq => ?_
      refine (h q (by omega)).bind fun right r hr => ?_
      exact (ih _ r (by omega) (by omega)).mono (by omega)
    | none => exact below_pure (Nat.lt_succ_self _) _

theorem takes_tier (h : Takes n self) (hb : n < budget) :
    ∀ level, Takes (n + 1) (tier self budget level) := by
  intro level
  induction level with
  | zero => exact fun p hp => below_unary h (by omega) budget p (by omega) (by omega)
  | succ level ih =>
    intro p hp
    unfold tier
    refine (ih p hp).bind fun left q hq => ?_
    exact (below_infixTail ih level budget left q (by omega) (by omega)).mono (by omega)

theorem below_assign {k : Nat} (h : p.pending < k) (equals : Token) (target value : Expr) :
    Below k (assign equals target value p) := by
  cases target with
  | reference name s => exact below_pure h _
  | _ => trivial

theorem takes_assignment (h : Takes n self) (hb : n < budget) :
    Takes (n + 1) (assignment self budget) := by
  intro p hp
  unfold assignment
  refine (takes_tier h hb _ p hp).bind fun target q hq => ?_
  rw [content_bind]
  split
  · next he =>
    refine (below_advance (ne_end_of_eq he Token.Content.noConfusion)).bind fun t r hr => ?_
    refine (h r (by omega)).bind fun value u hu => ?_
    exact below_assign (by omega) _ _ _
  · exact below_pure hq _

end Expressions

theorem takes_expression : ∀ n, Takes n (expression (n + 1) : Production σ Expr) := by
  intro n
  induction n with
  | zero => exact fun p hp => absurd hp (Nat.not_lt_zero _)
  | succ n ih => exact takes_assignment ih (Nat.lt_succ_self n)

theorem takes_typeName {n : Nat} : Takes n (typeName : Production σ TypeName) := by
  intro p _
  unfold typeName
  rw [content_bind]
  cases hc : p.current.content with
  | identifier name =>
    exact (below_advance (ne_end_of_eq hc Token.Content.noConfusion)).bind
      fun t q hq => below_pure hq _
  | keyword word script =>
    dsimp only
    split
    · exact (below_advance (ne_end_of_eq hc Token.Content.noConfusion)).bind
        fun t q hq => below_pure hq _
    · exact below_reject _ _ p
  | number value => exact below_reject _ _ p
  | string text => exact below_reject _ _ p
  | operator symbol => exact below_reject _ _ p
  | delimiter mark => exact below_reject _ _ p
  | endOfInput => exact below_reject _ _ p

theorem below_ascription? {k : Nat} {p : Parser σ} (hk : p.pending < k) :
    Below k (ascription? p) := by
  unfold ascription?
  rw [accept_bind]
  split
  · next he =>
    refine (below_advance (ne_end_of_eq he Token.Content.noConfusion)).bind fun t q hq => ?_
    refine (takes_typeName q (Nat.lt_succ_self _)).bind fun name r hr => ?_
    exact below_pure (by omega) _
  · exact below_pure hk _

theorem takes_parameter {n : Nat} : Takes n (parameter : Production σ Parameter) := by
  intro p _
  unfold parameter
  refine (below_identifier p _).bind fun name q hq => ?_
  refine (below_ascription? hq).bind fun t r hr => ?_
  exact below_pure hr _

theorem below_resultType? {k : Nat} {p : Parser σ} (hk : p.pending < k) :
    Below k (resultType? p) := by
  unfold resultType?
  rw [accept_bind]
  split
  · next he =>
    refine (below_advance (ne_end_of_eq he Token.Content.noConfusion)).bind fun t q hq => ?_
    refine (below_expect Token.Content.noConfusion _).bind fun arrow r hr => ?_
    refine (takes_typeName r (Nat.lt_succ_self _)).bind fun name u hu => ?_
    exact below_pure (by omega) _
  · exact below_pure hk _

section Statements

variable {n budget : Nat} {self : Production σ Stmt} {expr : Production σ Expr} {p : Parser σ}

theorem below_block (h : Takes n self) (hn : p.pending ≤ n) (hb : p.pending ≤ budget) :
    Below p.pending (block self budget p) := by
  unfold block
  refine (below_expect Token.Content.noConfusion _).bind fun opening q hq => ?_
  refine (below_itemsUntil h _ budget q (by omega) (by omega)).bind fun ss r hr => ?_
  refine (below_expect Token.Content.noConfusion _).bind fun closing u hu => ?_
  exact below_pure (by omega) _

theorem below_functionDeclaration (h : Takes n self) (hn : p.pending ≤ n)
    (hb : p.pending ≤ budget) (he : p.current.content ≠ .endOfInput) :
    Below p.pending (functionDeclaration self budget p) := by
  unfold functionDeclaration
  refine (below_advance he).bind fun first q hq => ?_
  refine (below_identifier q _).bind fun name r hr => ?_
  refine (below_expect Token.Content.noConfusion _).bind fun opening u hu => ?_
  refine (below_commaList? takes_parameter (by omega) (Nat.lt_succ_self _)
    (Nat.lt_succ_self _)).bind fun ps v hv => ?_
  refine (below_expect Token.Content.noConfusion _).bind fun closing w hw => ?_
  refine (below_resultType? (Nat.lt_succ_self _)).bind fun result x hx => ?_
  refine (below_block h (by omega) (by omega)).bind fun body y hy => ?_
  exact below_pure (by omega) _

theorem below_initial? {k : Nat} (h : Takes n expr) (hn : p.pending ≤ n) (hk : p.pending < k) :
    Below k (initial? expr p) := by
  unfold initial?
  rw [accept_bind]
  split
  · next he =>
    refine (below_advance (ne_end_of_eq he Token.Content.noConfusion)).bind fun t q hq => ?_
    refine (h q (by omega)).bind fun e r hr => ?_
    exact below_pure (by omega) _
  · exact below_pure hk _

theorem below_variableDeclaration (h : Takes n expr) (hn : p.pending ≤ n)
    (he : p.current.content ≠ .endOfInput) (constant : Bool) :
    Below p.pending (variableDeclaration expr constant p) := by
  unfold variableDeclaration
  refine (below_advance he).bind fun first q hq => ?_
  refine (below_identifier q _).bind fun name r hr => ?_
  refine (below_ascription? hr).bind fun t u hu => ?_
  refine (below_initial? h (by omega) (Nat.lt_succ_self _)).bind fun e v hv => ?_
  refine (below_expect Token.Content.noConfusion _).bind fun stop w hw => ?_
  exact below_pure (by omega) _

theorem ne_end_of_isKeyword {word : Keyword} {c : Token.Content} (h : isKeyword word c = true) :
    c ≠ .endOfInput := by
  rintro rfl
  cases h

theorem below_alternative (h : Takes n self) (hn : p.pending < n) (hb : p.pending ≤ budget) :
    Below p.pending (alternative self budget p) := by
  unfold alternative
  rw [content_bind]
  split
  · refine (h p hn).bind fun nested q hq => ?_
    exact below_pure hq _
  · exact below_block h (Nat.le_of_lt hn) hb

theorem below_conditional (h : Takes n self) (hx : Takes n expr) (hn : p.pending ≤ n)
    (hb : p.pending ≤ budget) (he : p.current.content ≠ .endOfInput) :
    Below p.pending (conditional self expr budget p) := by
  unfold conditional
  refine (below_advance he).bind fun first q hq => ?_
  refine (hx q (by omega)).bind fun condition r hr => ?_
  refine (below_block h (by omega) (by omega)).bind fun yes u hu => ?_
  rw [content_bind]
  split
  · next hk =>
    refine (below_advance (ne_end_of_isKeyword hk)).bind fun t v hv => ?_
    refine (below_alternative h (by omega) (by omega)).bind fun no w hw => ?_
    exact below_pure (by omega) _
  · exact below_pure (by omega) _

theorem below_loop (h : Takes n self) (hx : Takes n expr) (hn : p.pending ≤ n)
    (hb : p.pending ≤ budget) (he : p.current.content ≠ .endOfInput) :
    Below p.pending (loop self expr budget p) := by
  unfold loop
  refine (below_advance he).bind fun first q hq => ?_
  refine (hx q (by omega)).bind fun condition r hr => ?_
  refine (below_block h (by omega) (by omega)).bind fun body u hu => ?_
  exact below_pure (by omega) _

theorem below_returned? {k : Nat} (h : Takes n expr) (hn : p.pending < n) (hk : p.pending < k) :
    Below k (returned? expr p) := by
  unfold returned?
  rw [content_bind]
  split
  · exact below_pure hk _
  · refine (h p hn).bind fun e q hq => ?_
    exact below_pure (by omega) _

theorem below_returnStatement (h : Takes n expr) (hn : p.pending ≤ n)
    (he : p.current.content ≠ .endOfInput) : Below p.pending (returnStatement expr p) := by
  unfold returnStatement
  refine (below_advance he).bind fun first q hq => ?_
  refine (below_returned? h (by omega) (Nat.lt_succ_self _)).bind fun e r hr => ?_
  refine (below_expect Token.Content.noConfusion _).bind fun stop u hu => ?_
  exact below_pure (by omega) _

theorem below_expressionStatement (h : Takes n expr) (hn : p.pending < n) :
    Below p.pending (expressionStatement expr p) := by
  unfold expressionStatement
  refine (h p hn).bind fun e q hq => ?_
  refine (below_expect Token.Content.noConfusion _).bind fun stop r hr => ?_
  exact below_pure (by omega) _

theorem below_keywordStatement (h : Takes n self) (hx : Takes n expr) (hn : p.pending ≤ n)
    (hb : p.pending ≤ budget) (he : p.current.content ≠ .endOfInput) (word : Keyword) :
    Below p.pending (keywordStatement self expr budget word p) := by
  cases word with
  | fn => exact below_functionDeclaration h hn hb he
  | let_ => exact below_variableDeclaration hx hn he false
  | const => exact below_variableDeclaration hx hn he true
  | if_ => exact below_conditional h hx hn hb he
  | while_ => exact below_loop h hx hn hb he
  | return_ => exact below_returnStatement hx hn he
  | _ => exact below_reject _ _ p

theorem takes_statementForm (h : Takes n self) (hx : Takes (n + 1) expr) (hb : n ≤ budget) :
    Takes (n + 1) (statementForm self expr budget) := by
  intro p hp
  have hx' : Takes n expr := fun q hq => hx q (Nat.lt_succ_of_lt hq)
  unfold statementForm
  rw [content_bind]
  cases hc : p.current.content with
  | keyword word script =>
    exact below_keywordStatement h hx' (by omega) (by omega)
      (ne_end_of_eq hc Token.Content.noConfusion) word
  | _ => exact below_expressionStatement hx hp

end Statements

theorem takes_statement : ∀ n, Takes n (statement (n + 1) : Production σ Stmt) := by
  intro n
  induction n with
  | zero => exact fun p hp => absurd hp (Nat.not_lt_zero _)
  | succ n ih => exact takes_statementForm ih (takes_expression (n + 1)) (Nat.le_succ n)

theorem below_program {n : Nat} {p : Parser σ} (h : p.pending < n) :
    Below (p.pending + 1) (program (n + 1) p) := by
  unfold program
  refine (below_itemsUntil (takes_statement n) _ (n + 1) p (by omega) h).bind fun ss q hq => ?_
  exact below_pure hq _

end Dvilipi.Parser
