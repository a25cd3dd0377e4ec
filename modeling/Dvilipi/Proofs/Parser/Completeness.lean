import Mathlib.Data.List.Forall2
import Dvilipi.Parser.Source
import Dvilipi.Proofs.Grammar.Follow
import Dvilipi.Proofs.Parser.Steps

/-!
The parser accepts what is derivable: a production that meets the tokens of a derivation, and then a
token that ends them, takes these tokens and gives a result with the tree of the derivation.
-/

namespace Dvilipi
set_option autoImplicit false

namespace Grammar

theorem Expression.forall₂_of_treeOfList? {ds : List Expression} {ts : List Expr}
    (h : Expression.treeOfList? ds = some ts) :
    List.Forall₂ (fun d t => d.tree? = some t) ds ts := by
  induction ds generalizing ts with
  | nil =>
    cases h
    exact .nil
  | cons d ds ih =>
    unfold Expression.treeOfList? at h
    split at h
    · next ht hts =>
      cases h
      exact .cons ht (ih hts)
    · cases h

theorem Statement.forall₂_of_treeOfList? {ds : List Statement} {ts : List Stmt}
    (h : Statement.treeOfList? ds = some ts) :
    List.Forall₂ (fun d t => d.tree? = some t) ds ts := by
  induction ds generalizing ts with
  | nil =>
    cases h
    exact .nil
  | cons d ds ih =>
    unfold Statement.treeOfList? at h
    split at h
    · next ht hts =>
      cases h
      exact .cons ht (ih hts)
    · cases h

end Grammar

namespace Parser

open Grammar (commas InfixAt EndsTier EndsExpression endsExpression_delimiter)

variable {σ α δ τ : Type} [TokenSource σ]

/-- With fewer than `n` tokens pending, the production reads the tokens of every derivation that has a
tree, provided that a token which `ends` them follows; the bare result is the tree. -/
def Covers (n : Nat) (ends : Token.Content → Prop) (tokens : δ → List Token.Content)
    (tree? : δ → Option τ) (bare : α → τ) (P : Production σ α) : Prop :=
  ∀ ⦃d : δ⦄ ⦃t : τ⦄ ⦃p q : Parser σ⦄, tree? d = some t → p.pending < n → Took p (tokens d) q →
    ends q.current.content → Completes q (fun a => bare a = t) (P p)

section Lists

variable {n : Nat} {ends : Token.Content → Prop} {tokens : δ → List Token.Content}
  {tree? : δ → Option τ} {bare : α → τ} {item : Production σ α}

theorem completes_commaList (h : Covers n ends tokens tree? bare item)
    (hcomma : ends (.delimiter ',')) (hclose : ends (.delimiter ')')) {ds : List δ} {ts : List τ}
    (hds : List.Forall₂ (fun d t => tree? d = some t) ds ts) (hne : ds ≠ []) :
    ∀ {m : Nat} {p q : Parser σ}, p.pending < n → p.pending < m →
      Took p (commas (ds.map tokens)) q → q.current.content = .delimiter ')' →
      Completes q (fun as => as.map bare = ts) (commaList item m p) := by
  induction hds with
  | nil => exact absurd rfl hne
  | @cons d t ds ts hd hds ih =>
    intro m p q hn hm htook hq
    obtain ⟨m, rfl⟩ : ∃ k, m = k + 1 := ⟨m - 1, by omega⟩
    unfold commaList
    cases ds with
    | nil =>
      apply (h hd hn htook (hq ▸ hclose)).bind
      intro a ha
      rw [accept_bind, if_neg (by rw [hq]; decide)]
      cases hds
      exact completes_pure (by rw [List.map_cons, ha, List.map_nil])
    | cons d' ds =>
      have hsplit : Took p (tokens d ++ .delimiter ',' :: commas ((d' :: ds).map tokens)) q := htook
      obtain ⟨r, hr, hrle, hrest⟩ := hsplit.split
      obtain ⟨hc, s, hs, hslt, hrest⟩ := hrest.uncons
      apply (h hd hn hr (hc ▸ hcomma)).bind
      intro a ha
      rw [accept_bind, if_pos hc]
      apply (completes_advance hs).bind
      intro _ _
      apply (ih (List.cons_ne_nil _ _) (by omega) (by omega) hrest hq).bind
      intro as has
      exact completes_pure (by rw [List.map_cons, ha, has])

/-- No item begins with a closing parenthesis, so an empty list is told from others at once. -/
theorem completes_commaList? (h : Covers n ends tokens tree? bare item)
    (hcomma : ends (.delimiter ',')) (hclose : ends (.delimiter ')'))
    (hstart : ∀ d, ∃ c us, tokens d = c :: us ∧ c ≠ .delimiter ')') {ds : List δ} {ts : List τ}
    (hds : List.Forall₂ (fun d t => tree? d = some t) ds ts) {m : Nat} {p q : Parser σ}
    (hn : p.pending < n) (hm : p.pending < m) (htook : Took p (commas (ds.map tokens)) q)
    (hq : q.current.content = .delimiter ')') :
    Completes q (fun as => as.map bare = ts) (commaList? item m p) := by
  unfold commaList?
  rw [content_bind]
  cases hds with
  | nil =>
    obtain rfl := Took.nil_iff.mp htook
    rw [if_pos hq]
    exact completes_pure rfl
  | @cons d t ds ts hd hds =>
    obtain ⟨c, us, hd', hc⟩ := hstart d
    have hhead : ∃ vs, commas ((d :: ds).map tokens) = c :: vs := by
      cases ds with
      | nil => exact ⟨us, hd'⟩
      | cons d' ds => exact ⟨_, by rw [List.map_cons, List.map_cons, commas, hd', List.cons_append]⟩
    obtain ⟨vs, hvs⟩ := hhead
    have hp : p.current.content = c := (hvs ▸ htook).uncons.1
    rw [if_neg (by rw [hp]; exact hc)]
    exact completes_commaList h hcomma hclose (.cons hd hds) (List.cons_ne_nil _ _) hn hm htook hq

theorem completes_itemsUntil (h : Covers n ends tokens tree? bare item)
    {stops : Token.Content → Bool}
    (hstart : ∀ d, ∃ c us, tokens d = c :: us ∧ stops c = false ∧ ends c) {ds : List δ} {ts : List τ}
    (hds : List.Forall₂ (fun d t => tree? d = some t) ds ts) :
    ∀ {m : Nat} {p q : Parser σ}, p.pending < n → p.pending < m →
      Took p (ds.map tokens).flatten q → stops q.current.content = true → ends q.current.content →
      Completes q (fun as => as.map bare = ts) (itemsUntil stops item m p) := by
  induction hds with
  | nil =>
    intro m p q hn hm htook hs _
    obtain ⟨m, rfl⟩ : ∃ k, m = k + 1 := ⟨m - 1, by omega⟩
    obtain rfl := Took.nil_iff.mp htook
    unfold itemsUntil
    rw [content_bind, if_pos hs]
    exact completes_pure rfl
  | @cons d t ds ts hd hds ih =>
    intro m p q hn hm htook hs hq
    obtain ⟨m, rfl⟩ : ∃ k, m = k + 1 := ⟨m - 1, by omega⟩
    rw [List.map_cons, List.flatten_cons] at htook
    obtain ⟨r, hr, hrle, hrest⟩ := htook.split
    obtain ⟨c, us, htk, hstop, -⟩ := hstart d
    have hp : p.current.content = c := (htk ▸ hr).uncons.1
    rw [htk, List.length_cons] at hrle
    have hrc : ends r.current.content := by
      cases ds with
      | nil =>
        obtain rfl := Took.nil_iff.mp hrest
        exact hq
      | cons d' ds =>
        obtain ⟨c', us', htk', -, hc'⟩ := hstart d'
        rw [List.map_cons, List.flatten_cons, htk', List.cons_append] at hrest
        exact hrest.uncons.1 ▸ hc'
    unfold itemsUntil
    rw [content_bind, if_neg (by rw [hp, hstop]; exact Bool.false_ne_true)]
    apply (h hd hn hr hrc).bind
    intro a ha
    apply (ih (by omega) (by omega) hrest hs hq).bind
    intro as has
    exact completes_pure (by rw [List.map_cons, ha, has])

end Lists

section Expressions

open Grammar (Expression Tier Chain Unary Primary)

variable {self : Production σ Expr} {n budget : Nat}

abbrev CoversExpression (n : Nat) (P : Production σ Expr) : Prop :=
  Covers n EndsExpression Expression.tokens Expression.tree? Expr.bare P

theorem expression_start (d : Expression) :
    ∃ c us, d.tokens = c :: us ∧ c ≠ .delimiter ')' := by
  obtain ⟨c, us, h, hc⟩ := d.tokens_start
  exact ⟨c, us, h, hc.ne_delimiter (by decide)⟩

theorem covers_primary (h : CoversExpression n self) (hb : n ≤ budget) :
    Covers (n + 1) (EndsTier 0) Primary.tokens Primary.tree? Expr.bare (primary self budget) := by
  intro d t p q ht hn htook hq
  unfold primary
  rw [content_bind]
  cases d with
  | number x =>
    obtain ⟨hc, hr, hrlt⟩ := htook.only
    cases ht
    rw [hc]
    exact (completes_advance hr).bind fun _ _ => completes_pure rfl
  | string text =>
    obtain ⟨hc, hr, hrlt⟩ := htook.only
    cases ht
    rw [hc]
    exact (completes_advance hr).bind fun _ _ => completes_pure rfl
  | name x =>
    obtain ⟨hc, hr, hrlt⟩ := htook.only
    cases ht
    rw [hc]
    dsimp only
    unfold named
    apply (completes_advance hr).bind
    intro _ _
    rw [content_bind, if_neg hq.1]
    exact completes_pure rfl
  | call f es =>
    obtain ⟨hc, r, hr, hrlt, hrest⟩ := htook.uncons
    obtain ⟨ho, s, hs, hslt, hrest⟩ := hrest.uncons
    obtain ⟨u, hu, hule, hclose⟩ := hrest.split
    obtain ⟨hcl, hv, hvlt⟩ := hclose.only
    unfold Primary.tree? at ht
    split at ht
    · next ts hts =>
      cases ht
      rw [hc]
      dsimp only
      unfold named
      apply (completes_advance hr).bind
      intro _ _
      rw [content_bind, if_pos ho]
      unfold call
      apply (completes_advance hs).bind
      intro _ _
      rw [Expression.tokensOfList_eq_map] at hu
      have hlist := completes_commaList? h (endsExpression_delimiter (by decide))
        (endsExpression_delimiter (by decide)) expression_start
        (Expression.forall₂_of_treeOfList? hts) (m := budget) (by omega) (by omega) hu hcl
      apply hlist.bind
      intro as has
      apply (completes_expect hcl hv _).bind
      intro _ _
      exact completes_pure (by rw [Expr.bare, Expr.bareList_eq_map, has])
    · cases ht
  | group e =>
    obtain ⟨hc, r, hr, hrlt, hrest⟩ := htook.uncons
    obtain ⟨u, hu, hule, hclose⟩ := hrest.split
    obtain ⟨hcl, hv, hvlt⟩ := hclose.only
    rw [hc]
    dsimp only
    rw [if_pos rfl]
    unfold group
    apply (completes_advance hr).bind
    intro _ _
    apply (h ht (by omega) hu (hcl ▸ endsExpression_delimiter (by decide))).bind
    intro a ha
    exact (completes_expect hcl hv _).bind fun _ _ => completes_pure ha

theorem primary_unaryOp? (d : Primary) {p q : Parser σ} (h : Took p d.tokens q) :
    unaryOp? p.current.content = none := by
  cases d with
  | number x => rw [h.uncons.1]; rfl
  | string text => rw [h.uncons.1]; rfl
  | name x => rw [h.uncons.1]; rfl
  | call f es => rw [h.uncons.1]; rfl
  | group e => rw [h.uncons.1]; rfl

theorem covers_unary (h : CoversExpression n self) (hb : n ≤ budget) :
    ∀ m, n < m →
      Covers (n + 1) (EndsTier 0) Unary.tokens Unary.tree? Expr.bare (unary self budget m) := by
  have hall : ∀ m, Covers (min (n + 1) m) (EndsTier 0) Unary.tokens Unary.tree? Expr.bare
      (unary self budget m) := by
    intro m
    induction m with
    | zero => exact fun d t p q _ hp => absurd hp (by omega)
    | succ m ih =>
      intro d t p q ht hp htook hq
      unfold unary
      rw [content_bind]
      cases d with
      | applied op e =>
        obtain ⟨hc, r, hr, hrlt, hrest⟩ := htook.uncons
        unfold Unary.tree? at ht
        split at ht
        · next u hu =>
          cases ht
          rw [hc, Grammar.unaryOp?_symbol]
          dsimp only
          apply (completes_advance hr).bind
          intro _ _
          apply (ih hu (by omega) hrest hq).bind
          intro a ha
          exact completes_pure (by rw [Expr.bare, ha])
        · cases ht
      | primary e =>
        rw [primary_unaryOp? e htook]
        exact covers_primary h hb ht (by omega) htook hq
  intro m hm d t p q ht hp
  exact hall m ht (by omega)

theorem endsTier_of_chain {level : Nat} {d : Chain level} {p q : Parser σ}
    (h : Took p d.tokens q) (hq : EndsTier (level + 1) q.current.content) :
    EndsTier level p.current.content := by
  cases d with
  | nil =>
    obtain rfl := Took.nil_iff.mp h
    exact hq.mono (Nat.le_succ level)
  | cons op right rest =>
    rw [h.uncons.1]
    exact Grammar.endsTier_operator op

/-- The chain goes on as long as it can, and each of its operators ends the operand before it. -/
theorem completes_infixTail {operand : Production σ Expr} {level : Nat}
    (h : Covers n (EndsTier level) (Tier.tokens (n := level)) Tier.tree? Expr.bare operand) :
    ∀ (d : Chain level) {m : Nat} {left e : Expr} {p q : Parser σ}, d.tree? left.bare = some e →
      p.pending < n → p.pending < m → Took p d.tokens q → EndsTier (level + 1) q.current.content →
      Completes q (fun a => a.bare = e) (infixTail operand level m left p)
  | .nil, m, left, e, p, q, ht, hn, hm, htook, hq => by
    obtain ⟨m, rfl⟩ : ∃ k, m = k + 1 := ⟨m - 1, by omega⟩
    obtain rfl := Took.nil_iff.mp htook
    cases ht
    unfold infixTail
    rw [content_bind, hq.infixOp?_eq_none (Nat.lt_succ_self level)]
    exact completes_pure rfl
  | .cons op right rest, m, left, e, p, q, ht, hn, hm, htook, hq => by
    obtain ⟨m, rfl⟩ : ∃ k, m = k + 1 := ⟨m - 1, by omega⟩
    obtain ⟨hc, r, hr, hrlt, hrest⟩ := htook.uncons
    obtain ⟨s, hs, hsle, hrest⟩ := hrest.split
    unfold Chain.tree? at ht
    split at ht
    · next u hu =>
      unfold infixTail
      rw [content_bind, hc, Grammar.infixOp?_symbol]
      dsimp only
      apply (completes_advance hr).bind
      intro _ _
      apply (h hu (by omega) hs (endsTier_of_chain hrest hq)).bind
      intro a ha
      refine completes_infixTail h rest ?_ (by omega) (by omega) hrest hq
      rw [Grammar.ofInfix_bare, ha]
      exact ht
    · cases ht

theorem covers_tier (h : CoversExpression n self) (hb : n < budget) :
    ∀ level, Covers (n + 1) (EndsTier level) (Tier.tokens (n := level)) Tier.tree? Expr.bare
      (tier self budget level) := by
  intro level
  induction level with
  | zero =>
    intro d t p q ht hp htook hq
    cases d with
    | unary e => exact covers_unary h (Nat.le_of_lt hb) budget hb ht hp htook hq
  | succ level ih =>
    intro d t p q ht hp htook hq
    cases d with
    | chain first rest =>
      obtain ⟨r, hr, hrle, hrest⟩ := htook.split
      obtain ⟨c, us, hfirst, -⟩ := first.tokens_start
      rw [hfirst, List.length_cons] at hrle
      unfold Tier.tree? at ht
      split at ht
      · next left hleft =>
        unfold tier
        apply (ih hleft hp hr (endsTier_of_chain hrest hq)).bind
        intro a ha
        exact completes_infixTail ih rest (ha.symm ▸ ht) (by omega) (by omega) hrest hq
      · cases ht

theorem covers_assignment (h : CoversExpression n self) (hb : n < budget) :
    CoversExpression (n + 1) (assignment self budget) := by
  have htier : Covers (n + 1) (EndsTier 6) (Tier.tokens (n := 6)) Tier.tree? Expr.bare
      (tier self budget Infix.levels) := covers_tier h hb 6
  intro d t p q ht hp htook hq
  unfold assignment
  cases d with
  | plain e =>
    apply (htier ht hp htook hq.1).bind
    intro a ha
    rw [content_bind, if_neg hq.2]
    exact completes_pure ha
  | assign target value =>
    obtain ⟨r, hr, hrle, hrest⟩ := htook.split
    obtain ⟨hc, s, hs, hslt, hv⟩ := hrest.uncons
    unfold Expression.tree? at ht
    split at ht
    · next target' value' ht' hv' =>
      apply (htier ht' hp hr (hc ▸ Grammar.endsTier_equals 6)).bind
      intro a ha
      rw [content_bind, if_pos hc]
      apply (completes_advance hs).bind
      intro equals _
      apply (h hv' (by omega) hv hq).bind
      intro b hb
      unfold Grammar.assigned? at ht
      split at ht
      · next x span =>
        cases ht
        obtain ⟨u, rfl⟩ := Expr.bare_eq_reference ha
        exact completes_pure (by rw [Expr.bare, hb])
      · cases ht
    · cases ht

theorem covers_expression : ∀ n, CoversExpression n (expression (n + 1) : Production σ Expr) := by
  intro n
  induction n with
  | zero => exact fun d t p q _ hp => absurd hp (Nat.not_lt_zero _)
  | succ n ih => exact covers_assignment ih (Nat.lt_succ_self n)

end Expressions

section Statements

open Grammar (Expression Statement EndsStatement)

variable {self : Production σ Stmt} {expr : Production σ Expr} {n budget : Nat}

abbrev CoversStatement (n : Nat) (P : Production σ Stmt) : Prop :=
  Covers n EndsStatement Statement.tokens Statement.tree? Stmt.bare P

theorem completes_typeName (d : Grammar.TypeName) {p q : Parser σ} (h : Took p [d.content] q) :
    Completes q (fun t => t.bare = d.tree) (typeName p) := by
  obtain ⟨hc, hr, hrlt⟩ := h.only
  unfold typeName
  rw [content_bind, hc]
  cases d with
  | name x => exact (completes_advance hr).bind fun _ _ => completes_pure rfl
  | tensor script => exact (completes_advance hr).bind fun _ _ => completes_pure rfl

theorem completes_ascription? (d : Option Grammar.TypeName) {p q : Parser σ}
    (h : Took p (Grammar.ascriptionTokens d) q) (hq : q.current.content ≠ .delimiter ':') :
    Completes q (fun t => t.map TypeName.bare = d.map Grammar.TypeName.tree) (ascription? p) := by
  unfold ascription?
  rw [accept_bind]
  cases d with
  | none =>
    obtain rfl := Took.nil_iff.mp h
    rw [if_neg hq]
    exact completes_pure rfl
  | some t =>
    obtain ⟨hc, r, hr, hrlt, hrest⟩ := h.uncons
    rw [if_pos hc]
    apply (completes_advance hr).bind
    intro _ _
    exact (completes_typeName t hrest).bind fun a ha => completes_pure (congrArg some ha)

theorem completes_resultType? (d : Option Grammar.TypeName) {p q : Parser σ}
    (h : Took p (Grammar.resultTokens d) q) (hq : q.current.content ≠ .operator "-") :
    Completes q (fun t => t.map TypeName.bare = d.map Grammar.TypeName.tree) (resultType? p) := by
  unfold resultType?
  rw [accept_bind]
  cases d with
  | none =>
    obtain rfl := Took.nil_iff.mp h
    rw [if_neg hq]
    exact completes_pure rfl
  | some t =>
    obtain ⟨hc, r, hr, hrlt, hrest⟩ := h.uncons
    obtain ⟨hc', s, hs, hslt, hrest⟩ := hrest.uncons
    rw [if_pos hc]
    apply (completes_advance hr).bind
    intro _ _
    apply (completes_expect hc' hs _).bind
    intro _ _
    exact (completes_typeName t hrest).bind fun a ha => completes_pure (congrArg some ha)

theorem completes_initial? (h : CoversExpression n expr) {d : Option Expression}
    {e : Option Expr} {p q : Parser σ} (ht : Grammar.optionalTree? d = some e) (hn : p.pending ≤ n)
    (htook : Took p (Grammar.initialTokens d) q) (hq : q.current.content = .delimiter ';') :
    Completes q (fun a => a.map Expr.bare = e) (initial? expr p) := by
  unfold initial?
  rw [accept_bind]
  cases d with
  | none =>
    obtain rfl := Took.nil_iff.mp htook
    cases ht
    rw [if_neg (by rw [hq]; exact Token.Content.noConfusion)]
    exact completes_pure rfl
  | some d =>
    obtain ⟨t, hd, rfl⟩ := Option.map_eq_some_iff.mp ht
    obtain ⟨hc, r, hr, hrlt, hrest⟩ := htook.uncons
    rw [if_pos hc]
    apply (completes_advance hr).bind
    intro _ _
    apply (h hd (by omega) hrest (hq ▸ endsExpression_delimiter (by decide))).bind
    intro a ha
    exact completes_pure (congrArg some ha)

theorem completes_returned? (h : CoversExpression n expr) {d : Option Expression}
    {e : Option Expr} {p q : Parser σ} (ht : Grammar.optionalTree? d = some e) (hn : p.pending < n)
    (htook : Took p (Grammar.optional [] Expression.tokens d) q)
    (hq : q.current.content = .delimiter ';') :
    Completes q (fun a => a.map Expr.bare = e) (returned? expr p) := by
  unfold returned?
  rw [content_bind]
  cases d with
  | none =>
    obtain rfl := Took.nil_iff.mp htook
    cases ht
    rw [if_pos hq]
    exact completes_pure rfl
  | some d =>
    obtain ⟨t, hd, rfl⟩ := Option.map_eq_some_iff.mp ht
    have hexpr : Took p d.tokens q := htook
    obtain ⟨c, us, htk, hstart⟩ := d.tokens_start
    have hc : p.current.content = c := (htk ▸ hexpr).uncons.1
    rw [if_neg (by rw [hc]; exact hstart.ne_delimiter (by decide))]
    apply (h hd hn hexpr (hq ▸ endsExpression_delimiter (by decide))).bind
    intro a ha
    exact completes_pure (congrArg some ha)

theorem covers_parameter (n : Nat) :
    Covers n (fun c => c ≠ .delimiter ':') Grammar.Parameter.tokens
      (fun d => some (Grammar.Parameter.tree d)) Parameter.bare (parameter : Production σ Parameter) := by
  intro d t p q ht _ htook hq
  cases ht
  obtain ⟨hc, r, hr, hrlt, hrest⟩ := htook.uncons
  unfold parameter
  apply (completes_identifier hc hr _).bind
  intro name hname
  apply (completes_ascription? d.ascription hrest hq).bind
  intro a ha
  refine completes_lastStop fun stop => completes_pure ?_
  simp only [Parameter.bare, Grammar.Parameter.tree, hname, ha]

theorem closesBlock_eq_false {c : Token.Content} (h : Grammar.StartsStatement c) :
    closesBlock c = false := by
  have hbrace : c ≠ .delimiter '\x7d' := h.ne_delimiter (by decide)
  cases c with
  | delimiter mark => simpa [closesBlock] using hbrace
  | endOfInput => exact False.elim h
  | _ => rfl

theorem not_isKeyword_else {c : Token.Content} (h : EndsStatement c) :
    isKeyword .else_ c = false := by
  cases c with
  | keyword word script =>
    cases word with
    | else_ => exact absurd rfl (h script)
    | _ => rfl
  | _ => rfl

theorem statement_start (d : Statement) :
    ∃ c us, d.tokens = c :: us ∧ closesBlock c = false ∧ EndsStatement c := by
  obtain ⟨c, us, h, hc⟩ := d.tokens_start
  exact ⟨c, us, h, closesBlock_eq_false hc, hc.ends⟩

theorem covers_block (h : CoversStatement n self) (hb : n ≤ budget) :
    Covers (n + 1) (fun _ => True) Grammar.Block.tokens Grammar.Block.tree? Block.bare
      (block self budget) := by
  intro d t p q ht hp htook _
  cases d with
  | mk ds =>
    obtain ⟨ho, r, hr, hrlt, hrest⟩ := htook.uncons
    obtain ⟨s, hs, hsle, hclose⟩ := hrest.split
    obtain ⟨hc, hu, hult⟩ := hclose.only
    unfold Grammar.Block.tree? at ht
    split at ht
    · next ts hts =>
      cases ht
      unfold block
      apply (completes_expect ho hr _).bind
      intro _ _
      rw [Statement.tokensOfList_eq_flatten] at hs
      have hitems : Completes s (fun as => as.map Stmt.bare = ts)
          (itemsUntil closesBlock self budget r) :=
        completes_itemsUntil h statement_start (Statement.forall₂_of_treeOfList? hts) (by omega)
          (by omega) hs (by rw [hc]; rfl) (by rw [hc]; exact fun _ => Token.Content.noConfusion)
      apply hitems.bind
      intro as has
      apply (completes_expect hc hu _).bind
      intro _ _
      exact completes_pure (by rw [Block.bare, Stmt.bareList_eq_map, has])
    · cases ht

theorem block_start (d : Grammar.Block) : ∃ us, d.tokens = .delimiter '\x7b' :: us := by
  cases d with
  | mk ds => exact ⟨_, rfl⟩

theorem block_content {d : Grammar.Block} {p q : Parser σ} (h : Took p d.tokens q) :
    p.current.content = .delimiter '\x7b' := by
  obtain ⟨vs, hd⟩ := block_start d
  rw [hd] at h
  exact h.uncons.1

theorem completes_functionDeclaration (h : CoversStatement n self) (hb : n ≤ budget)
    {script : Script} {f : String} {ps : List Grammar.Parameter} {r : Option Grammar.TypeName}
    {body : Grammar.Block} {t : Stmt} {p q : Parser σ}
    (ht : (Statement.function script f ps r body).tree? = some t) (hn : p.pending ≤ n)
    (htook : Took p (Statement.function script f ps r body).tokens q) :
    Completes q (fun s => s.bare = t) (functionDeclaration self budget p) := by
  obtain ⟨hc, p₁, h₁, h₁lt, htook⟩ := htook.uncons
  obtain ⟨hf, p₂, h₂, h₂lt, htook⟩ := htook.uncons
  obtain ⟨ho, p₃, h₃, h₃lt, htook⟩ := htook.uncons
  obtain ⟨p₄, h₄, h₄', htook⟩ := htook.split
  obtain ⟨hcl, p₅, h₅, h₅lt, htook⟩ := htook.uncons
  obtain ⟨p₆, h₆, h₆', h₇⟩ := htook.split
  have hbody : p₆.current.content = .delimiter '\x7b' := block_content h₇
  unfold Statement.tree? at ht
  split at ht
  · next b hbt =>
    cases ht
    have hparameters : Completes p₄ (fun as => as.map Parameter.bare = ps.map Grammar.Parameter.tree)
        (commaList? parameter budget p₃) :=
      completes_commaList? (covers_parameter budget) (by decide) (by decide)
        (fun d => ⟨_, _, rfl, Token.Content.noConfusion⟩)
        (by rw [List.forall₂_map_right_iff]; exact List.forall₂_same.mpr fun _ _ => rfl)
        (by omega) (by omega) h₄ hcl
    unfold functionDeclaration
    apply (completes_advance h₁).bind
    intro first _
    apply (completes_identifier hf h₂ _).bind
    intro name hname
    apply (completes_expect ho h₃ _).bind
    intro _ _
    apply hparameters.bind
    intro as has
    apply (completes_expect hcl h₅ _).bind
    intro _ _
    refine (completes_resultType? r h₆ (by rw [hbody]; exact Token.Content.noConfusion)).bind
      fun result hresult => ?_
    apply (covers_block h hb hbt (by omega) h₇ trivial).bind
    intro b' hb'
    exact completes_pure (by rw [Stmt.bare, hname, has, hresult, hb'])
  · cases ht

theorem completes_variableDeclaration (h : CoversExpression n expr) {constant : Bool}
    {script : Script} {x : String} {ascription : Option Grammar.TypeName}
    {initial : Option Expression} {t : Stmt} {p q : Parser σ}
    (ht : (Statement.binding constant script x ascription initial).tree? = some t)
    (hn : p.pending ≤ n)
    (htook : Took p (Statement.binding constant script x ascription initial).tokens q) :
    Completes q (fun s => s.bare = t) (variableDeclaration expr constant p) := by
  obtain ⟨-, p₁, h₁, h₁lt, htook⟩ := htook.uncons
  obtain ⟨hx, p₂, h₂, h₂lt, htook⟩ := htook.uncons
  obtain ⟨p₃, h₃, h₃le, htook⟩ := htook.split
  obtain ⟨p₄, h₄, -, htook⟩ := htook.split
  obtain ⟨hc, h₅, -⟩ := htook.only
  obtain ⟨e, he, rfl⟩ := Option.map_eq_some_iff.mp ht
  have hcolon : p₃.current.content ≠ .delimiter ':' := by
    cases initial with
    | none =>
      obtain rfl := Took.nil_iff.mp h₄
      rw [hc]
      decide
    | some e =>
      rw [h₄.uncons.1]
      exact Token.Content.noConfusion
  unfold variableDeclaration
  apply (completes_advance h₁).bind
  intro first _
  apply (completes_identifier hx h₂ _).bind
  intro name hname
  apply (completes_ascription? ascription h₃ hcolon).bind
  intro a ha
  apply (completes_initial? h he (by omega) h₄ hc).bind
  intro i hi
  apply (completes_expect hc h₅ _).bind
  intro _ _
  refine completes_lastStop fun stop => completes_pure ?_
  rw [Stmt.bare, hname, ha, hi]

theorem completes_alternative (h : CoversStatement n self) (hb : n ≤ budget)
    {d : Grammar.Alternative} {script : Script} {us : List Token.Content} {e : Expr}
    {yes : Dvilipi.Block} {t : Stmt} {p q : Parser σ} (ht : d.tree? e yes = some t)
    (hd : d.tokens = .keyword .else_ script :: us) (hn : p.pending < n) (htook : Took p us q)
    (hq : EndsStatement q.current.content) :
    Completes q (fun b => t = .ifElse e yes b.bare .blank) (alternative self budget p) := by
  unfold alternative
  rw [content_bind]
  cases d with
  | absent => cases hd
  | block script' no =>
    cases hd
    unfold Grammar.Alternative.tree? at ht
    split at ht
    · next b hbt =>
      cases ht
      have hopen : p.current.content = .delimiter '\x7b' := block_content htook
      rw [if_neg (by rw [hopen]; decide)]
      apply (covers_block h hb hbt (by omega) htook trivial).mono
      intro b' hb'
      rw [hb']
    · cases ht
  | conditional script' c =>
    cases hd
    unfold Grammar.Alternative.tree? at ht
    split at ht
    · next s hst =>
      cases ht
      cases c with
      | mk script'' condition body otherwise =>
        rw [if_pos (by rw [htook.uncons.1]; rfl)]
        have hs : (Statement.conditional (.mk script'' condition body otherwise)).tree? = some s :=
          hst
        refine (h hs hn htook hq).bind fun a ha => completes_pure ?_
        rw [Block.bare, Stmt.bareList, Stmt.bareList, ha]
    · cases ht

theorem completes_conditional (h : CoversStatement n self) (hx : CoversExpression n expr)
    (hb : n ≤ budget) {d : Grammar.Conditional} {t : Stmt} {p q : Parser σ} (ht : d.tree? = some t)
    (hn : p.pending ≤ n) (htook : Took p d.tokens q) (hq : EndsStatement q.current.content) :
    Completes q (fun s => s.bare = t) (conditional self expr budget p) := by
  cases d with
  | mk script c yes otherwise =>
    obtain ⟨-, p₁, h₁, h₁lt, htook⟩ := htook.uncons
    obtain ⟨p₂, h₂, h₂le, htook⟩ := htook.split
    obtain ⟨p₃, h₃, h₃le, h₄⟩ := htook.split
    unfold Grammar.Conditional.tree? at ht
    split at ht
    · next e b hct hbt =>
      have hopen : p₂.current.content = .delimiter '\x7b' := block_content h₃
      unfold conditional
      apply (completes_advance h₁).bind
      intro first _
      refine (hx hct (by omega) h₂ (hopen ▸ endsExpression_delimiter (by decide))).bind
        fun c' hc' => ?_
      apply (covers_block h hb hbt (by omega) h₃ trivial).bind
      intro yes' hyes'
      rw [content_bind]
      rcases otherwise.absent_or_else with rfl | ⟨script', us, hus⟩
      · obtain rfl := Took.nil_iff.mp h₄
        cases ht
        rw [not_isKeyword_else hq, if_neg Bool.false_ne_true]
        refine completes_lastStop fun stop => completes_pure ?_
        rw [Stmt.bare, hc', hyes']
      · obtain ⟨hc, p₄, h₅, h₅lt, h₆⟩ := (hus ▸ h₄).uncons
        rw [if_pos (by rw [hc]; rfl)]
        apply (completes_advance h₅).bind
        intro _ _
        apply (completes_alternative h hb ht hus (by omega) h₆ hq).bind
        intro no' hno'
        refine completes_lastStop fun stop => completes_pure ?_
        rw [Stmt.bare, hc', hyes', hno']
    · cases ht

theorem completes_loop (h : CoversStatement n self) (hx : CoversExpression n expr)
    (hb : n ≤ budget) {script : Script} {c : Expression} {body : Grammar.Block} {t : Stmt}
    {p q : Parser σ} (ht : (Statement.loop script c body).tree? = some t) (hn : p.pending ≤ n)
    (htook : Took p (Statement.loop script c body).tokens q) :
    Completes q (fun s => s.bare = t) (loop self expr budget p) := by
  obtain ⟨-, p₁, h₁, h₁lt, htook⟩ := htook.uncons
  obtain ⟨p₂, h₂, h₂le, h₃⟩ := htook.split
  unfold Statement.tree? at ht
  split at ht
  · next e b hct hbt =>
    cases ht
    have hopen : p₂.current.content = .delimiter '\x7b' := block_content h₃
    unfold loop
    apply (completes_advance h₁).bind
    intro first _
    refine (hx hct (by omega) h₂ (hopen ▸ endsExpression_delimiter (by decide))).bind
      fun c' hc' => ?_
    apply (covers_block h hb hbt (by omega) h₃ trivial).bind
    intro body' hbody'
    exact completes_pure (by rw [Stmt.bare, hc', hbody'])
  · cases ht

theorem completes_returnStatement (h : CoversExpression n expr) {script : Script}
    {value : Option Expression} {t : Stmt} {p q : Parser σ}
    (ht : (Statement.leave script value).tree? = some t) (hn : p.pending ≤ n)
    (htook : Took p (Statement.leave script value).tokens q) :
    Completes q (fun s => s.bare = t) (returnStatement expr p) := by
  obtain ⟨-, p₁, h₁, h₁lt, htook⟩ := htook.uncons
  obtain ⟨p₂, h₂, -, htook⟩ := htook.split
  obtain ⟨hc, h₃, -⟩ := htook.only
  obtain ⟨e, he, rfl⟩ := Option.map_eq_some_iff.mp ht
  unfold returnStatement
  apply (completes_advance h₁).bind
  intro first _
  apply (completes_returned? h he (by omega) h₂ hc).bind
  intro a ha
  apply (completes_expect hc h₃ _).bind
  intro _ _
  refine completes_lastStop fun stop => completes_pure ?_
  rw [Stmt.bare, ha]

theorem completes_expressionStatement (h : CoversExpression n expr) {e : Expression} {t : Stmt}
    {p q : Parser σ} (ht : (Statement.expression e).tree? = some t) (hn : p.pending < n)
    (htook : Took p (Statement.expression e).tokens q) :
    Completes q (fun s => s.bare = t) (expressionStatement expr p) := by
  obtain ⟨p₁, h₁, -, htook⟩ := htook.split
  obtain ⟨hc, h₂, -⟩ := htook.only
  obtain ⟨u, hu, rfl⟩ := Option.map_eq_some_iff.mp ht
  unfold expressionStatement
  apply completes_currentStart
  intro start
  apply (h hu hn h₁ (hc ▸ endsExpression_delimiter (by decide))).bind
  intro a ha
  apply (completes_expect hc h₂ _).bind
  intro _ _
  refine completes_lastStop fun stop => completes_pure ?_
  rw [Stmt.bare, ha]

theorem covers_statementForm (h : CoversStatement n self) (hx : CoversExpression (n + 1) expr)
    (hb : n ≤ budget) : CoversStatement (n + 1) (statementForm self expr budget) := by
  have hx' : CoversExpression n expr := fun d t p q ht hp => hx ht (Nat.lt_succ_of_lt hp)
  intro d t p q ht hp htook hq
  unfold statementForm
  rw [content_bind]
  cases d with
  | function script f ps r body =>
    rw [htook.uncons.1]
    exact completes_functionDeclaration h hb ht (by omega) htook
  | binding constant script x ascription initial =>
    rw [htook.uncons.1]
    cases constant with
    | true => exact completes_variableDeclaration hx' ht (by omega) htook
    | false => exact completes_variableDeclaration hx' ht (by omega) htook
  | conditional c =>
    have hc : ∃ script, p.current.content = .keyword .if_ script := by
      cases c with
      | mk script c yes otherwise => exact ⟨script, htook.uncons.1⟩
    obtain ⟨script, hc⟩ := hc
    rw [hc]
    exact completes_conditional h hx' hb ht (by omega) htook hq
  | loop script c body =>
    rw [htook.uncons.1]
    exact completes_loop h hx' hb ht (by omega) htook
  | leave script value =>
    rw [htook.uncons.1]
    exact completes_returnStatement hx' ht (by omega) htook
  | expression e =>
    obtain ⟨c, us, htk, hstart⟩ := e.tokens_start
    have hc : p.current.content = c := by
      have hcons : Took p (c :: (us ++ [.delimiter ';'])) q := by
        rw [← List.cons_append, ← htk]
        exact htook
      exact hcons.uncons.1
    rw [hc]
    cases c with
    | keyword word script => exact False.elim hstart
    | _ => exact completes_expressionStatement hx ht hp htook

theorem covers_statement : ∀ n, CoversStatement n (statement (n + 1) : Production σ Stmt) := by
  intro n
  induction n with
  | zero => exact fun d t p q _ hp => absurd hp (Nat.not_lt_zero _)
  | succ n ih => exact covers_statementForm ih (covers_expression (n + 1)) (Nat.le_succ n)

theorem completes_program {d : Grammar.Program} {t : Program} {p q : Parser σ}
    (ht : d.tree? = some t) (htook : Took p d.tokens q) (hq : q.current.content = .endOfInput) :
    Completes q (fun a => a.bare = t) (program p.budget p) := by
  obtain ⟨ts, hts, rfl⟩ := Option.map_eq_some_iff.mp ht
  have hstart : ∀ d : Statement, ∃ c us, d.tokens = c :: us ∧ (c == .endOfInput) = false ∧
      EndsStatement c := by
    intro d
    obtain ⟨c, us, h, hc⟩ := d.tokens_start
    refine ⟨c, us, h, ?_, hc.ends⟩
    cases c with
    | endOfInput => exact False.elim hc
    | _ => rfl
  have hitems : Completes q (fun as => as.map Stmt.bare = ts)
      (itemsUntil (· == .endOfInput) (statement p.budget) p.budget p) := by
    refine completes_itemsUntil (covers_statement (p.pending + 1)) hstart
      (Statement.forall₂_of_treeOfList? hts) (Nat.lt_succ_self _) (Nat.lt_succ_of_lt
        (Nat.lt_succ_self _)) ?_ (by simp [hq])
      (by rw [hq]; exact fun _ => Token.Content.noConfusion)
    rw [← Statement.tokensOfList_eq_flatten]
    exact htook
  unfold program
  refine hitems.bind fun as has => completes_pure ?_
  rw [Program.bare, Stmt.bareList_eq_map, has]

end Statements

end Parser
end Dvilipi
