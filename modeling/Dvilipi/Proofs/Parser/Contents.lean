import Dvilipi.Proofs.Grammar.Operators
import Dvilipi.Proofs.Parser.OnDemand
import Dvilipi.Proofs.Token.Spacing

/-!
What a parser does depends on what the tokens say only. Two parsers in front of tokens that say the same,
wherever these stand, build trees that differ in their spans, or they complain alike about tokens that
say the same. So blanks and comments between tokens do not matter to a program.
-/

namespace Dvilipi
set_option autoImplicit false

namespace Parser

variable {α β γ δ : Type}

/-- The tokens in front of the two parsers say the same. -/
structure Twins (p q : Parser TokenList) : Prop where
  current : p.current.content = q.current.content
  tokens : p.source.tokens.map Token.content = q.source.tokens.map Token.content

/-- Values that look the same to `f`, or complaints with the same demand about tokens that say the same;
either way the tokens that are left say the same. -/
inductive Agree (f : α → γ) : Reply ParseError (Parser TokenList) α →
    Reply ParseError (Parser TokenList) α → Prop where
  | ok {a b : α} {p q : Parser TokenList} (h : f a = f b) (hpq : Twins p q) :
      Agree f (.ok a p) (.ok b q)
  | rejected {expected : Expected} {t u : Token} {p q : Parser TokenList}
      (h : t.content = u.content) (hpq : Twins p q) :
      Agree f (.failed (.grammatical ⟨expected, t⟩) p) (.failed (.grammatical ⟨expected, u⟩) q)
  | exhausted : Agree f .exhausted .exhausted

/-- The productions agree wherever the tokens say the same. -/
structure Agrees (f : α → γ) (P Q : Production TokenList α) : Prop where
  reply : ∀ {p q}, Twins p q → Agree f (P p) (Q q)

section Steps

variable {f : α → γ} {g : β → δ} {P Q : Production TokenList α} {F G : α → Production TokenList β}

theorem Agrees.bind (h : Agrees f P Q) (hFG : ∀ a b, f a = f b → Agrees g (F a) (G b)) :
    Agrees g (P >>= F) (Q >>= G) := by
  refine ⟨fun {p q} hpq => ?_⟩
  have hreply := h.reply hpq
  rw [Action.bind_apply, Action.bind_apply]
  generalize P p = r, Q q = r' at hreply
  cases hreply with
  | ok hab hpq' => exact (hFG _ _ hab).reply hpq'
  | rejected hfound hpq' => exact .rejected hfound hpq'
  | exhausted => exact .exhausted

theorem agrees_pure {a b : α} (h : f a = f b) :
    Agrees f (pure a : Production TokenList α) (pure b) := ⟨fun hpq => .ok h hpq⟩

theorem agrees_exhausted : Agrees f (.exhausted : Production TokenList α) .exhausted :=
  ⟨fun _ => .exhausted⟩

theorem agrees_content : Agrees id (content : Production TokenList Token.Content) content :=
  ⟨fun hpq => .ok hpq.current hpq⟩

theorem Agrees.content {F G : Token.Content → Production TokenList α}
    (h : ∀ c, Agrees f (F c) (G c)) : Agrees f (Parser.content >>= F) (Parser.content >>= G) :=
  agrees_content.bind fun c d hcd => by
    obtain rfl : c = d := hcd
    exact h c

theorem agrees_currentStart :
    Agrees (fun _ => ()) (currentStart : Production TokenList Nat) currentStart :=
  ⟨fun hpq => .ok rfl hpq⟩

theorem agrees_lastStop : Agrees (fun _ => ()) (lastStop : Production TokenList Nat) lastStop :=
  ⟨fun hpq => .ok rfl hpq⟩

theorem agrees_reject (expected : Expected) :
    Agrees f (reject expected : Production TokenList α) (reject expected) :=
  ⟨fun hpq => .rejected hpq.current hpq⟩

theorem agrees_rejectAt {t u : Token} (h : t.content = u.content) (expected : Expected) :
    Agrees f (rejectAt expected t : Production TokenList α) (rejectAt expected u) :=
  ⟨fun hpq => .rejected h hpq⟩

theorem agrees_advance : Agrees Token.content (advance : Production TokenList Token) advance := by
  constructor
  rintro ⟨⟨ts, last, hlast⟩, t, stop⟩ ⟨⟨us, last', hlast'⟩, u, stop'⟩ ⟨hcurrent, htokens⟩
  cases ts with
  | nil =>
    obtain rfl : us = [] := List.map_eq_nil_iff.mp htokens.symm
    have hends : last.content = last'.content :=
      (Token.isEnd_iff.mp hlast).trans (Token.isEnd_iff.mp hlast').symm
    exact .ok hcurrent ⟨hends, rfl⟩
  | cons t' ts =>
    cases us with
    | nil => cases htokens
    | cons u' us =>
      obtain ⟨hfirst, hrest⟩ := List.cons.inj htokens
      exact .ok hcurrent ⟨hfirst, hrest⟩

theorem agrees_accept (c : Token.Content) :
    Agrees id (accept c : Production TokenList Bool) (accept c) := by
  unfold accept
  refine .content fun d => ?_
  split
  · exact agrees_advance.bind fun _ _ _ => agrees_pure rfl
  · exact agrees_pure rfl

theorem Agrees.accept {c : Token.Content} {F G : Bool → Production TokenList α}
    (h : ∀ b, Agrees f (F b) (G b)) : Agrees f (Parser.accept c >>= F) (Parser.accept c >>= G) :=
  (agrees_accept c).bind fun b b' hb => by
    obtain rfl : b = b' := hb
    exact h b

theorem agrees_expect (c : Token.Content) (expected : Expected) :
    Agrees Token.content (expect c expected : Production TokenList Token) (expect c expected) := by
  unfold expect
  refine .content fun d => ?_
  split
  · exact agrees_advance
  · exact agrees_reject expected

theorem agrees_identifier (expected : Expected) :
    Agrees Prod.fst (identifier expected : Production TokenList (String × Span))
      (identifier expected) := by
  unfold identifier
  refine .content fun c => ?_
  cases c with
  | identifier name => exact agrees_advance.bind fun _ _ _ => agrees_pure rfl
  | _ => exact agrees_reject expected

theorem agrees_commaList (h : Agrees f P Q) :
    ∀ n, Agrees (List.map f) (commaList P n) (commaList Q n) := by
  intro n
  induction n with
  | zero => exact agrees_exhausted
  | succ n ih =>
    unfold commaList
    refine h.bind fun a b hab => .accept fun more => ?_
    split
    · refine ih.bind fun as bs hrest => agrees_pure ?_
      rw [List.map_cons, List.map_cons, hab, hrest]
    · exact agrees_pure (congrArg (fun c => [c]) hab)

theorem agrees_commaList? (h : Agrees f P Q) (n : Nat) :
    Agrees (List.map f) (commaList? P n) (commaList? Q n) := by
  unfold commaList?
  refine .content fun c => ?_
  split
  · exact agrees_pure rfl
  · exact agrees_commaList h n

theorem agrees_itemsUntil (h : Agrees f P Q) (stops : Token.Content → Bool) :
    ∀ n, Agrees (List.map f) (itemsUntil stops P n) (itemsUntil stops Q n) := by
  intro n
  induction n with
  | zero => exact agrees_exhausted
  | succ n ih =>
    unfold itemsUntil
    refine .content fun c => ?_
    split
    · exact agrees_pure rfl
    · refine h.bind fun a b hab => ih.bind fun as bs hrest => agrees_pure ?_
      rw [List.map_cons, List.map_cons, hab, hrest]

end Steps

section Expressions

variable {self : Production TokenList Expr}

theorem agrees_call (h : Agrees Expr.bare self self) (budget : Nat) (callee : String)
    (start start' : Nat) :
    Agrees Expr.bare (call self budget callee start) (call self budget callee start') := by
  unfold call
  refine agrees_advance.bind fun _ _ _ => ?_
  refine (agrees_commaList? h budget).bind fun es es' hes => ?_
  refine (agrees_expect _ _).bind fun _ _ _ => agrees_pure ?_
  rw [Expr.bare, Expr.bare, Expr.bareList_eq_map, Expr.bareList_eq_map, hes]

theorem agrees_group (h : Agrees Expr.bare self self) : Agrees Expr.bare (group self) (group self) := by
  unfold group
  refine agrees_advance.bind fun _ _ _ => h.bind fun e e' he => ?_
  exact (agrees_expect _ _).bind fun _ _ _ => agrees_pure he

theorem agrees_named (h : Agrees Expr.bare self self) (budget : Nat) (name : String) :
    Agrees Expr.bare (named self budget name) (named self budget name) := by
  unfold named
  refine agrees_advance.bind fun t t' _ => .content fun c => ?_
  split
  · exact agrees_call h budget name _ _
  · exact agrees_pure rfl

theorem agrees_primary (h : Agrees Expr.bare self self) (budget : Nat) :
    Agrees Expr.bare (primary self budget) (primary self budget) := by
  unfold primary
  refine .content fun c => ?_
  cases c with
  | number value => exact agrees_advance.bind fun _ _ _ => agrees_pure rfl
  | string text => exact agrees_advance.bind fun _ _ _ => agrees_pure rfl
  | identifier name => exact agrees_named h budget name
  | delimiter mark =>
    dsimp only
    split
    · exact agrees_group h
    · exact agrees_reject _
  | _ => exact agrees_reject _

theorem agrees_unary (h : Agrees Expr.bare self self) (budget : Nat) :
    ∀ n, Agrees Expr.bare (unary self budget n) (unary self budget n) := by
  intro n
  induction n with
  | zero => exact agrees_exhausted
  | succ n ih =>
    unfold unary
    refine .content fun c => ?_
    cases unaryOp? c with
    | some op =>
      refine agrees_advance.bind fun _ _ _ => ih.bind fun e e' he => agrees_pure ?_
      rw [Expr.bare, Expr.bare, he]
    | none => exact agrees_primary h budget

theorem agrees_infixTail {operand : Production TokenList Expr}
    (h : Agrees Expr.bare operand operand) (level : Nat) : ∀ n {left left' : Expr},
      left.bare = left'.bare →
        Agrees Expr.bare (infixTail operand level n left) (infixTail operand level n left') := by
  intro n
  induction n with
  | zero => exact fun _ => agrees_exhausted
  | succ n ih =>
    intro left left' hleft
    unfold infixTail
    refine .content fun c => ?_
    cases infixOp? level c with
    | some op =>
      refine agrees_advance.bind fun _ _ _ => h.bind fun right right' hright => ih ?_
      rw [Grammar.ofInfix_bare, Grammar.ofInfix_bare, hleft, hright]
    | none => exact agrees_pure hleft

theorem agrees_tier (h : Agrees Expr.bare self self) (budget : Nat) :
    ∀ level, Agrees Expr.bare (tier self budget level) (tier self budget level) := by
  intro level
  induction level with
  | zero => exact agrees_unary h budget budget
  | succ level ih => exact ih.bind fun left left' hleft => agrees_infixTail ih level budget hleft

/-- Only the bare tree of the target tells whether an assignment is made. -/
theorem agrees_assign {equals equals' : Token} (hequals : equals.content = equals'.content)
    {target target' value value' : Expr} (htarget : target.bare = target'.bare)
    (hvalue : value.bare = value'.bare) :
    Agrees Expr.bare (assign equals target value : Production TokenList Expr)
      (assign equals' target' value') := by
  cases target with
  | reference name s =>
    obtain ⟨t, rfl⟩ := Expr.bare_eq_reference htarget.symm
    refine agrees_pure ?_
    rw [Expr.bare, Expr.bare, hvalue]
  | _ =>
    cases target' with
    | reference name s => cases htarget
    | _ => exact agrees_rejectAt hequals _

theorem agrees_assignment (h : Agrees Expr.bare self self) (budget : Nat) :
    Agrees Expr.bare (assignment self budget) (assignment self budget) := by
  unfold assignment
  refine (agrees_tier h budget _).bind fun target target' htarget => .content fun c => ?_
  split
  · refine agrees_advance.bind fun equals equals' hequals => ?_
    exact h.bind fun value value' hvalue => agrees_assign hequals htarget hvalue
  · exact agrees_pure htarget

end Expressions

theorem agrees_expression :
    ∀ n, Agrees Expr.bare (expression n : Production TokenList Expr) (expression n) := by
  intro n
  induction n with
  | zero => exact agrees_exhausted
  | succ n ih => exact agrees_assignment ih n

theorem agrees_typeName :
    Agrees TypeName.bare (typeName : Production TokenList TypeName) typeName := by
  unfold typeName
  refine .content fun c => ?_
  cases c with
  | identifier name => exact agrees_advance.bind fun _ _ _ => agrees_pure rfl
  | keyword word script =>
    dsimp only
    split
    · exact agrees_advance.bind fun _ _ _ => agrees_pure rfl
    · exact agrees_reject _
  | _ => exact agrees_reject _

theorem agrees_ascription? : Agrees (Option.map TypeName.bare)
    (ascription? : Production TokenList (Option TypeName)) ascription? := by
  unfold ascription?
  refine .accept fun more => ?_
  split
  · exact agrees_typeName.bind fun t t' ht => agrees_pure (congrArg some ht)
  · exact agrees_pure rfl

theorem agrees_parameter :
    Agrees Parameter.bare (parameter : Production TokenList Parameter) parameter := by
  unfold parameter
  refine (agrees_identifier _).bind fun name name' hname => ?_
  refine agrees_ascription?.bind fun t t' ht => agrees_lastStop.bind fun _ _ _ => agrees_pure ?_
  rw [Parameter.bare, Parameter.bare, hname, ht]

theorem agrees_resultType? : Agrees (Option.map TypeName.bare)
    (resultType? : Production TokenList (Option TypeName)) resultType? := by
  unfold resultType?
  refine .accept fun more => ?_
  split
  · refine (agrees_expect _ _).bind fun _ _ _ => ?_
    exact agrees_typeName.bind fun t t' ht => agrees_pure (congrArg some ht)
  · exact agrees_pure rfl

section Statements

variable {self : Production TokenList Stmt} {expr : Production TokenList Expr}

theorem agrees_block (h : Agrees Stmt.bare self self) (budget : Nat) :
    Agrees Block.bare (block self budget) (block self budget) := by
  unfold block
  refine (agrees_expect _ _).bind fun _ _ _ => ?_
  refine (agrees_itemsUntil h closesBlock budget).bind fun ss ss' hss => ?_
  refine (agrees_expect _ _).bind fun _ _ _ => agrees_pure ?_
  rw [Block.bare, Block.bare, Stmt.bareList_eq_map, Stmt.bareList_eq_map, hss]

theorem agrees_functionDeclaration (h : Agrees Stmt.bare self self) (budget : Nat) :
    Agrees Stmt.bare (functionDeclaration self budget) (functionDeclaration self budget) := by
  unfold functionDeclaration
  refine agrees_advance.bind fun _ _ _ => ?_
  refine (agrees_identifier _).bind fun name name' hname => ?_
  refine (agrees_expect _ _).bind fun _ _ _ => ?_
  refine (agrees_commaList? agrees_parameter budget).bind fun ps ps' hps => ?_
  refine (agrees_expect _ _).bind fun _ _ _ => ?_
  refine agrees_resultType?.bind fun result result' hresult => ?_
  refine (agrees_block h budget).bind fun body body' hbody => agrees_pure ?_
  rw [Stmt.bare, Stmt.bare, hname, hps, hresult, hbody]

theorem agrees_initial? (h : Agrees Expr.bare expr expr) :
    Agrees (Option.map Expr.bare) (initial? expr) (initial? expr) := by
  unfold initial?
  refine .accept fun more => ?_
  split
  · exact h.bind fun e e' he => agrees_pure (congrArg some he)
  · exact agrees_pure rfl

theorem agrees_variableDeclaration (h : Agrees Expr.bare expr expr) (constant : Bool) :
    Agrees Stmt.bare (variableDeclaration expr constant) (variableDeclaration expr constant) := by
  unfold variableDeclaration
  refine agrees_advance.bind fun _ _ _ => ?_
  refine (agrees_identifier _).bind fun name name' hname => ?_
  refine agrees_ascription?.bind fun t t' ht => (agrees_initial? h).bind fun e e' he => ?_
  refine (agrees_expect _ _).bind fun _ _ _ => agrees_lastStop.bind fun _ _ _ => agrees_pure ?_
  rw [Stmt.bare, Stmt.bare, hname, ht, he]

theorem agrees_alternative (h : Agrees Stmt.bare self self) (budget : Nat) :
    Agrees Block.bare (alternative self budget) (alternative self budget) := by
  unfold alternative
  refine .content fun c => ?_
  split
  · refine h.bind fun nested nested' hnested => agrees_pure ?_
    rw [Block.bare, Block.bare, Stmt.bareList, Stmt.bareList, hnested]
    rfl
  · exact agrees_block h budget

theorem agrees_conditional (h : Agrees Stmt.bare self self) (hx : Agrees Expr.bare expr expr)
    (budget : Nat) : Agrees Stmt.bare (conditional self expr budget) (conditional self expr budget) := by
  unfold conditional
  refine agrees_advance.bind fun _ _ _ => hx.bind fun condition condition' hcondition => ?_
  refine (agrees_block h budget).bind fun yes yes' hyes => .content fun c => ?_
  split
  · refine agrees_advance.bind fun _ _ _ => (agrees_alternative h budget).bind fun no no' hno => ?_
    refine agrees_lastStop.bind fun _ _ _ => agrees_pure ?_
    rw [Stmt.bare, Stmt.bare, hcondition, hyes, hno]
  · refine agrees_lastStop.bind fun _ _ _ => agrees_pure ?_
    rw [Stmt.bare, Stmt.bare, hcondition, hyes]

theorem agrees_loop (h : Agrees Stmt.bare self self) (hx : Agrees Expr.bare expr expr)
    (budget : Nat) : Agrees Stmt.bare (loop self expr budget) (loop self expr budget) := by
  unfold loop
  refine agrees_advance.bind fun _ _ _ => hx.bind fun condition condition' hcondition => ?_
  refine (agrees_block h budget).bind fun body body' hbody => agrees_pure ?_
  rw [Stmt.bare, Stmt.bare, hcondition, hbody]

theorem agrees_returned? (h : Agrees Expr.bare expr expr) :
    Agrees (Option.map Expr.bare) (returned? expr) (returned? expr) := by
  unfold returned?
  refine .content fun c => ?_
  split
  · exact agrees_pure rfl
  · exact h.bind fun e e' he => agrees_pure (congrArg some he)

theorem agrees_returnStatement (h : Agrees Expr.bare expr expr) :
    Agrees Stmt.bare (returnStatement expr) (returnStatement expr) := by
  unfold returnStatement
  refine agrees_advance.bind fun _ _ _ => (agrees_returned? h).bind fun value value' hvalue => ?_
  refine (agrees_expect _ _).bind fun _ _ _ => agrees_lastStop.bind fun _ _ _ => agrees_pure ?_
  rw [Stmt.bare, Stmt.bare, hvalue]

theorem agrees_expressionStatement (h : Agrees Expr.bare expr expr) :
    Agrees Stmt.bare (expressionStatement expr) (expressionStatement expr) := by
  unfold expressionStatement
  refine agrees_currentStart.bind fun _ _ _ => h.bind fun e e' he => ?_
  refine (agrees_expect _ _).bind fun _ _ _ => agrees_lastStop.bind fun _ _ _ => agrees_pure ?_
  rw [Stmt.bare, Stmt.bare, he]

theorem agrees_keywordStatement (h : Agrees Stmt.bare self self) (hx : Agrees Expr.bare expr expr)
    (budget : Nat) (word : Keyword) :
    Agrees Stmt.bare (keywordStatement self expr budget word) (keywordStatement self expr budget word) := by
  cases word with
  | fn => exact agrees_functionDeclaration h budget
  | let_ => exact agrees_variableDeclaration hx false
  | const => exact agrees_variableDeclaration hx true
  | if_ => exact agrees_conditional h hx budget
  | while_ => exact agrees_loop h hx budget
  | return_ => exact agrees_returnStatement hx
  | _ => exact agrees_reject _

theorem agrees_statementForm (h : Agrees Stmt.bare self self) (hx : Agrees Expr.bare expr expr)
    (budget : Nat) : Agrees Stmt.bare (statementForm self expr budget) (statementForm self expr budget) := by
  unfold statementForm
  refine .content fun c => ?_
  cases c with
  | keyword word script => exact agrees_keywordStatement h hx budget word
  | _ => exact agrees_expressionStatement hx

end Statements

theorem agrees_statement :
    ∀ n, Agrees Stmt.bare (statement n : Production TokenList Stmt) (statement n) := by
  intro n
  induction n with
  | zero => exact agrees_exhausted
  | succ n ih => exact agrees_statementForm ih (agrees_expression (n + 1)) n

theorem agrees_program (n : Nat) :
    Agrees Program.bare (program n : Production TokenList Program) (program n) := by
  unfold program
  refine (agrees_itemsUntil (agrees_statement n) _ n).bind fun ss ss' hss => agrees_pure ?_
  rw [Program.bare, Program.bare, Stmt.bareList_eq_map, Stmt.bareList_eq_map, hss]

theorem Twins.budget_eq {p q : Parser TokenList} (h : Twins p q) : p.budget = q.budget := by
  have hlength : p.source.tokens.length = q.source.tokens.length := by
    simpa using congrArg List.length h.tokens
  have hend : p.current.isEnd = q.current.isEnd := by rw [Token.isEnd, Token.isEnd, h.current]
  change p.source.tokens.length + _ + 2 = q.source.tokens.length + _ + 2
  rw [hlength, hend]

theorem twins_ofSource {us vs : TokenList}
    (h : us.tokens.map Token.content = vs.tokens.map Token.content) : ∃ p q : Parser TokenList,
      ofSource us = .ok p ∧ ofSource vs = .ok q ∧ Twins p q := by
  obtain ⟨ts, last, hlast⟩ := us
  obtain ⟨ts', last', hlast'⟩ := vs
  cases ts with
  | nil =>
    obtain rfl : ts' = [] := List.map_eq_nil_iff.mp h.symm
    have hends : last.content = last'.content :=
      (Token.isEnd_iff.mp hlast).trans (Token.isEnd_iff.mp hlast').symm
    exact ⟨_, _, rfl, rfl, hends, rfl⟩
  | cons t ts =>
    cases ts' with
    | nil => cases h
    | cons t' ts' =>
      obtain ⟨hfirst, hrest⟩ := List.cons.inj h
      exact ⟨_, _, rfl, rfl, hfirst, hrest⟩

end Parser

namespace Program

/-- Both are programs that differ in their spans, or both are rejected for the same demand at tokens that
say the same. -/
inductive Alike : Except ParseError Program → Except ParseError Program → Prop where
  | ok {a b : Program} (h : a.bare = b.bare) : Alike (.ok a) (.ok b)
  | rejected {expected : Expected} {t u : Token} (h : t.content = u.content) :
      Alike (.error (.grammatical ⟨expected, t⟩)) (.error (.grammatical ⟨expected, u⟩))

theorem alike_of_agree {r r' : Reply ParseError (Parser TokenList) Program}
    (h : Parser.Agree bare r r') (hr : r ≠ .exhausted) (hr' : r' ≠ .exhausted) :
    Alike (r.settled hr).1 (r'.settled hr').1 := by
  cases h with
  | ok hab _ => exact .ok hab
  | rejected hfound _ => exact .rejected hfound
  | exhausted => exact absurd rfl hr

theorem ofTokens_alike {us vs : TokenList}
    (h : us.tokens.map Token.content = vs.tokens.map Token.content) :
    Alike (ofTokens us) (ofTokens vs) := by
  obtain ⟨p, q, hp, hq, hpq⟩ := Parser.twins_ofSource h
  rw [ofTokens, ofTokens, hp, hq]
  change Alike p.parseProgram.1 q.parseProgram.1
  have hagree := (Parser.agrees_program p.budget).reply hpq
  have hbudget : Parser.program p.budget q = Parser.program q.budget q := by rw [hpq.budget_eq]
  rw [hbudget] at hagree
  exact alike_of_agree hagree p.program_ne_exhausted q.program_ne_exhausted

/-- What stands between the tokens of a source does not matter. Take the texts of its tokens and put any
separators in front of them, each a blank and then blanks, line comments with their newlines and closed
block comments. The tokens of this text say the same, and its program differs in the spans only, or it is
rejected for the same demand at a token that says the same. -/
theorem ofSource_respaced {source : String} {us : List Token} {last : Token}
    (h : (Lexer.ofSource source).scanAll.1 = .ok (us ++ [last])) {gaps : List (List Char)}
    (hlength : gaps.length = us.length) (hgaps : ∀ gap ∈ gaps, Trivia.IsSeparator gap) :
    let text := String.ofList (Token.joined source.toList gaps us)
    (∃ vs, (Lexer.ofSource text).scanAll.1 = .ok vs ∧
      vs.map Token.content = (us ++ [last]).map Token.content) ∧
      Alike (ofSource source) (ofSource text) := by
  intro text
  have hscans := Lexer.scans_of_scanAll h
  obtain ⟨m, n, hgives, -, hlast⟩ := hscans.gives
  have htext : (Lexer.ofSource text).rest = Token.joined source.toList gaps us :=
    String.toList_ofList
  obtain ⟨vs, e, hvs, he, hcontents⟩ :=
    hgives.joined (Lexer.standsAfter_ofChars source.toList) hlength hgaps htext
  constructor
  · refine ⟨vs ++ [e], hvs.scanAll, ?_⟩
    rw [List.map_append, List.map_append, hcontents, List.map_singleton, List.map_singleton,
      Token.isEnd_iff.mp he, Token.isEnd_iff.mp hlast]
  · have hsource : ofSource source = ofTokens ⟨us, last, hlast⟩ := ofSource_eq_ofTokens hscans
    have hjoined : ofSource text = ofTokens ⟨vs, e, he⟩ := ofSource_eq_ofTokens hvs
    rw [hsource, hjoined]
    exact ofTokens_alike hcontents.symm

/-- A comment in front of an operator, a comment that names it, and a string that is not closed. -/
theorem ofSource_respaced_comments :
    (Lexer.ofSource "a<='x").scanAll.1 = .ok ([⟨.identifier "a", ⟨1, 1⟩, ⟨0, 1⟩⟩,
      ⟨.operator "<=", ⟨1, 2⟩, ⟨1, 3⟩⟩, ⟨.string "x", ⟨1, 4⟩, ⟨3, 5⟩⟩] ++
      [⟨.endOfInput, ⟨1, 6⟩, ⟨5, 5⟩⟩]) ∧
    (∀ gap ∈ [[' '], "\t/* ' */".toList, "\n// <=\n".toList], Trivia.IsSeparator gap) ∧
    (∃ vs, (Lexer.ofSource " a\t/* ' */<=\n// <=\n'x").scanAll.1 = .ok vs ∧
      vs.map Token.content = [.identifier "a", .operator "<=", .string "x", .endOfInput]) ∧
    Alike (ofSource "a<='x") (ofSource " a\t/* ' */<=\n// <=\n'x") := by
  have hscan : (Lexer.ofSource "a<='x").scanAll.1.toOption = some ([⟨.identifier "a", ⟨1, 1⟩, ⟨0, 1⟩⟩,
      ⟨.operator "<=", ⟨1, 2⟩, ⟨1, 3⟩⟩, ⟨.string "x", ⟨1, 4⟩, ⟨3, 5⟩⟩] ++
      [⟨.endOfInput, ⟨1, 6⟩, ⟨5, 5⟩⟩]) := by decide +kernel
  have hgaps : ∀ gap ∈ [[' '], "\t/* ' */".toList, "\n// <=\n".toList], Trivia.IsSeparator gap := by
    have hblank : Trivia.IsSeparator [' '] := ⟨' ', [], rfl, by decide, .nil⟩
    have hblock : Trivia.IsSeparator "\t/* ' */".toList :=
      ⟨'\t', '/' :: '*' :: (" ' ".toList ++ ['*', '/']), rfl, by decide, .block (by decide) .nil⟩
    have hline : Trivia.IsSeparator "\n// <=\n".toList :=
      ⟨'\n', '/' :: '/' :: (" <=".toList ++ ['\n']), rfl, by decide, .line (by decide) .nil⟩
    simp only [List.forall_mem_cons]
    exact ⟨hblank, hblock, hline, List.forall_mem_nil _⟩
  have htext : " a\t/* ' */<=\n// <=\n'x" = String.ofList (Token.joined "a<='x".toList
      [[' '], "\t/* ' */".toList, "\n// <=\n".toList] [⟨.identifier "a", ⟨1, 1⟩, ⟨0, 1⟩⟩,
        ⟨.operator "<=", ⟨1, 2⟩, ⟨1, 3⟩⟩, ⟨.string "x", ⟨1, 4⟩, ⟨3, 5⟩⟩]) := by decide +kernel
  obtain ⟨htokens, halike⟩ := ofSource_respaced (eq_ok_of_toOption hscan) rfl hgaps
  rw [← htext] at htokens halike
  exact ⟨eq_ok_of_toOption hscan, hgaps, htokens, halike⟩

end Program
end Dvilipi
