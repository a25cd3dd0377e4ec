import Dvilipi.Proofs.Grammar.Derivation

/-!
The tokens with which derived texts begin. An expression begins with a literal, a name, an opening
parenthesis or a unary operator, a block with its brace, and every statement that is no expression
with its word.
-/

namespace Dvilipi.Grammar
set_option autoImplicit false

/-- Tokens with which an expression may begin. -/
def StartsExpression : Token.Content → Prop
  | .number _ => True
  | .string _ => True
  | .identifier _ => True
  | .delimiter mark => mark = '('
  | .operator symbol => ∃ op, (symbol, op) ∈ unaryTable
  | .keyword _ _ => False
  | .endOfInput => False

/-- Tokens with which a statement may begin. -/
def StartsStatement : Token.Content → Prop
  | .keyword word _ => word ∈ [.fn, .let_, .const, .if_, .while_, .return_]
  | c => StartsExpression c

theorem Primary.tokens_start (e : Primary) : ∃ c us, e.tokens = c :: us ∧ StartsExpression c := by
  cases e with
  | number x => exact ⟨_, _, rfl, trivial⟩
  | string t => exact ⟨_, _, rfl, trivial⟩
  | name x => exact ⟨_, _, rfl, trivial⟩
  | call f es => exact ⟨_, _, rfl, trivial⟩
  | group e => exact ⟨_, _, rfl, rfl⟩

theorem Unary.tokens_start (e : Unary) : ∃ c us, e.tokens = c :: us ∧ StartsExpression c := by
  cases e with
  | applied op e => exact ⟨_, _, rfl, op.val.2, op.property⟩
  | primary e => exact e.tokens_start

theorem Tier.tokens_start {n : Nat} (e : Tier n) :
    ∃ c us, e.tokens = c :: us ∧ StartsExpression c := by
  cases e with
  | unary e => exact e.tokens_start
  | chain first rest =>
    obtain ⟨c, us, h, hc⟩ := first.tokens_start
    exact ⟨c, us ++ rest.tokens, by simp [Tier.tokens, h], hc⟩
termination_by structural e

theorem Expression.tokens_start (e : Expression) :
    ∃ c us, e.tokens = c :: us ∧ StartsExpression c := by
  cases e with
  | plain e => exact e.tokens_start
  | assign target value =>
    obtain ⟨c, us, h, hc⟩ := target.tokens_start
    exact ⟨c, _, by rw [Expression.tokens, h, List.cons_append], hc⟩

theorem Statement.tokens_start (s : Statement) :
    ∃ c us, s.tokens = c :: us ∧ StartsStatement c := by
  cases s with
  | function script f ps r body => exact ⟨_, _, rfl, by simp [StartsStatement]⟩
  | binding constant script x t e =>
    exact ⟨_, _, rfl, by cases constant <;> simp [StartsStatement]⟩
  | conditional c =>
    cases c with
    | mk script c yes otherwise => exact ⟨_, _, rfl, by simp [StartsStatement]⟩
  | loop script c body => exact ⟨_, _, rfl, by simp [StartsStatement]⟩
  | leave script e => exact ⟨_, _, rfl, by simp [StartsStatement]⟩
  | expression e =>
    obtain ⟨c, us, h, hc⟩ := e.tokens_start
    refine ⟨c, us ++ [.delimiter ';'], by simp [Statement.tokens, h], ?_⟩
    cases c with
    | keyword word script => exact False.elim hc
    | _ => exact hc

/-- The word that tells which rule a statement is derived by; none for expressions. -/
def Statement.word : Statement → Option Keyword
  | .function _ _ _ _ _ => some .fn
  | .binding constant _ _ _ _ => some (if constant then .const else .let_)
  | .conditional _ => some .if_
  | .loop _ _ _ => some .while_
  | .leave _ _ => some .return_
  | .expression _ => none

def wordOf : Token.Content → Option Keyword
  | .keyword word _ => some word
  | _ => none

theorem Statement.wordOf_first (s : Statement) : ∃ c us, s.tokens = c :: us ∧ wordOf c = s.word := by
  cases s with
  | function script f ps r body => exact ⟨_, _, rfl, rfl⟩
  | binding constant script x t e => exact ⟨_, _, rfl, rfl⟩
  | conditional c =>
    cases c with
    | mk script c yes otherwise => exact ⟨_, _, rfl, rfl⟩
  | loop script c body => exact ⟨_, _, rfl, rfl⟩
  | leave script e => exact ⟨_, _, rfl, rfl⟩
  | expression e =>
    obtain ⟨c, us, h, hc⟩ := e.tokens_start
    refine ⟨c, us ++ [.delimiter ';'], by simp [Statement.tokens, h], ?_⟩
    cases c with
    | keyword word script => exact False.elim hc
    | _ => rfl

theorem Statement.eq_conditional {s : Statement} {script : Script} {us : List Token.Content}
    (h : s.tokens = .keyword .if_ script :: us) : ∃ c, s = .conditional c := by
  obtain ⟨c, vs, hc, hw⟩ := s.wordOf_first
  rw [h] at hc
  cases hc
  cases s with
  | conditional c => exact ⟨c, rfl⟩
  | binding constant => cases constant <;> cases hw
  | _ => cases hw

theorem Alternative.absent_or_else (d : Alternative) :
    d = .absent ∨ ∃ script us, d.tokens = .keyword .else_ script :: us := by
  cases d with
  | absent => exact .inl rfl
  | block script no => exact .inr ⟨script, _, rfl⟩
  | conditional script c => exact .inr ⟨script, _, rfl⟩

end Dvilipi.Grammar
