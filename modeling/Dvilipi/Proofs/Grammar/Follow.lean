import Dvilipi.Proofs.Grammar.First
import Dvilipi.Proofs.Grammar.Operators

/-!
The tokens that end derived texts. A token ends a text if the text could not go on with it; where an
expression is followed by such a token, it has been read as far as possible.
-/

namespace Dvilipi.Grammar
set_option autoImplicit false

/-- Tokens with which an expression whose operators lie below level `n` cannot go on. -/
def EndsTier (n : Nat) (c : Token.Content) : Prop :=
  c ≠ .delimiter '(' ∧ ∀ m, m < n → ∀ symbol op, (symbol, op) ∈ infixTable m → c ≠ .operator symbol

def EndsExpression (c : Token.Content) : Prop := EndsTier 6 c ∧ c ≠ .operator "="

theorem EndsTier.mono {m n : Nat} {c : Token.Content} (h : EndsTier n c) (hmn : m ≤ n) :
    EndsTier m c :=
  ⟨h.1, fun k hk => h.2 k (Nat.lt_of_lt_of_le hk hmn)⟩

theorem EndsTier.infixOp?_eq_none {m n : Nat} {c : Token.Content} (h : EndsTier n c) (hmn : m < n) :
    Parser.infixOp? m c = none := by
  cases ho : Parser.infixOp? m c with
  | none => rfl
  | some op =>
    obtain ⟨symbol, hc, hmem⟩ := infixOp?_eq_some_iff.mp ho
    exact absurd hc (h.2 m hmn symbol op hmem)

theorem endsTier_operator {n : Nat} (op : InfixAt n) : EndsTier n (.operator op.val.1) := by
  refine ⟨Token.Content.noConfusion, ?_⟩
  intro m hm symbol other hmem heq
  cases heq
  exact absurd (infixTable_unique hmem op.property).2 (Nat.ne_of_lt hm)

theorem endsTier_equals (n : Nat) : EndsTier n (.operator "=") := by
  refine ⟨Token.Content.noConfusion, ?_⟩
  intro m _ symbol op hmem heq
  cases heq
  have hs := (mem_infixTable_iff.mp hmem).1
  cases op with
  | binary op => cases op <;> exact absurd hs (by decide)
  | logical op => cases op <;> exact absurd hs (by decide)

theorem endsExpression_delimiter {mark : Char} (h : mark ≠ '(') :
    EndsExpression (.delimiter mark) := by
  refine ⟨⟨?_, fun _ _ _ _ _ => Token.Content.noConfusion⟩, Token.Content.noConfusion⟩
  intro he
  cases he
  exact h rfl

/-- Tokens that follow a statement: any but the word with which a conditional goes on. -/
def EndsStatement (c : Token.Content) : Prop := ∀ script, c ≠ .keyword .else_ script

theorem StartsStatement.ends {c : Token.Content} (h : StartsStatement c) : EndsStatement c := by
  rintro script rfl
  simp [StartsStatement] at h

theorem StartsExpression.ne_delimiter {c : Token.Content} {mark : Char} (h : StartsExpression c)
    (hm : mark ≠ '(') : c ≠ .delimiter mark := by
  rintro rfl
  exact hm h

theorem StartsStatement.ne_delimiter {c : Token.Content} {mark : Char} (h : StartsStatement c)
    (hm : mark ≠ '(') : c ≠ .delimiter mark := by
  rintro rfl
  exact hm h

end Dvilipi.Grammar
