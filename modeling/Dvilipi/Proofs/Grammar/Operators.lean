import Dvilipi.Parser.Expression
import Dvilipi.Proofs.Grammar.Derivation

/-!
The operator tables of the grammar are those that the parser looks tokens up in.
-/

namespace Dvilipi.Grammar
set_option autoImplicit false

theorem mem_infixTable_iff {n : Nat} {symbol : String} {op : Infix} :
    (symbol, op) ∈ infixTable n ↔ op.symbol = symbol ∧ op.level = n := by
  constructor
  · have hall : ∀ entry ∈ infixTable n, entry.2.symbol = entry.1 ∧ entry.2.level = n := by
      match n with
      | 0 | 1 | 2 | 3 | 4 | 5 => decide
      | _ + 6 => simp [infixTable]
    exact fun h => hall _ h
  · rintro ⟨rfl, rfl⟩
    cases op with
    | binary op => cases op <;> simp [infixTable, Infix.level, Infix.symbol, BinaryOp.symbol]
    | logical op => cases op <;> simp [infixTable, Infix.level, Infix.symbol, LogicalOp.symbol]

theorem mem_unaryTable_iff {symbol : String} {op : UnaryOp} :
    (symbol, op) ∈ unaryTable ↔ op.symbol = symbol := by
  constructor
  · have hall : ∀ entry ∈ unaryTable, entry.2.symbol = entry.1 := by decide
    exact fun h => hall _ h
  · rintro rfl
    cases op <;> simp [unaryTable, UnaryOp.symbol]

theorem infixOp?_eq_some_iff {n : Nat} {c : Token.Content} {op : Infix} :
    Parser.infixOp? n c = some op ↔ ∃ symbol, c = .operator symbol ∧ (symbol, op) ∈ infixTable n := by
  cases c with
  | operator symbol =>
    simp only [Parser.infixOp?, Option.filter_eq_some_iff, beq_iff_eq, mem_infixTable_iff,
      Token.Content.operator.injEq, exists_eq_left']
    constructor
    · rintro ⟨h, hl⟩
      exact ⟨Infix.symbol_of_ofSymbol? h, hl⟩
    · rintro ⟨rfl, hl⟩
      exact ⟨Infix.ofSymbol?_symbol op, hl⟩
  | _ => simp [Parser.infixOp?]

theorem unaryOp?_eq_some_iff {c : Token.Content} {op : UnaryOp} :
    Parser.unaryOp? c = some op ↔ ∃ symbol, c = .operator symbol ∧ (symbol, op) ∈ unaryTable := by
  cases c with
  | operator symbol =>
    simp only [Parser.unaryOp?, mem_unaryTable_iff, Token.Content.operator.injEq, exists_eq_left']
    constructor
    · exact UnaryOp.symbol_of_ofSymbol?
    · rintro rfl
      exact UnaryOp.ofSymbol?_symbol op
  | _ => simp [Parser.unaryOp?]

theorem infixOp?_symbol {n : Nat} (op : InfixAt n) :
    Parser.infixOp? n (.operator op.val.1) = some op.val.2 :=
  infixOp?_eq_some_iff.mpr ⟨_, rfl, op.property⟩

theorem unaryOp?_symbol (op : UnarySymbol) : Parser.unaryOp? (.operator op.val.1) = some op.val.2 :=
  unaryOp?_eq_some_iff.mpr ⟨_, rfl, op.property⟩

theorem infixTable_unique {m n : Nat} {symbol : String} {a b : Infix}
    (ha : (symbol, a) ∈ infixTable m) (hb : (symbol, b) ∈ infixTable n) : a = b ∧ m = n := by
  obtain ⟨hsa, rfl⟩ := mem_infixTable_iff.mp ha
  obtain ⟨hsb, rfl⟩ := mem_infixTable_iff.mp hb
  have hab : some a = some b := by
    rw [← Infix.ofSymbol?_symbol a, ← Infix.ofSymbol?_symbol b, hsa, hsb]
  cases hab
  exact ⟨rfl, rfl⟩

theorem unaryTable_unique {symbol : String} {a b : UnaryOp} (ha : (symbol, a) ∈ unaryTable)
    (hb : (symbol, b) ∈ unaryTable) : a = b := by
  have hsa := mem_unaryTable_iff.mp ha
  have hsb := mem_unaryTable_iff.mp hb
  have hab : some a = some b := by
    rw [← UnaryOp.ofSymbol?_symbol a, ← UnaryOp.ofSymbol?_symbol b, hsa, hsb]
  exact Option.some.inj hab

theorem ofInfix_bare (op : Infix) (left right : Expr) :
    (Expr.ofInfix op left right).bare = joined op left.bare right.bare := by
  cases op <;> rfl

end Dvilipi.Grammar
