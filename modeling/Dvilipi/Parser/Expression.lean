import Dvilipi.Parser.State

/-!
The grammar of expressions. `self` stands for the production of whole expressions wherever one is
nested, and a budget bounds every repetition; `expression` ties the knot. An assignment looks at what
stands before its `=` only after it has read what stands behind it.
-/

namespace Dvilipi.Parser
set_option autoImplicit false

variable {σ : Type} [TokenSource σ]

def call (self : Production σ Expr) (budget : Nat) (callee : String) (start : Nat) :
    Production σ Expr := do
  let _ ← advance
  let arguments ← commaList? self budget
  let close ← expect (.delimiter ')') .argumentsClose
  return .call callee arguments ⟨start, close.span.stop⟩

def group (self : Production σ Expr) : Production σ Expr := do
  let _ ← advance
  let e ← self
  let _ ← expect (.delimiter ')') .groupClose
  return e

def named (self : Production σ Expr) (budget : Nat) (name : String) : Production σ Expr := do
  let t ← advance
  if (← content) = .delimiter '(' then call self budget name t.span.start
  else return .reference name t.span

def primary (self : Production σ Expr) (budget : Nat) : Production σ Expr := do
  match ← content with
  | .number value =>
    let t ← advance
    return .number value t.span
  | .string text =>
    let t ← advance
    return .string text t.span
  | .identifier name => named self budget name
  | .delimiter mark => if mark = '(' then group self else reject .expression
  | _ => reject .expression

def unaryOp? : Token.Content → Option UnaryOp
  | .operator symbol => UnaryOp.ofSymbol? symbol
  | _ => none

/-- Unary operators, the last of them next to the operand. -/
def unary (self : Production σ Expr) (budget : Nat) : Nat → Production σ Expr
  | 0 => .exhausted
  | n + 1 => do
    match unaryOp? (← content) with
    | some op =>
      let t ← advance
      let e ← unary self budget n
      return .unary op e ⟨t.span.start, e.span.stop⟩
    | none => primary self budget

def infixOp? (level : Nat) : Token.Content → Option Infix
  | .operator symbol => (Infix.ofSymbol? symbol).filter fun op => op.level == level
  | _ => none

/-- Goes on from a left operand with operators of one level and their right operands. -/
def infixTail (operand : Production σ Expr) (level : Nat) : Nat → Expr → Production σ Expr
  | 0, _ => .exhausted
  | n + 1, left => do
    match infixOp? level (← content) with
    | some op =>
      let _ ← advance
      let right ← operand
      infixTail operand level n (.ofInfix op left right)
    | none => return left

/-- Expressions whose infix operators outside of parentheses lie below a level. -/
def tier (self : Production σ Expr) (budget : Nat) : Nat → Production σ Expr
  | 0 => unary self budget budget
  | level + 1 => do
    let left ← tier self budget level
    infixTail (tier self budget level) level budget left

/-- Makes the assignment whose `=` is the token `equals`. -/
def assign (equals : Token) (target value : Expr) : Production σ Expr :=
  match target with
  | .reference name s => return .assign name value (s.«to» value.span)
  | _ => rejectAt .assignmentTarget equals

def assignment (self : Production σ Expr) (budget : Nat) : Production σ Expr := do
  let target ← tier self budget Infix.levels
  if (← content) = .operator "=" then
    let equals ← advance
    let value ← self
    assign equals target value
  else return target

def expression : Nat → Production σ Expr
  | 0 => .exhausted
  | n + 1 => assignment (expression n) n

end Dvilipi.Parser
