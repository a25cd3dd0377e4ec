import Dvilipi.Text.Span
import Dvilipi.Tree.Operator

/-!
Trees of programs. Every expression and statement carries the span of the text it was read from;
parentheses leave no trace.
-/

namespace Dvilipi
set_option autoImplicit false

inductive Expr where
  | number (value : Float) (span : Span)
  | string (text : String) (span : Span)
  | reference (name : String) (span : Span)
  | assign (name : String) (value : Expr) (span : Span)
  | binary (op : BinaryOp) (left right : Expr) (span : Span)
  | logical (op : LogicalOp) (left right : Expr) (span : Span)
  | unary (op : UnaryOp) (operand : Expr) (span : Span)
  | call (callee : String) (arguments : List Expr) (span : Span)

namespace Expr

def span : Expr → Span
  | .number _ s => s
  | .string _ s => s
  | .reference _ s => s
  | .assign _ _ s => s
  | .binary _ _ _ s => s
  | .logical _ _ _ s => s
  | .unary _ _ s => s
  | .call _ _ s => s

/-- The node of an infix operator reaches from its left operand to its right one. -/
def ofInfix (op : Infix) (left right : Expr) : Expr :=
  let s := left.span.«to» right.span
  match op with
  | .binary op => binary op left right s
  | .logical op => logical op left right s

theorem ofInfix_span (op : Infix) (left right : Expr) :
    (ofInfix op left right).span = left.span.«to» right.span := by
  cases op <;> rfl

end Expr

structure TypeName where
  name : String
  span : Span
  deriving DecidableEq, Repr

structure Parameter where
  name : String
  ascription : Option TypeName
  span : Span
  deriving DecidableEq, Repr

mutual

inductive Stmt where
  | function (name : String) (parameters : List Parameter) (result : Option TypeName) (body : Block)
      (span : Span)
  | binding (name : String) (constant : Bool) (ascription : Option TypeName) (initial : Option Expr)
      (span : Span)
  | expression (expr : Expr) (span : Span)
  | ifThen (condition : Expr) (yes : Block) (span : Span)
  | ifElse (condition : Expr) (yes no : Block) (span : Span)
  | while_ (condition : Expr) (body : Block) (span : Span)
  | return_ (value : Option Expr) (span : Span)

inductive Block where
  | mk (statements : List Stmt) (span : Span)

end

namespace Block

def statements : Block → List Stmt
  | mk statements _ => statements

def span : Block → Span
  | mk _ s => s

end Block

def Stmt.span : Stmt → Span
  | .function _ _ _ _ s => s
  | .binding _ _ _ _ s => s
  | .expression _ s => s
  | .ifThen _ _ s => s
  | .ifElse _ _ _ s => s
  | .while_ _ _ s => s
  | .return_ _ s => s

structure Program where
  statements : List Stmt

end Dvilipi
