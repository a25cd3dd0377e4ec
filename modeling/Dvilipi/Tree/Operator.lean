/-!
Operators of expressions and their symbols. Infix operators stand on six levels; those of a lower
level bind tighter, and all of them group to the left.
-/

namespace Dvilipi
set_option autoImplicit false

inductive BinaryOp where
  | add
  | subtract
  | multiply
  | divide
  | remainder
  | equal
  | notEqual
  | less
  | lessEqual
  | greater
  | greaterEqual
  deriving DecidableEq, Repr

inductive UnaryOp where
  | plus
  | negate
  | not
  deriving DecidableEq, Repr

inductive LogicalOp where
  | and
  | or
  deriving DecidableEq, Repr

namespace BinaryOp

def all : List BinaryOp :=
  [add, subtract, multiply, divide, remainder, equal, notEqual, less, lessEqual, greater,
    greaterEqual]

def symbol : BinaryOp → String
  | add => "+"
  | subtract => "-"
  | multiply => "*"
  | divide => "/"
  | remainder => "%"
  | equal => "=="
  | notEqual => "!="
  | less => "<"
  | lessEqual => "<="
  | greater => ">"
  | greaterEqual => ">="

def ofSymbol? (symbol : String) : Option BinaryOp := all.find? fun op => op.symbol == symbol

theorem symbol_of_ofSymbol? {symbol : String} {op : BinaryOp} (h : ofSymbol? symbol = some op) :
    op.symbol = symbol := by
  simpa using List.find?_some h

end BinaryOp

namespace UnaryOp

def all : List UnaryOp := [plus, negate, not]

def symbol : UnaryOp → String
  | plus => "+"
  | negate => "-"
  | not => "!"

def ofSymbol? (symbol : String) : Option UnaryOp := all.find? fun op => op.symbol == symbol

theorem symbol_of_ofSymbol? {symbol : String} {op : UnaryOp} (h : ofSymbol? symbol = some op) :
    op.symbol = symbol := by
  simpa using List.find?_some h

theorem ofSymbol?_symbol (op : UnaryOp) : ofSymbol? op.symbol = some op := by
  cases op <;> decide +kernel

end UnaryOp

def LogicalOp.symbol : LogicalOp → String
  | and => "&&"
  | or => "||"

/-- An operator that stands between its operands. -/
inductive Infix where
  | binary (op : BinaryOp)
  | logical (op : LogicalOp)
  deriving DecidableEq, Repr

namespace Infix

def symbol : Infix → String
  | binary op => op.symbol
  | logical op => op.symbol

def ofSymbol? (symbol : String) : Option Infix :=
  if symbol = "&&" then some (logical .and)
  else if symbol = "||" then some (logical .or)
  else (BinaryOp.ofSymbol? symbol).map binary

/-- The level of an operator; operands of level `n` hold operators below `n` only. -/
def level : Infix → Nat
  | binary .multiply | binary .divide | binary .remainder => 0
  | binary .add | binary .subtract => 1
  | binary .less | binary .greater | binary .lessEqual | binary .greaterEqual => 2
  | binary .equal | binary .notEqual => 3
  | logical .and => 4
  | logical .or => 5

/-- The number of levels. -/
def levels : Nat := 6

theorem level_lt (op : Infix) : op.level < levels := by
  cases op with
  | binary op => cases op <;> decide
  | logical op => cases op <;> decide

theorem symbol_of_ofSymbol? {symbol : String} {op : Infix} (h : ofSymbol? symbol = some op) :
    op.symbol = symbol := by
  unfold ofSymbol? at h
  split at h
  · next hs => cases h; exact hs.symm
  · split at h
    · next hs => cases h; exact hs.symm
    · obtain ⟨b, hb, rfl⟩ := Option.map_eq_some_iff.mp h
      exact BinaryOp.symbol_of_ofSymbol? hb

theorem ofSymbol?_symbol (op : Infix) : ofSymbol? op.symbol = some op := by
  cases op with
  | binary op => cases op <;> decide +kernel
  | logical op => cases op <;> decide +kernel

end Infix
end Dvilipi
