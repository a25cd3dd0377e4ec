import Dvilipi.Session.Basic
import Dvilipi.Value.Operation

/-!
Running expressions and statements in a session. `enter` stands for running the body of a declared
function, and `rounds` bounds how often the body of a loop may be repeated; running gives up when the
bound is reached. Operands and arguments are run from left to right, and the first error ends all.
-/

namespace Dvilipi
set_option autoImplicit false

abbrev Run (α : Type) := Action RuntimeError Session α

namespace Run

def lookup (name : String) (span : Span) : Run Value := fun s =>
  match s.environment.get? name with
  | some v => .ok v s
  | none => .failed ⟨.undefinedVariable name, span⟩ s

def callNative (native : Native) (values : List Value) (span : Span) : Run Value := fun s =>
  match native values s.sink with
  | (.ok v, sink) => .ok v { s with sink }
  | (.error detail, sink) => .failed ⟨.outputFailed detail, span⟩ { s with sink }

/-- The state in which the body of a call starts: the caller's variables, and the parameters bound to
the values in order. A parameter without a value stays as it is, a value without a parameter is
dropped. -/
def calleeState (d : Definition) (values : List Value) (s : Session) : Session :=
  { s with
    environment := s.environment.insertAll (d.parameters.zip values)
    depth := s.depth + 1 }

/-- The state after a call that left `t` behind: the caller's variables are back. -/
def callerState (s t : Session) : Session :=
  { t with environment := s.environment, depth := t.depth - 1 }

/-- Calls a declared function, unless too many calls are active. However the body ends, the caller
finds its own variables and depth again. -/
def callUser (enter : Block → Run Flow) (name : String) (d : Definition) (values : List Value)
    (span : Span) : Run Value := fun s =>
  if Session.maxDepth ≤ s.depth then
    .failed ⟨.callDepthExceeded name Session.maxDepth, span⟩ s
  else
    match enter d.body (calleeState d values s) with
    | .ok flow t => .ok flow.value (callerState s t)
    | .failed e t => .failed e (callerState s t)
    | .exhausted => .exhausted

/-- Repeats `body` as long as `test` holds; a `return` in the body ends the loop. -/
def iterate (test : Run Bool) (body : Run Flow) : Nat → Run Flow
  | 0, _ => .exhausted
  | n + 1, s =>
    match test s with
    | .ok true t =>
      match body t with
      | .ok (.next _) u => iterate test body n u
      | .ok (.leaving v) u => .ok (.leaving v) u
      | .failed e u => .failed e u
      | .exhausted => .exhausted
    | .ok false t => .ok (.next .nil) t
    | .failed e t => .failed e t
    | .exhausted => .exhausted

end Run

mutual

def Expr.eval (enter : Block → Run Flow) : Expr → Run Value
  | .number x _ => pure (.number x)
  | .string t _ => pure (.string t)
  | .reference x span => Run.lookup x span
  | .assign x e _ => do
    let v ← e.eval enter
    Action.modify (·.define x v)
    return v
  | .binary op a b _ => do
    let x ← a.eval enter
    let y ← b.eval enter
    return op.apply x y
  | .logical op a b _ => do
    let x ← a.eval enter
    if op.decides x then return x else b.eval enter
  | .unary op e _ => do
    let v ← e.eval enter
    return op.apply v
  | .call f es span => do
    match (← Action.get).resolve f with
    | some (.native native) =>
      let vs ← Expr.evalList enter es
      Run.callNative native vs span
    | some (.user d) =>
      let vs ← Expr.evalList enter es
      Run.callUser enter f d vs span
    | none => Action.fail ⟨.undefinedFunction f, span⟩

def Expr.evalList (enter : Block → Run Flow) : List Expr → Run (List Value)
  | [] => pure []
  | e :: es => do
    let v ← e.eval enter
    let vs ← Expr.evalList enter es
    return v :: vs

end

mutual

def Stmt.exec (enter : Block → Run Flow) (rounds : Nat) : Stmt → Run Flow
  | .function f ps _ body _ => do
    Action.modify (·.declare ⟨f, ps.map Parameter.name, body⟩)
    return .next .nil
  | .binding x _ _ (some e) _ => do
    let v ← e.eval enter
    Action.modify (·.define x v)
    return .next .nil
  | .binding _ _ _ none _ => return .next .nil
  | .expression e _ => do
    let v ← e.eval enter
    return .next v
  | .ifThen c yes _ => do
    let v ← c.eval enter
    if v.isTruthy then yes.exec enter rounds else return .next .nil
  | .ifElse c yes no _ => do
    let v ← c.eval enter
    if v.isTruthy then yes.exec enter rounds else no.exec enter rounds
  | .while_ c body _ =>
    let test : Run Bool := do
      let v ← c.eval enter
      return v.isTruthy
    Run.iterate test (body.exec enter rounds) rounds
  | .return_ (some e) _ => do
    let v ← e.eval enter
    return .leaving v
  | .return_ none _ => return .leaving .nil

/-- A block ends with the value of its last statement. -/
def Block.exec (enter : Block → Run Flow) (rounds : Nat) : Block → Run Flow
  | .mk statements _ => Stmt.execFrom enter rounds .nil statements

/-- Runs statements in order; `last` is the value of the one before them. -/
def Stmt.execFrom (enter : Block → Run Flow) (rounds : Nat) (last : Value) : List Stmt → Run Flow
  | [] => return .next last
  | s :: ss => do
    match ← s.exec enter rounds with
    | .next v => Stmt.execFrom enter rounds v ss
    | .leaving v => return .leaving v

end

/-- Runs a body in which calls may be nested `calls` deep. -/
def Block.enter (rounds : Nat) : Nat → Block → Run Flow
  | 0, _ => .exhausted
  | calls + 1, body => body.exec (Block.enter rounds calls) rounds

end Dvilipi
