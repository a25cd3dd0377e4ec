import Dvilipi.Parser.Source
import Dvilipi.Session.Run

/-!
Running whole programs and source texts in a session. No call is nested deeper than the session's limit
allows, so the number of rounds of loops is the only bound that running can reach.
-/

namespace Dvilipi
set_option autoImplicit false

namespace Session

/-- More rounds than a loop that ends goes through in practice. -/
def ampleRounds : Nat := 0x4000_0000_0000_0000

/-- Runs a program; a `return` outside of functions ends it. -/
def interpret (rounds : Nat) (p : Program) : Run Value := do
  let flow ← Stmt.execFrom (Block.enter rounds maxDepth) rounds .nil p.statements
  return flow.value

def evaluate (rounds : Nat) (e : Expr) : Run Value := e.eval (Block.enter rounds maxDepth)

/-- Reads a source text and runs it, and records the stages in the log. -/
def run (rounds : Nat) (source : String) : Action Error Session Value := fun s =>
  let s := s.record (.parsing source.length)
  match Program.ofSource source with
  | .error e => .failed (.parse e) s
  | .ok p =>
    match interpret rounds p (s.record (.interpreting p.statements.length)) with
    | .ok v t => .ok v (t.record (.finished v.typeName))
    | .failed e t => .failed (.runtime e) t
    | .exhausted => .exhausted

end Session
end Dvilipi
