import Dvilipi.Session.Sink
import Dvilipi.Value.Basic

/-!
Native functions: what a session can call besides the functions that programs declare. A native gets
the values of its arguments and the sink; it gives a value, or the text of a failure.
-/

namespace Dvilipi
set_option autoImplicit false

abbrev Native := List Value → Sink → Except String Value × Sink

namespace Native

/-- The displayed values with single blanks between them, and a newline. -/
def printedLine (values : List Value) : String :=
  " ".intercalate (values.map Value.display) ++ "\n"

/-- Writes its arguments on a line and flushes. -/
def print : Native := fun values sink =>
  match sink.write (printedLine values) with
  | (.error detail, sink) => (.error detail, sink)
  | (.ok (), sink) => (sink.flush.map fun () => .nil, sink)

/-- Names the type of its first argument. -/
def typeOf : Native := fun values sink =>
  match values with
  | v :: _ => (.ok (.string v.typeName), sink)
  | [] => (.ok (.string Value.nil.typeName), sink)

end Native
end Dvilipi
