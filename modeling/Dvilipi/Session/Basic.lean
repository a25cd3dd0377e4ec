import Dvilipi.Action
import Dvilipi.Error
import Dvilipi.Session.Native
import Dvilipi.Session.Table
import Dvilipi.Tree.Basic

/-!
Sessions: the functions and variables that outlive a program, the sink, how deep calls are nested, and
a log. Natives and declared functions live in two tables; a name of the first hides the second.
-/

namespace Dvilipi
set_option autoImplicit false

/-- The variables of one call. A call works on a copy of its caller's, so there is no outer scope. -/
abbrev Environment := Table Value

structure Definition where
  name : String
  parameters : List String
  body : Block

/-- What the log records. -/
inductive Event where
  | parsing (characters : Nat)
  | interpreting (statements : Nat)
  | finished (typeName : String)
  | registering (name : String) (parameters : Nat)
  deriving DecidableEq, Repr

namespace Event

def level : Event → String
  | registering _ _ => "DEBUG"
  | _ => "TRACE"

def message : Event → String
  | parsing n => "parsing " ++ toString n ++ " characters"
  | interpreting n => "interpreting " ++ toString n ++ " statement(s)"
  | finished typeName => "finished with " ++ typeName ++ " value"
  | registering name n =>
    "registering function '" ++ name ++ "' with " ++ toString n ++ " parameter(s)"

end Event

structure Session where
  natives : Table Native
  functions : Table Definition
  environment : Environment
  sink : Sink
  depth : Nat
  log : Array Event

/-- How a statement ends: the next one follows, or a `return` is on its way out. -/
inductive Flow where
  | next (value : Value)
  | leaving (value : Value)
  deriving DecidableEq

def Flow.value : Flow → Value
  | next v => v
  | leaving v => v

/-- What a name stands for in a call. -/
inductive Callee where
  | native (native : Native)
  | user (definition : Definition)

namespace Session

/-- The number of calls of declared functions that may be active at a time. -/
def maxDepth : Nat := 256

def builtins : Table Native :=
  ((Table.empty.insert "print" Native.print).insert "मुद्रण" Native.print).insert
    "typeof" Native.typeOf

def fresh (sink : Sink) : Session := ⟨builtins, .empty, .empty, sink, 0, #[]⟩

def register (s : Session) (name : String) (native : Native) : Session :=
  { s with natives := s.natives.insert name native }

def hasFunction (s : Session) (name : String) : Bool :=
  s.natives.contains name || s.functions.contains name

def binding? (s : Session) (name : String) : Option Value := s.environment.get? name

def record (s : Session) (event : Event) : Session := { s with log := s.log.push event }

/-- Natives come first. -/
def resolve (s : Session) (name : String) : Option Callee :=
  match s.natives.get? name with
  | some native => some (.native native)
  | none => (s.functions.get? name).map .user

def declare (s : Session) (d : Definition) : Session :=
  { s.record (.registering d.name d.parameters.length) with functions := s.functions.insert d.name d }

def define (s : Session) (name : String) (v : Value) : Session :=
  { s with environment := s.environment.insert name v }

end Session
end Dvilipi
