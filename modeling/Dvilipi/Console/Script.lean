import Dvilipi.Console.Transcript
import Dvilipi.Session.Program
import Dvilipi.Tree.Node

/-!
What can be done with a whole script: run it in a fresh session, list its tokens, or list its tree.
-/

namespace Dvilipi.Script
set_option autoImplicit false

inductive Mode where
  | run
  | tokens
  | tree
  deriving DecidableEq, Repr

/-- How a script ended; running is unfinished when the rounds of a loop are used up. -/
inductive Verdict where
  | ok
  | failed
  | unfinished
  deriving DecidableEq, Repr

def report (e : Error) (source : String) (filename : Option String) : Transcript :=
  .ofDiagnostic (.ofError e source filename)

def run (rounds : Nat) (source : String) (filename : Option String) : Transcript × Verdict :=
  match Session.run rounds source (.fresh .unlimited) with
  | .ok _ s => (.ofBytes s.sink.stored, .ok)
  | .failed e s => (.ofBytes s.sink.stored ++ report e source filename, .failed)
  | .exhausted => (.empty, .unfinished)

def listTokens (source : String) (filename : Option String) : Transcript × Verdict :=
  match (Lexer.ofSource source).scanAll.1 with
  | .ok tokens => (.ofText (String.join (tokens.map fun t => t.listing ++ "\n")), .ok)
  | .error e => (report (.parse (.lexical e)) source filename, .failed)

def listTree (source : String) (filename : Option String) : Transcript × Verdict :=
  match Program.ofSource source with
  | .ok p => (.ofText p.listing, .ok)
  | .error e => (report (.parse e) source filename, .failed)

def perform (mode : Mode) (rounds : Nat) (source : String) (filename : Option String) :
    Transcript × Verdict :=
  match mode with
  | .run => run rounds source filename
  | .tokens => listTokens source filename
  | .tree => listTree source filename

end Dvilipi.Script
