import Dvilipi.Console.Transcript
import Dvilipi.Session.Program
import Dvilipi.Text.Blank

/-!
The interactive console. Each line is a command or a source text of its own; all lines share one
session, so functions and variables carry over. The console ends at the end of its input, at a command
to leave, or at a line that is no text.
-/

namespace Dvilipi.Repl
set_option autoImplicit false

def version : String := "0.1.0"

def banner : String :=
  "Sanskrit Interpreter v" ++ version ++ "\n" ++
    "Type '.help' for commands, '.exit' or Ctrl+D to quit\n\n"

def prompt : String := "sanskrit> "

def farewell : String := "Goodbye!\n"

def help : String :=
  "Commands:\n" ++
    "  .help          show this message\n" ++
    "  .exit          leave the session (also 'exit', 'quit', Ctrl+D)\n" ++
    "\n" ++
    "Statements end with ';'. Functions and variables persist between lines.\n" ++
    "Example: कार्य द्विगुण(x) \x7b प्रतिफल x * २; \x7d मुद्रण(द्विगुण(२१));\n"

def undecodable : String := "Error reading input: stream did not contain valid UTF-8"

inductive Command where
  | blank
  | leave
  | help
  | source (text : String)
  deriving DecidableEq

/-- What a line asks for, the blanks around it aside. -/
def Command.ofLine (line : String) : Command :=
  let text := String.ofList (Text.trim line.toList)
  if text = "" then blank
  else if [".exit", "exit", "quit"].contains text then leave
  else if text = ".help" then help
  else source text

inductive Response where
  | stay (shown : Transcript) (session : Session)
  | leave (shown : Transcript)
  | unfinished

/-- Runs a source text; what it prints is shown, and its value if it has one. -/
def runText (rounds : Nat) (s : Session) (text : String) : Response :=
  match Session.run rounds text { s with sink := .unlimited } with
  | .ok .nil t => .stay (.ofBytes t.sink.stored) t
  | .ok v t => .stay (.ofBytes t.sink.stored ++ .ofText (v.display ++ "\n")) t
  | .failed e t => .stay (.ofBytes t.sink.stored ++ .ofDiagnostic (.ofError e text none)) t
  | .exhausted => .unfinished

def respond (rounds : Nat) (s : Session) (line : String) : Response :=
  match Command.ofLine line with
  | .blank => .stay .empty s
  | .leave => .leave (.ofText farewell)
  | .help => .stay (.ofText help) s
  | .source text => runText rounds s text

/-- The transcript of the lines of a session, and whether the session came to an end. -/
def converse (rounds : Nat) (s : Session) : List (List UInt8) → Transcript × Bool
  | [] => (.ofText prompt ++ .ofText "\n", true)
  | line :: lines =>
    match String.fromUTF8? ⟨line.toArray⟩ with
    | none => (.ofText prompt ++ .ofPlain undecodable, true)
    | some line =>
      match respond rounds s line with
      | .stay shown t =>
        let (rest, ended) := converse rounds t lines
        (.ofText prompt ++ shown ++ rest, ended)
      | .leave shown => (.ofText prompt ++ shown, true)
      | .unfinished => (.ofText prompt, false)

/-- The transcript of a console that reads the given bytes. -/
def transcript (rounds : Nat) (stdin : List UInt8) : Transcript × Bool :=
  let (rest, ended) := converse rounds (.fresh .unlimited) (Text.byteLines stdin)
  (.ofText banner ++ rest, ended)

end Dvilipi.Repl
