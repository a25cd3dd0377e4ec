import Dvilipi.Console.CommandLine

/-!
The program: it reads arguments, files and lines, and shows what the console and the command line
decide.
-/

namespace Dvilipi.Main
set_option autoImplicit false

/-- The headline in the colour of its kind, then the place and the note. -/
def render (d : Diagnostic) : String :=
  let headline := "Error: \x1b[" ++ toString d.color ++ "m" ++ d.kind ++ "\x1b[0m: " ++ d.message
  let place := d.place.elim "" fun place => "\n  at " ++ Diagnostic.placeText place
  let note := d.note.elim "" fun note => "\n  \x1b[36mhelp\x1b[0m: " ++ note
  headline ++ place ++ note

def put (t : Transcript) : IO Unit := do
  let out ← IO.getStdout
  out.write t.stdout
  out.flush
  for d in t.diagnostics do
    IO.eprintln (render d)
  for message in t.plain do
    IO.eprintln message

/-- The next line of the standard input; none if it is no text. -/
def readLine : IO (Option String) := do
  let input ← IO.getStdin
  try
    return some (← input.getLine)
  catch _ =>
    return none

partial def converse (s : Session) : IO UInt32 := do
  put (.ofText Repl.prompt)
  match ← readLine with
  | none =>
    put (.ofPlain Repl.undecodable)
    return 0
  | some "" =>
    put (.ofText "\n")
    return 0
  | some line =>
    match Repl.respond Session.ampleRounds s line with
    | .stay shown t =>
      put shown
      converse t
    | .leave shown =>
      put shown
      return 0
    | .unfinished => return 1

def readFile (name : String) : IO CommandLine.File := do
  try
    return .content (← IO.FS.readBinFile name)
  catch e =>
    match e with
    | .noFileOrDirectory _ _ _ => return .missing
    | e => return .unreadable (toString e)

end Dvilipi.Main

open Dvilipi in
def main (args : List String) : IO UInt32 := do
  match CommandLine.Request.ofArguments args with
  | .console =>
    Main.put (.ofText Repl.banner)
    Main.converse (.fresh .unlimited)
  | .script mode file =>
    let result := CommandLine.runFile Session.ampleRounds mode file (← Main.readFile file)
    Main.put result.shown
    return UInt32.ofNat (result.code.getD 1)
  | _ =>
    let result := CommandLine.run Session.ampleRounds args (fun _ => .missing) []
    Main.put result.shown
    return UInt32.ofNat (result.code.getD 1)
