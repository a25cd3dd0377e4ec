import Dvilipi.Console.Repl
import Dvilipi.Console.Script

/-!
The command line. Arguments are read from left to right; help and version are answered as soon as they
are met, and anything that does not fit is a usage error. A file is run or listed unless the console is
asked for, and without a file the console starts.
-/

namespace Dvilipi.CommandLine
set_option autoImplicit false

structure Options where
  file : Option String
  interactive : Bool
  tokens : Bool
  tree : Bool

def Options.none : Options := ⟨Option.none, false, false, false⟩

/-- What one argument amounts to: options to go on with, or an answer at once. -/
inductive Outcome where
  | options (o : Options)
  | help
  | version
  | usage

namespace Options

/-- A flag may be given once. -/
def setInteractive (o : Options) : Outcome :=
  if o.interactive then .usage else .options { o with interactive := true }

def setTokens (o : Options) : Outcome :=
  if o.tokens then .usage else .options { o with tokens := true }

def setTree (o : Options) : Outcome :=
  if o.tree then .usage else .options { o with tree := true }

def setFile (o : Options) (file : String) : Outcome :=
  match o.file with
  | some _ => .usage
  | Option.none => .options { o with file := some file }

def long (o : Options) (name : String) : Outcome :=
  if name = "--help" then .help
  else if name = "--version" then .version
  else if name = "--interactive" then o.setInteractive
  else if name = "--tokens" then o.setTokens
  else if name = "--ast" then o.setTree
  else .usage

/-- The letters behind a single hyphen, one after the other. -/
def short (o : Options) : List Char → Outcome
  | [] => .options o
  | 'h' :: _ => .help
  | 'V' :: _ => .version
  | 'i' :: rest =>
    match o.setInteractive with
    | .options o => o.short rest
    | outcome => outcome
  | _ :: _ => .usage

def argument (o : Options) (arg : String) : Outcome :=
  match arg.toList with
  | '-' :: '-' :: _ => o.long arg
  | '-' :: c :: rest => o.short (c :: rest)
  | _ => o.setFile arg

/-- Arguments after `--`, none of which is an option. -/
def files (o : Options) : List String → Outcome
  | [] => .options o
  | file :: rest =>
    match o.setFile file with
    | .options o => o.files rest
    | outcome => outcome

def arguments (o : Options) : List String → Outcome
  | [] => .options o
  | arg :: rest =>
    if arg = "--" then o.files rest
    else
      match o.argument arg with
      | .options o => o.arguments rest
      | outcome => outcome

end Options

inductive Request where
  | help
  | version
  | usage
  | console
  | script (mode : Script.Mode) (file : String)
  deriving DecidableEq

/-- The token listing wins over the tree. -/
def Options.mode (o : Options) : Script.Mode :=
  if o.tokens then .tokens else if o.tree then .tree else .run

def Options.request (o : Options) : Request :=
  match o.file, o.interactive with
  | some file, false => .script o.mode file
  | _, _ => .console

def Request.ofArguments (args : List String) : Request :=
  match Options.none.arguments args with
  | .options o => o.request
  | .help => help
  | .version => version
  | .usage => usage

def helpText : String :=
  "Interpreter for a language written in Latin or Devanagari script\n" ++
    "\n" ++
    "Usage: sanskrit [OPTIONS] [FILE]\n" ++
    "\n" ++
    "Arguments:\n" ++
    "  [FILE]  The script file to execute\n" ++
    "\n" ++
    "Options:\n" ++
    "  -i, --interactive  Start in interactive REPL mode\n" ++
    "      --tokens       Print the token stream instead of running\n" ++
    "      --ast          Print the syntax tree instead of running\n" ++
    "  -h, --help         Print help\n" ++
    "  -V, --version      Print version\n"

def versionText : String := "sanskrit " ++ Repl.version ++ "\n"

/-- What is found under the name of a file. -/
inductive File where
  | missing
  | unreadable (reason : String)
  | content (bytes : ByteArray)

def notText : String := "stream did not contain valid UTF-8"

def readFailure (name reason : String) : Transcript :=
  .ofPlain ("Error reading file '" ++ name ++ "': " ++ reason)

/-- What a run shows, and its exit code once it has ended. -/
structure Result where
  shown : Transcript
  code : Option Nat

def exitCode : Script.Verdict → Option Nat
  | .ok => some 0
  | .failed => some 1
  | .unfinished => none

def runFile (rounds : Nat) (mode : Script.Mode) (name : String) (file : File) : Result :=
  match file with
  | .missing => ⟨.ofPlain ("Error: File '" ++ name ++ "' not found"), some 1⟩
  | .unreadable reason => ⟨readFailure name reason, some 1⟩
  | .content bytes =>
    match String.fromUTF8? bytes with
    | none => ⟨readFailure name notText, some 1⟩
    | some source =>
      let (shown, verdict) := Script.perform mode rounds source (some name)
      ⟨shown, exitCode verdict⟩

def run (rounds : Nat) (args : List String) (files : String → File) (stdin : List UInt8) : Result :=
  match Request.ofArguments args with
  | .help => ⟨.ofText helpText, some 0⟩
  | .version => ⟨.ofText versionText, some 0⟩
  | .usage => ⟨.empty, some 2⟩
  | .console =>
    let (shown, ended) := Repl.transcript rounds stdin
    ⟨shown, if ended then some 0 else none⟩
  | .script mode file => runFile rounds mode file (files file)

end Dvilipi.CommandLine
