import Dvilipi.Error
import Dvilipi.Text.Lines

/-!
Diagnostics: what a person is told about an error. The place is counted in the lines of the text that
is shown; a span that does not fit that text leaves only the headline.
-/

namespace Dvilipi
set_option autoImplicit false

structure Diagnostic where
  /-- The terminal's number for the colour of the headline. -/
  color : Nat
  kind : String
  message : String
  place : Option (String × Position)
  note : Option String
  deriving DecidableEq

namespace ParseError

def color : ParseError → Nat
  | lexical _ => 31
  | grammatical _ => 33

def kind : ParseError → String
  | lexical _ => "Lexical Error"
  | grammatical _ => "Syntax Error"

def label : ParseError → String
  | lexical e => "Unexpected character '" ++ String.singleton e.character ++ "'"
  | grammatical e =>
    "Expected " ++ e.expected.describe ++ ", found " ++ e.found.kind.describe ++ " '" ++
      e.found.lexeme ++ "'"

def help? : ParseError → Option String
  | lexical _ =>
    some ("Only Latin or Devanagari identifiers, numbers, strings, the operators " ++
      "+ - * / = < > ! & | ^ % and the delimiters ( ) \x7b \x7d [ ] , ; : are recognised.")
  | grammatical e =>
    if e.found.kind = .endOfInput then
      some "The input ended before this construct was complete."
    else none

end ParseError

def RuntimeError.help? (e : RuntimeError) : Option String :=
  match e.cause with
  | .undefinedVariable _ =>
    some ("Bind the name first with 'let' (or 'चर') or an assignment. " ++
      "Functions only see variables that existed when they were called.")
  | .undefinedFunction _ => some "Declare it with 'fn' (or 'कार्य') before calling it."
  | .callDepthExceeded _ _ =>
    some "Check that the recursion has a base case that is reached."
  | .outputFailed _ => none

namespace Error

def color : Error → Nat
  | parse e => e.color
  | runtime _ => 35

def kind : Error → String
  | parse e => e.kind
  | runtime _ => "Runtime Error"

def label : Error → String
  | parse e => e.label
  | runtime e => e.message

def help? : Error → Option String
  | parse e => e.help?
  | runtime e => e.help?

end Error

namespace Diagnostic

/-- The name under which a text is shown that came from no file. -/
def unnamed : String := "<repl>"

def ofError (e : Error) (text : String) (filename : Option String) : Diagnostic :=
  let chars := text.toList
  let fits := decide (e.span.Fits chars.length)
  { color := e.color
    kind := e.kind
    message := e.label
    place := if fits then some (filename.getD unnamed, Text.positionAt chars e.span.start) else none
    note := if fits then e.help? else none }

def placeText (place : String × Position) : String :=
  place.1 ++ ":" ++ toString place.2.line ++ ":" ++ toString place.2.column

theorem ofError_place_isSome {e : Error} {text : String} {filename : Option String} :
    (ofError e text filename).place.isSome = true ↔ e.span.Fits text.toList.length := by
  unfold ofError
  by_cases h : e.span.Fits text.toList.length <;> simp only [h, decide_true, decide_false] <;> simp

end Diagnostic
end Dvilipi
