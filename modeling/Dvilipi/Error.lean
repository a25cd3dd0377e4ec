import Dvilipi.Token.Basic

/-!
Everything that can go wrong with a program: a character no token starts with, a token that does not
fit, and failures while running. An error holds its cause and its place; the wording is here as well.
-/

namespace Dvilipi
set_option autoImplicit false

/-- No token starts with `character`. -/
structure LexError where
  character : Char
  position : Position
  span : Span
  deriving DecidableEq

/-- What the grammar asks for at a place. -/
inductive Expected where
  | statement
  | expression
  | functionName
  | parametersOpen
  | parameterName
  | parametersClose
  | arrowHead
  | typeName
  | variableName
  | declarationEnd
  | returnEnd
  | expressionEnd
  | blockOpen
  | blockClose
  | assignmentTarget
  | groupClose
  | argumentsClose
  deriving DecidableEq, Repr

def Expected.describe : Expected → String
  | statement => "statement"
  | expression => "expression"
  | functionName => "function name"
  | parametersOpen => "'(' after function name"
  | parameterName => "parameter name"
  | parametersClose => "')' after parameters"
  | arrowHead => "'>' in '->'"
  | typeName => "type name"
  | variableName => "variable name"
  | declarationEnd => "';' after variable declaration"
  | returnEnd => "';' after return value"
  | expressionEnd => "';' after expression"
  | blockOpen => "'\x7b' to open a block"
  | blockClose => "'\x7d' after block"
  | assignmentTarget => "identifier before '='"
  | groupClose => "')' after expression"
  | argumentsClose => "')' after arguments"

/-- The token `found` stands where the grammar asks for `expected`. -/
structure SyntaxError where
  expected : Expected
  found : Token
  deriving DecidableEq

inductive RuntimeError.Cause where
  | undefinedVariable (name : String)
  | undefinedFunction (name : String)
  /-- Calls of user functions are nested deeper than the limit. -/
  | callDepthExceeded (name : String) (limit : Nat)
  /-- A native function could not write its output. -/
  | outputFailed (detail : String)
  deriving DecidableEq, Repr

structure RuntimeError where
  cause : RuntimeError.Cause
  span : Span
  deriving DecidableEq, Repr

/-- Why a text is no program. -/
inductive ParseError where
  | lexical (error : LexError)
  | grammatical (error : SyntaxError)
  deriving DecidableEq

inductive Error where
  | parse (error : ParseError)
  | runtime (error : RuntimeError)
  deriving DecidableEq

namespace LexError

def message (e : LexError) : String :=
  "unexpected character '" ++ String.singleton e.character ++ "' at " ++ e.position.describe

end LexError

namespace SyntaxError

def span (e : SyntaxError) : Span := e.found.span

def message (e : SyntaxError) : String :=
  "expected " ++ e.expected.describe ++ " but found " ++ e.found.kind.describe ++ " '" ++
    e.found.lexeme ++ "' at " ++ e.found.position.describe

end SyntaxError

namespace RuntimeError

def message (e : RuntimeError) : String :=
  match e.cause with
  | .undefinedVariable name => "Undefined variable '" ++ name ++ "'"
  | .undefinedFunction name => "Undefined function '" ++ name ++ "'"
  | .callDepthExceeded name limit =>
    "Call depth limit of " ++ toString limit ++ " exceeded calling '" ++ name ++ "'"
  | .outputFailed detail => "Failed to write output: " ++ detail

end RuntimeError

namespace ParseError

def span : ParseError → Span
  | lexical e => e.span
  | grammatical e => e.span

def message : ParseError → String
  | lexical e => e.message
  | grammatical e => e.message

end ParseError

namespace Error

def span : Error → Span
  | parse e => e.span
  | runtime e => e.span

def message : Error → String
  | parse e => e.message
  | runtime e => e.message

end Error
end Dvilipi
