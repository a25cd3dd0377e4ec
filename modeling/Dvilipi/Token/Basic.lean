import Dvilipi.Number.Layout
import Dvilipi.Text.Quoted
import Dvilipi.Text.Span
import Dvilipi.Token.Keyword

/-!
Tokens: what a token says, where it stands, and how listings and messages show it.
-/

namespace Dvilipi
set_option autoImplicit false

namespace Token

/-- What a token says. A string holds its text with the escapes resolved. -/
inductive Content where
  | keyword (word : Keyword) (script : Script)
  | identifier (name : String)
  | number (value : Float)
  | string (text : String)
  | operator (symbol : String)
  | delimiter (mark : Char)
  | endOfInput
  deriving DecidableEq

inductive Kind where
  | keyword (word : Keyword)
  | identifier
  | number
  | string
  | operator
  | delimiter
  | endOfInput
  deriving DecidableEq

namespace Kind

/-- The kind in messages. -/
def describe : Kind → String
  | keyword _ => "keyword"
  | identifier => "identifier"
  | number => "number"
  | string => "string"
  | operator => "operator"
  | delimiter => "delimiter"
  | endOfInput => "end of input"

/-- The kind in listings; a keyword is named by its Latin spelling. -/
def title : Kind → String
  | keyword word => "Keyword(" ++ word.latin ++ ")"
  | identifier => "Identifier"
  | number => "Number"
  | string => "String"
  | operator => "Operator"
  | delimiter => "Delimiter"
  | endOfInput => "EndOfInput"

end Kind

namespace Content

def kind : Content → Kind
  | keyword word _ => .keyword word
  | identifier _ => .identifier
  | number _ => .number
  | string _ => .string
  | operator _ => .operator
  | delimiter _ => .delimiter
  | endOfInput => .endOfInput

/-- The text a token carries; numbers and the end of input carry none. -/
def text : Content → String
  | keyword word script => word.spelling script
  | identifier name => name
  | number _ => ""
  | string text => text
  | operator symbol => symbol
  | delimiter mark => String.singleton mark
  | endOfInput => ""

/-- The text by which a message refers to a token. -/
def lexeme : Content → String
  | number value => Number.positionalText value
  | endOfInput => "<eof>"
  | content => content.text

def number? : Content → Option Float
  | number value => some value
  | _ => none

end Content
end Token

structure Token where
  content : Token.Content
  position : Position
  span : Span
  deriving DecidableEq

namespace Token

def kind (t : Token) : Kind := t.content.kind

def text (t : Token) : String := t.content.text

def lexeme (t : Token) : String := t.content.lexeme

def isEnd (t : Token) : Bool := t.content == .endOfInput

/-- The line of a listing that shows the token. -/
def listing (t : Token) : String :=
  let shown := if t.kind = .string then Text.quoted t.text else "'" ++ t.lexeme ++ "'"
  toString t.position.line ++ ":" ++ toString t.position.column ++ " " ++ t.kind.title ++ " " ++ shown

theorem isEnd_iff {t : Token} : t.isEnd = true ↔ t.content = .endOfInput := by
  simp [isEnd]

end Token
end Dvilipi
