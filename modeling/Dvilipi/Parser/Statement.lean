import Dvilipi.Parser.Expression

/-!
The grammar of statements and programs. `self` stands for the production of statements wherever one is
nested, and `expr` for that of expressions.
-/

namespace Dvilipi.Parser
set_option autoImplicit false

variable {σ : Type} [TokenSource σ]

/-- An identifier, or the word `tensor` in either spelling. -/
def typeName : Production σ TypeName := do
  match ← content with
  | .identifier name =>
    let t ← advance
    return ⟨name, t.span⟩
  | .keyword word script =>
    if word = .tensor then
      let t ← advance
      return ⟨word.spelling script, t.span⟩
    else reject .typeName
  | _ => reject .typeName

def ascription? : Production σ (Option TypeName) := do
  if ← accept (.delimiter ':') then
    let t ← typeName
    return some t
  else return none

def parameter : Production σ Parameter := do
  let (name, s) ← identifier .parameterName
  let ascription ← ascription?
  let stop ← lastStop
  return ⟨name, ascription, ⟨s.start, stop⟩⟩

/-- An arrow, which is two operators, and a type. -/
def resultType? : Production σ (Option TypeName) := do
  if ← accept (.operator "-") then
    let _ ← expect (.operator ">") .arrowHead
    let t ← typeName
    return some t
  else return none

def closesBlock (c : Token.Content) : Bool := c == .delimiter '\x7d' || c == .endOfInput

def block (self : Production σ Stmt) (budget : Nat) : Production σ Block := do
  let opening ← expect (.delimiter '\x7b') .blockOpen
  let statements ← itemsUntil closesBlock self budget
  let closing ← expect (.delimiter '\x7d') .blockClose
  return .mk statements ⟨opening.span.start, closing.span.stop⟩

def functionDeclaration (self : Production σ Stmt) (budget : Nat) : Production σ Stmt := do
  let first ← advance
  let (name, _) ← identifier .functionName
  let _ ← expect (.delimiter '(') .parametersOpen
  let parameters ← commaList? parameter budget
  let _ ← expect (.delimiter ')') .parametersClose
  let result ← resultType?
  let body ← block self budget
  return .function name parameters result body ⟨first.span.start, body.span.stop⟩

def initial? (expr : Production σ Expr) : Production σ (Option Expr) := do
  if ← accept (.operator "=") then
    let e ← expr
    return some e
  else return none

def variableDeclaration (expr : Production σ Expr) (constant : Bool) : Production σ Stmt := do
  let first ← advance
  let (name, _) ← identifier .variableName
  let ascription ← ascription?
  let initial ← initial? expr
  let _ ← expect (.delimiter ';') .declarationEnd
  let stop ← lastStop
  return .binding name constant ascription initial ⟨first.span.start, stop⟩

def isKeyword (word : Keyword) (c : Token.Content) : Bool := c.kind == .keyword word

/-- The branch after `else`: a block, or a conditional that stands for a block of its own. -/
def alternative (self : Production σ Stmt) (budget : Nat) : Production σ Block := do
  if isKeyword .if_ (← content) then
    let nested ← self
    return .mk [nested] nested.span
  else block self budget

def conditional (self : Production σ Stmt) (expr : Production σ Expr) (budget : Nat) :
    Production σ Stmt := do
  let first ← advance
  let condition ← expr
  let yes ← block self budget
  if isKeyword .else_ (← content) then
    let _ ← advance
    let no ← alternative self budget
    let stop ← lastStop
    return .ifElse condition yes no ⟨first.span.start, stop⟩
  else
    let stop ← lastStop
    return .ifThen condition yes ⟨first.span.start, stop⟩

def loop (self : Production σ Stmt) (expr : Production σ Expr) (budget : Nat) :
    Production σ Stmt := do
  let first ← advance
  let condition ← expr
  let body ← block self budget
  return .while_ condition body ⟨first.span.start, body.span.stop⟩

def returned? (expr : Production σ Expr) : Production σ (Option Expr) := do
  if (← content) = .delimiter ';' then return none
  else
    let e ← expr
    return some e

def returnStatement (expr : Production σ Expr) : Production σ Stmt := do
  let first ← advance
  let value ← returned? expr
  let _ ← expect (.delimiter ';') .returnEnd
  let stop ← lastStop
  return .return_ value ⟨first.span.start, stop⟩

def expressionStatement (expr : Production σ Expr) : Production σ Stmt := do
  let start ← currentStart
  let e ← expr
  let _ ← expect (.delimiter ';') .expressionEnd
  let stop ← lastStop
  return .expression e ⟨start, stop⟩

/-- The statement that a reserved word in view begins. -/
def keywordStatement (self : Production σ Stmt) (expr : Production σ Expr) (budget : Nat)
    (word : Keyword) : Production σ Stmt :=
  match word with
  | .fn => functionDeclaration self budget
  | .let_ => variableDeclaration expr false
  | .const => variableDeclaration expr true
  | .if_ => conditional self expr budget
  | .while_ => loop self expr budget
  | .return_ => returnStatement expr
  | _ => reject .statement

def statementForm (self : Production σ Stmt) (expr : Production σ Expr) (budget : Nat) :
    Production σ Stmt := do
  match ← content with
  | .keyword word _ => keywordStatement self expr budget word
  | _ => expressionStatement expr

def statement : Nat → Production σ Stmt
  | 0 => .exhausted
  | n + 1 => statementForm (statement n) (expression (n + 1)) n

def program (budget : Nat) : Production σ Program := do
  let statements ← itemsUntil (· == .endOfInput) (statement budget) budget
  return ⟨statements⟩

end Dvilipi.Parser
