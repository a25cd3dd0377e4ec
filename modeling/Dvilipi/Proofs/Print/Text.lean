import Dvilipi.Proofs.Grammar.Derivation
import Dvilipi.Proofs.Number.ReadsBack

/-!
Printing. A tree is written down as tokens, with parentheses where the levels of the operators call for
them and nowhere else; the tokens are spelled out with one space between them. A style settles what the
tree leaves open: the script of the keywords, the quotation mark, and whether a conditional that stands
alone after `else` loses its braces.
-/

namespace Dvilipi
set_option autoImplicit false

open Grammar (commas optional)

namespace Print

structure Style where
  script : Script
  singleQuotes : Bool
  chained : Bool

def quote (style : Style) : Char := if style.singleQuotes then '\'' else '"'

def escape (quote c : Char) : List Char := if c = quote ∨ c = '\\' then ['\\', c] else [c]

def spelling (quote : Char) : Token.Content → List Char
  | .keyword word script => (word.spelling script).toList
  | .identifier name => name.toList
  | .number x => (Number.positionalText x).toList
  | .string text => quote :: (text.toList.flatMap (escape quote) ++ [quote])
  | .operator symbol => symbol.toList
  | .delimiter mark => [mark]
  | .endOfInput => []

/-- The texts of tokens with one space between them. -/
def spaced (quote : Char) (us : List Token.Content) : List Char :=
  [' '].intercalate (us.map (spelling quote))

/-- Parentheses around what does not fit. -/
def enclosed (fits : Bool) (us : List Token.Content) : List Token.Content :=
  if fits then us else .delimiter '(' :: (us ++ [.delimiter ')'])

/-- The left operand may hold operators of the same level, the right one only of lower levels. -/
def infixTokens (op : Infix) (bound : Nat) (left right : Nat → List Token.Content) :
    List Token.Content :=
  enclosed (op.level < bound) (left (op.level + 1) ++ .operator op.symbol :: right op.level)

mutual

/-- The tokens of an expression where operators below level `bound` may stand without parentheses;
assignments stand above all levels of operators. -/
def exprTokens : Expr → Nat → List Token.Content
  | .number x _, _ => [.number x]
  | .string text _, _ => [.string text]
  | .reference x _, _ => [.identifier x]
  | .assign x e _, bound =>
    enclosed (Infix.levels < bound) (.identifier x :: .operator "=" :: exprTokens e (Infix.levels + 1))
  | .binary op a b _, bound => infixTokens (.binary op) bound (exprTokens a) (exprTokens b)
  | .logical op a b _, bound => infixTokens (.logical op) bound (exprTokens a) (exprTokens b)
  | .unary op e _, _ => .operator op.symbol :: exprTokens e 0
  | .call f es _, _ =>
    .identifier f :: .delimiter '(' :: (commas (listTokens es) ++ [.delimiter ')'])

def listTokens : List Expr → List (List Token.Content)
  | [] => []
  | e :: es => exprTokens e (Infix.levels + 1) :: listTokens es

end

def fullTokens (e : Expr) : List Token.Content := exprTokens e (Infix.levels + 1)

def typeToken (t : TypeName) : Token.Content :=
  match Keyword.ofWord? t.name with
  | some (word, script) => .keyword word script
  | none => .identifier t.name

def parameterTokens (p : Parameter) : List Token.Content :=
  .identifier p.name :: optional [.delimiter ':'] (fun t => [typeToken t]) p.ascription

/-- A block that holds a conditional and nothing else. -/
def isConditional : List Stmt → Bool
  | [.ifThen _ _ _] => true
  | [.ifElse _ _ _ _] => true
  | _ => false

variable (style : Style)

mutual

def stmtTokens : Stmt → List Token.Content
  | .function f ps result body _ =>
    .keyword .fn style.script :: .identifier f :: .delimiter '(' ::
      (commas (ps.map parameterTokens) ++ .delimiter ')' ::
        (optional [.operator "-", .operator ">"] (fun t => [typeToken t]) result ++
          blockTokens body))
  | .binding x constant type initial _ =>
    .keyword (if constant then .const else .let_) style.script :: .identifier x ::
      (optional [.delimiter ':'] (fun t => [typeToken t]) type ++
        (optional [.operator "="] fullTokens initial ++ [.delimiter ';']))
  | .expression e _ => fullTokens e ++ [.delimiter ';']
  | .ifThen c yes _ => .keyword .if_ style.script :: (fullTokens c ++ blockTokens yes)
  | .ifElse c yes (.mk ss _) _ =>
    .keyword .if_ style.script :: (fullTokens c ++ (blockTokens yes ++
      .keyword .else_ style.script :: (if style.chained && isConditional ss then stmtsTokens ss
        else .delimiter '\x7b' :: (stmtsTokens ss ++ [.delimiter '\x7d']))))
  | .while_ c body _ => .keyword .while_ style.script :: (fullTokens c ++ blockTokens body)
  | .return_ value _ =>
    .keyword .return_ style.script :: (optional [] fullTokens value ++ [.delimiter ';'])

def blockTokens : Block → List Token.Content
  | .mk ss _ => .delimiter '\x7b' :: (stmtsTokens ss ++ [.delimiter '\x7d'])

def stmtsTokens : List Stmt → List Token.Content
  | [] => []
  | s :: ss => stmtTokens s ++ stmtsTokens ss

end

def program (p : Program) : String :=
  String.ofList (spaced (quote style) (stmtsTokens style p.statements))

end Print

/-- Letters, and digits of either script behind the first. -/
def IsWord : List Char → Prop
  | [] => False
  | c :: cs => Text.startsWord c = true ∧ Text.isDigit c = false ∧ cs.all Text.continuesWord = true

instance : DecidablePred IsWord
  | [] => .isFalse id
  | c :: cs => inferInstanceAs (Decidable (Text.startsWord c = true ∧ Text.isDigit c = false ∧
      cs.all Text.continuesWord = true))

/-- A name that a text can hold: a word that is not reserved. -/
def IsName (x : String) : Prop := IsWord x.toList ∧ Keyword.ofWord? x = none

instance (x : String) : Decidable (IsName x) :=
  inferInstanceAs (Decidable (IsWord x.toList ∧ Keyword.ofWord? x = none))

def TypeName.Printable (t : TypeName) : Prop :=
  IsName t.name ∨ ∃ script, t.name = Keyword.tensor.spelling script

def Parameter.Printable (p : Parameter) : Prop :=
  IsName p.name ∧ ∀ t ∈ p.ascription, t.Printable

mutual

def Expr.Printable : Expr → Prop
  | .number x _ => Number.IsPlain x
  | .string _ _ => True
  | .reference x _ => IsName x
  | .assign x e _ => IsName x ∧ e.Printable
  | .binary _ a b _ => a.Printable ∧ b.Printable
  | .logical _ a b _ => a.Printable ∧ b.Printable
  | .unary _ e _ => e.Printable
  | .call f es _ => IsName f ∧ Expr.PrintableList es

def Expr.PrintableList : List Expr → Prop
  | [] => True
  | e :: es => e.Printable ∧ Expr.PrintableList es

end

mutual

def Stmt.Printable : Stmt → Prop
  | .function f ps result body _ =>
    IsName f ∧ (∀ p ∈ ps, p.Printable) ∧ (∀ t ∈ result, t.Printable) ∧ body.Printable
  | .binding x _ type initial _ =>
    IsName x ∧ (∀ t ∈ type, t.Printable) ∧ (∀ e ∈ initial, e.Printable)
  | .expression e _ => e.Printable
  | .ifThen c yes _ => c.Printable ∧ yes.Printable
  | .ifElse c yes no _ => c.Printable ∧ yes.Printable ∧ no.Printable
  | .while_ c body _ => c.Printable ∧ body.Printable
  | .return_ value _ => ∀ e ∈ value, e.Printable

def Block.Printable : Block → Prop
  | .mk ss _ => Stmt.PrintableList ss

def Stmt.PrintableList : List Stmt → Prop
  | [] => True
  | s :: ss => s.Printable ∧ Stmt.PrintableList ss

end

def Program.Printable (p : Program) : Prop := Stmt.PrintableList p.statements

end Dvilipi
