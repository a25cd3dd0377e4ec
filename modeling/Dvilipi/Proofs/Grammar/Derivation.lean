import Dvilipi.Token.Basic
import Dvilipi.Proofs.Tree.Bare

/-!
The grammar of the language, without reference to any way of reading it. A derivation is a tree with
one node for each use of a rule; `tokens` gives the tokens it derives and `tree?` the bare tree it
stands for, which exists if every assignment has a name on its left.

    expression := tier 6 ( '=' expression )?
    tier (n+1) := tier n ( operator of level n, tier n )*
    tier 0     := ('+' | '-' | '!') tier 0 | primary
    primary    := number | string | name | name '(' expressions ')' | '(' expression ')'

    statement  := 'fn' name '(' parameters ')' ( '-' '>' type )? block
                | ( 'let' | 'const' ) name ( ':' type )? ( '=' expression )? ';'
                | conditional
                | 'while' expression block
                | 'return' expression? ';'
                | expression ';'
    conditional := 'if' expression block ( 'else' ( block | conditional ) )?
    block      := '{' statement* '}'
    parameter  := name ( ':' type )?
    type       := name | 'tensor'
-/

namespace Dvilipi.Grammar
set_option autoImplicit false

/-- The infix operators of each level, those that bind tightest first. -/
def infixTable : Nat → List (String × Infix)
  | 0 => [("*", .binary .multiply), ("/", .binary .divide), ("%", .binary .remainder)]
  | 1 => [("+", .binary .add), ("-", .binary .subtract)]
  | 2 => [("<", .binary .less), (">", .binary .greater), ("<=", .binary .lessEqual),
      (">=", .binary .greaterEqual)]
  | 3 => [("==", .binary .equal), ("!=", .binary .notEqual)]
  | 4 => [("&&", .logical .and)]
  | 5 => [("||", .logical .or)]
  | _ => []

def unaryTable : List (String × UnaryOp) := [("+", .plus), ("-", .negate), ("!", .not)]

/-- An operator that stands between the operands of level `n`, with its symbol. -/
abbrev InfixAt (n : Nat) := { entry : String × Infix // entry ∈ infixTable n }

abbrev UnarySymbol := { entry : String × UnaryOp // entry ∈ unaryTable }

mutual

inductive Expression where
  | plain (e : Tier 6)
  | assign (target : Tier 6) (value : Expression)

inductive Tier : Nat → Type where
  | unary (e : Unary) : Tier 0
  | chain {n : Nat} (first : Tier n) (rest : Chain n) : Tier (n + 1)

/-- Operators of level `n`, each with its right operand. -/
inductive Chain : Nat → Type where
  | nil {n : Nat} : Chain n
  | cons {n : Nat} (op : InfixAt n) (right : Tier n) (rest : Chain n) : Chain n

inductive Unary where
  | applied (op : UnarySymbol) (e : Unary)
  | primary (e : Primary)

inductive Primary where
  | number (value : Float)
  | string (text : String)
  | name (name : String)
  | call (callee : String) (arguments : List Expression)
  | group (e : Expression)

end

/-- An operand alone, as a text of level `n`. -/
def Unary.tier (e : Unary) : (n : Nat) → Tier n
  | 0 => .unary e
  | n + 1 => .chain (e.tier n) .nil

/-- Lists of tokens with commas between them. -/
def commas : List (List Token.Content) → List Token.Content
  | [] => []
  | [us] => us
  | us :: vs :: rest => us ++ .delimiter ',' :: commas (vs :: rest)

mutual

def Expression.tokens : Expression → List Token.Content
  | .plain e => e.tokens
  | .assign target value => target.tokens ++ .operator "=" :: value.tokens

def Tier.tokens {n : Nat} : Tier n → List Token.Content
  | .unary e => e.tokens
  | .chain first rest => first.tokens ++ rest.tokens

def Chain.tokens {n : Nat} : Chain n → List Token.Content
  | .nil => []
  | .cons op right rest => .operator op.val.1 :: (right.tokens ++ rest.tokens)

def Unary.tokens : Unary → List Token.Content
  | .applied op e => .operator op.val.1 :: e.tokens
  | .primary e => e.tokens

def Primary.tokens : Primary → List Token.Content
  | .number x => [.number x]
  | .string t => [.string t]
  | .name x => [.identifier x]
  | .call f es =>
    .identifier f :: .delimiter '(' :: (commas (Expression.tokensOfList es) ++ [.delimiter ')'])
  | .group e => .delimiter '(' :: (e.tokens ++ [.delimiter ')'])

def Expression.tokensOfList : List Expression → List (List Token.Content)
  | [] => []
  | e :: es => e.tokens :: Expression.tokensOfList es

end

/-- The bare tree of an infix operator with its operands. -/
def joined (op : Infix) (left right : Expr) : Expr :=
  match op with
  | .binary op => .binary op left right .blank
  | .logical op => .logical op left right .blank

/-- The bare tree of an assignment; there is none unless the target is a name. -/
def assigned? (target value : Expr) : Option Expr :=
  match target with
  | .reference x _ => some (.assign x value .blank)
  | _ => none

mutual

def Expression.tree? : Expression → Option Expr
  | .plain e => e.tree?
  | .assign target value =>
    match target.tree?, value.tree? with
    | some t, some v => assigned? t v
    | _, _ => none

def Tier.tree? {n : Nat} : Tier n → Option Expr
  | .unary e => e.tree?
  | .chain first rest =>
    match first.tree? with
    | some left => rest.tree? left
    | none => none

/-- Operators of one level group to the left: each takes all that stands before it. -/
def Chain.tree? {n : Nat} : Chain n → Expr → Option Expr
  | .nil, left => some left
  | .cons op right rest, left =>
    match right.tree? with
    | some e => rest.tree? (joined op.val.2 left e)
    | none => none

def Unary.tree? : Unary → Option Expr
  | .applied op e =>
    match e.tree? with
    | some t => some (.unary op.val.2 t .blank)
    | none => none
  | .primary e => e.tree?

def Primary.tree? : Primary → Option Expr
  | .number x => some (.number x .blank)
  | .string t => some (.string t .blank)
  | .name x => some (.reference x .blank)
  | .call f es =>
    match Expression.treeOfList? es with
    | some ts => some (.call f ts .blank)
    | none => none
  | .group e => e.tree?

def Expression.treeOfList? : List Expression → Option (List Expr)
  | [] => some []
  | e :: es =>
    match e.tree?, Expression.treeOfList? es with
    | some t, some ts => some (t :: ts)
    | _, _ => none

end

inductive TypeName where
  | name (name : String)
  | tensor (script : Script)

structure Parameter where
  name : String
  ascription : Option TypeName

mutual

inductive Statement where
  | function (script : Script) (name : String) (parameters : List Parameter)
      (result : Option TypeName) (body : Block)
  | binding (constant : Bool) (script : Script) (name : String) (ascription : Option TypeName)
      (initial : Option Expression)
  | conditional (c : Conditional)
  | loop (script : Script) (condition : Expression) (body : Block)
  | leave (script : Script) (value : Option Expression)
  | expression (e : Expression)

inductive Conditional where
  | mk (script : Script) (condition : Expression) (yes : Block) (otherwise : Alternative)

/-- What follows the first block of a conditional. -/
inductive Alternative where
  | absent
  | block (script : Script) (no : Block)
  | conditional (script : Script) (c : Conditional)

inductive Block where
  | mk (statements : List Statement)

end

def TypeName.content : TypeName → Token.Content
  | .name x => .identifier x
  | .tensor script => .keyword .tensor script

/-- An optional part: a token that announces it, and the part. -/
def optional {α : Type} (before : List Token.Content) (tokens : α → List Token.Content) :
    Option α → List Token.Content
  | some a => before ++ tokens a
  | none => []

def ascriptionTokens : Option TypeName → List Token.Content :=
  optional [.delimiter ':'] fun t => [t.content]

def resultTokens : Option TypeName → List Token.Content :=
  optional [.operator "-", .operator ">"] fun t => [t.content]

def initialTokens : Option Expression → List Token.Content :=
  optional [.operator "="] Expression.tokens

def Parameter.tokens (p : Parameter) : List Token.Content :=
  .identifier p.name :: ascriptionTokens p.ascription

mutual

def Statement.tokens : Statement → List Token.Content
  | .function script f ps r body =>
    .keyword .fn script :: .identifier f :: .delimiter '(' ::
      (commas (ps.map Parameter.tokens) ++ .delimiter ')' :: (resultTokens r ++ body.tokens))
  | .binding constant script x t e =>
    .keyword (if constant then .const else .let_) script :: .identifier x ::
      (ascriptionTokens t ++ (initialTokens e ++ [.delimiter ';']))
  | .conditional c => c.tokens
  | .loop script c body => .keyword .while_ script :: (c.tokens ++ body.tokens)
  | .leave script e =>
    .keyword .return_ script :: (optional [] Expression.tokens e ++ [.delimiter ';'])
  | .expression e => e.tokens ++ [.delimiter ';']

def Conditional.tokens : Conditional → List Token.Content
  | .mk script c yes otherwise =>
    .keyword .if_ script :: (c.tokens ++ (yes.tokens ++ otherwise.tokens))

def Alternative.tokens : Alternative → List Token.Content
  | .absent => []
  | .block script no => .keyword .else_ script :: no.tokens
  | .conditional script c => .keyword .else_ script :: c.tokens

def Block.tokens : Block → List Token.Content
  | .mk ss => .delimiter '\x7b' :: (Statement.tokensOfList ss ++ [.delimiter '\x7d'])

def Statement.tokensOfList : List Statement → List Token.Content
  | [] => []
  | s :: ss => s.tokens ++ Statement.tokensOfList ss

end

def TypeName.tree (t : TypeName) : Dvilipi.TypeName := ⟨t.content.text, .blank⟩

def Parameter.tree (p : Parameter) : Dvilipi.Parameter :=
  ⟨p.name, p.ascription.map TypeName.tree, .blank⟩

def optionalTree? : Option Expression → Option (Option Expr)
  | some e => e.tree?.map some
  | none => some none

mutual

def Statement.tree? : Statement → Option Stmt
  | .function _ f ps r body =>
    match body.tree? with
    | some b => some (.function f (ps.map Parameter.tree) (r.map TypeName.tree) b .blank)
    | none => none
  | .binding constant _ x t e =>
    (optionalTree? e).map fun e => .binding x constant (t.map TypeName.tree) e .blank
  | .conditional c => c.tree?
  | .loop _ c body =>
    match c.tree?, body.tree? with
    | some e, some b => some (.while_ e b .blank)
    | _, _ => none
  | .leave _ e => (optionalTree? e).map fun e => .return_ e .blank
  | .expression e => e.tree?.map fun e => .expression e .blank

def Conditional.tree? : Conditional → Option Stmt
  | .mk _ c yes otherwise =>
    match c.tree?, yes.tree? with
    | some e, some b => otherwise.tree? e b
    | _, _ => none

/-- A conditional after `else` stands for a block that holds nothing else. -/
def Alternative.tree? : Alternative → Expr → Dvilipi.Block → Option Stmt
  | .absent, e, yes => some (.ifThen e yes .blank)
  | .block _ no, e, yes =>
    match no.tree? with
    | some b => some (.ifElse e yes b .blank)
    | none => none
  | .conditional _ c, e, yes =>
    match c.tree? with
    | some s => some (.ifElse e yes (.mk [s] .blank) .blank)
    | none => none

def Block.tree? : Block → Option Dvilipi.Block
  | .mk ss =>
    match Statement.treeOfList? ss with
    | some ts => some (.mk ts .blank)
    | none => none

def Statement.treeOfList? : List Statement → Option (List Stmt)
  | [] => some []
  | s :: ss =>
    match s.tree?, Statement.treeOfList? ss with
    | some t, some ts => some (t :: ts)
    | _, _ => none

end

structure Program where
  statements : List Statement

def Program.tokens (p : Program) : List Token.Content := Statement.tokensOfList p.statements

def Program.tree? (p : Program) : Option Dvilipi.Program :=
  (Statement.treeOfList? p.statements).map fun ss => ⟨ss⟩

theorem Expression.tokensOfList_eq_map (ds : List Expression) :
    Expression.tokensOfList ds = ds.map Expression.tokens := by
  induction ds with
  | nil => rfl
  | cons d ds ih => rw [Expression.tokensOfList, ih, List.map_cons]

theorem Statement.tokensOfList_eq_flatten (ds : List Statement) :
    Statement.tokensOfList ds = (ds.map Statement.tokens).flatten := by
  induction ds with
  | nil => rfl
  | cons d ds ih => rw [Statement.tokensOfList, ih, List.map_cons, List.flatten_cons]

end Dvilipi.Grammar
