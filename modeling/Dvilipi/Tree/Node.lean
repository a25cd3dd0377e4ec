import Dvilipi.Number.Layout
import Dvilipi.Text.Quoted
import Dvilipi.Tree.Basic

/-!
The nodes of a tree in preorder, each with its depth. The listing of a tree has one line for each
node: two blanks for each level, the name of the kind, and what the node holds.
-/

namespace Dvilipi
set_option autoImplicit false

namespace Node

inductive Kind where
  | program
  | functionDeclaration
  | variableDeclaration
  | parameters
  | parameter
  | block
  | expressionStatement
  | ifStatement
  | whileStatement
  | returnStatement
  | binaryExpression
  | unaryExpression
  | logicalExpression
  | assignmentExpression
  | functionCall
  | arguments
  | identifier
  | numericLiteral
  | stringLiteral
  | type
  | returnType
  deriving DecidableEq, Repr

def Kind.title : Kind → String
  | program => "Program"
  | functionDeclaration => "FunctionDeclaration"
  | variableDeclaration => "VariableDeclaration"
  | parameters => "Parameters"
  | parameter => "Parameter"
  | block => "Block"
  | expressionStatement => "ExpressionStatement"
  | ifStatement => "IfStatement"
  | whileStatement => "WhileStatement"
  | returnStatement => "ReturnStatement"
  | binaryExpression => "BinaryExpression"
  | unaryExpression => "UnaryExpression"
  | logicalExpression => "LogicalExpression"
  | assignmentExpression => "AssignmentExpression"
  | functionCall => "FunctionCall"
  | arguments => "Arguments"
  | identifier => "Identifier"
  | numericLiteral => "NumericLiteral"
  | stringLiteral => "StringLiteral"
  | type => "Type"
  | returnType => "ReturnType"

/-- What a node holds besides its children. -/
inductive Payload where
  | none
  | name (name : String)
  | binding (name : String) (constant : Bool)
  | number (value : Float)
  | text (text : String)
  | symbol (symbol : String)
  deriving DecidableEq

def Payload.shown? : Payload → Option String
  | .none => Option.none
  | .name x => some x
  | .binding x constant => some (if constant then "const " ++ x else x)
  | .number x => some (Number.positionalText x)
  | .text t => some (Text.quoted t)
  | .symbol op => some op

end Node

structure Node where
  depth : Nat
  kind : Node.Kind
  payload : Node.Payload
  span : Option Span

namespace Node

def line (n : Node) : String :=
  let indent := String.ofList (List.replicate (2 * n.depth) ' ')
  match n.payload.shown? with
  | some shown => indent ++ n.kind.title ++ " " ++ shown
  | none => indent ++ n.kind.title

/-- The lines of the nodes, each ended by a newline. -/
def listing (nodes : List Node) : String := String.join (nodes.map fun n => n.line ++ "\n")

end Node

mutual

def Expr.nodes (depth : Nat) : Expr → List Node
  | .number x s => [⟨depth, .numericLiteral, .number x, some s⟩]
  | .string t s => [⟨depth, .stringLiteral, .text t, some s⟩]
  | .reference x s => [⟨depth, .identifier, .name x, some s⟩]
  | .assign x e s => ⟨depth, .assignmentExpression, .name x, some s⟩ :: e.nodes (depth + 1)
  | .binary op a b s =>
    ⟨depth, .binaryExpression, .symbol op.symbol, some s⟩ ::
      (a.nodes (depth + 1) ++ b.nodes (depth + 1))
  | .logical op a b s =>
    ⟨depth, .logicalExpression, .symbol op.symbol, some s⟩ ::
      (a.nodes (depth + 1) ++ b.nodes (depth + 1))
  | .unary op e s => ⟨depth, .unaryExpression, .symbol op.symbol, some s⟩ :: e.nodes (depth + 1)
  | .call f es s =>
    ⟨depth, .functionCall, .name f, some s⟩ :: ⟨depth + 1, .arguments, .none, none⟩ ::
      Expr.nodesOfList (depth + 2) es

def Expr.nodesOfList (depth : Nat) : List Expr → List Node
  | [] => []
  | e :: es => e.nodes depth ++ Expr.nodesOfList depth es

end

def TypeName.node (depth : Nat) (kind : Node.Kind) (t : TypeName) : Node :=
  ⟨depth, kind, .name t.name, some t.span⟩

def Parameter.nodes (depth : Nat) (p : Parameter) : List Node :=
  ⟨depth, .parameter, .name p.name, some p.span⟩ ::
    (p.ascription.map (TypeName.node (depth + 1) .type)).toList

mutual

def Stmt.nodes (depth : Nat) : Stmt → List Node
  | .function f ps r body s =>
    ⟨depth, .functionDeclaration, .name f, some s⟩ :: ⟨depth + 1, .parameters, .none, none⟩ ::
      (ps.flatMap (Parameter.nodes (depth + 2)) ++
        ((r.map (TypeName.node (depth + 1) .returnType)).toList ++ body.nodes (depth + 1)))
  | .binding x constant t e s =>
    ⟨depth, .variableDeclaration, .binding x constant, some s⟩ ::
      ((t.map (TypeName.node (depth + 1) .type)).toList ++
        (e.map (Expr.nodes (depth + 1))).getD [])
  | .expression e s => ⟨depth, .expressionStatement, .none, some s⟩ :: e.nodes (depth + 1)
  | .ifThen c yes s =>
    ⟨depth, .ifStatement, .none, some s⟩ :: (c.nodes (depth + 1) ++ yes.nodes (depth + 1))
  | .ifElse c yes no s =>
    ⟨depth, .ifStatement, .none, some s⟩ ::
      (c.nodes (depth + 1) ++ (yes.nodes (depth + 1) ++ no.nodes (depth + 1)))
  | .while_ c body s =>
    ⟨depth, .whileStatement, .none, some s⟩ :: (c.nodes (depth + 1) ++ body.nodes (depth + 1))
  | .return_ e s =>
    ⟨depth, .returnStatement, .none, some s⟩ :: (e.map (Expr.nodes (depth + 1))).getD []

def Block.nodes (depth : Nat) : Block → List Node
  | .mk statements s => ⟨depth, .block, .none, some s⟩ :: Stmt.nodesOfList (depth + 1) statements

def Stmt.nodesOfList (depth : Nat) : List Stmt → List Node
  | [] => []
  | s :: ss => s.nodes depth ++ Stmt.nodesOfList depth ss

end

namespace Program

def nodes (p : Program) : List Node :=
  ⟨0, .program, .none, none⟩ :: Stmt.nodesOfList 1 p.statements

def listing (p : Program) : String := Node.listing p.nodes

end Program
end Dvilipi
