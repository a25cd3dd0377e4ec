import Dvilipi.Proofs.Tree.ReadFrom
import Dvilipi.Tree.Node

/-!
The pieces of a tree are the parts that carry a span. The children of a piece are those that no other
piece stands between, in the order in which the source has them; lists of parameters and of arguments
have no span, so their members are children of the declaration or of the call. Every node belongs to a
piece, but those that only gather others.
-/

namespace Dvilipi
set_option autoImplicit false

inductive Piece where
  | expr (e : Expr)
  | type (t : TypeName)
  | result (t : TypeName)
  | parameter (p : Parameter)
  | statement (s : Stmt)
  | block (b : Block)

def Expr.operands : Expr → List Expr
  | .number _ _ => []
  | .string _ _ => []
  | .reference _ _ => []
  | .assign _ e _ => [e]
  | .binary _ a b _ => [a, b]
  | .logical _ a b _ => [a, b]
  | .unary _ e _ => [e]
  | .call _ es _ => es

/-- What the token of a literal or of an identifier says. -/
def Expr.atom? : Expr → Option Token.Content
  | .number x _ => some (.number x)
  | .string text _ => some (.string text)
  | .reference x _ => some (.identifier x)
  | _ => none

theorem Expr.sizeOf_lt_of_mem_operands {a e : Expr} (h : a ∈ e.operands) : sizeOf a < sizeOf e := by
  cases e with
  | call f es sp =>
    have hlt : sizeOf a < sizeOf es := List.sizeOf_lt_of_mem h
    simp
    omega
  | _ => simp [operands] at h <;> grind

namespace Piece

def span : Piece → Span
  | expr e => e.span
  | type t => t.span
  | result t => t.span
  | parameter p => p.span
  | statement s => s.span
  | block b => b.span

def children : Piece → List Piece
  | expr e => e.operands.map expr
  | type _ => []
  | result _ => []
  | parameter p => p.ascription.toList.map type
  | statement (.function _ ps r body _) =>
    ps.map parameter ++ (r.toList.map result ++ [block body])
  | statement (.binding _ _ t e _) => t.toList.map type ++ e.toList.map expr
  | statement (.expression e _) => [expr e]
  | statement (.ifThen c yes _) => [expr c, block yes]
  | statement (.ifElse c yes no _) => [expr c, block yes, block no]
  | statement (.while_ c body _) => [expr c, block body]
  | statement (.return_ e _) => e.toList.map expr
  | block b => b.statements.map statement

/-- The nodes of the piece, its own in front. -/
def nodes (depth : Nat) : Piece → List Node
  | expr e => e.nodes depth
  | type t => [t.node depth .type]
  | result t => [t.node depth .returnType]
  | parameter p => p.nodes depth
  | statement s => s.nodes depth
  | block b => b.nodes depth

/-- The piece is read from the tokens. A block behind `else` may be a conditional alone. -/
def ReadFrom : Piece → List Token → Prop
  | expr e => e.ReadFrom
  | type t => t.ReadFrom
  | result t => t.ReadFrom
  | parameter p => p.ReadFrom
  | statement s => s.ReadFrom
  | block b => Stmt.BranchFrom b

theorem sizeOf_lt_of_mem_children {x y : Piece} (h : y ∈ x.children) : sizeOf y < sizeOf x := by
  cases x with
  | expr e =>
    obtain ⟨a, ha, rfl⟩ := List.mem_map.mp h
    have hlt : sizeOf a < sizeOf e := Expr.sizeOf_lt_of_mem_operands ha
    simpa using hlt
  | type t => cases h
  | result t => cases h
  | parameter p =>
    obtain ⟨x, ascription, sp⟩ := p
    obtain ⟨t, ht, rfl⟩ := List.mem_map.mp h
    have ht : ascription = some t := Option.mem_toList.mp ht
    simp [ht]
    omega
  | statement s =>
    cases s with
    | function f ps r body sp =>
      simp only [children, List.mem_append, List.mem_map, Option.mem_toList,
        List.mem_singleton] at h
      rcases h with ⟨p, hp, rfl⟩ | ⟨t, rfl, rfl⟩ | rfl
      · have hlt : sizeOf p < sizeOf ps := List.sizeOf_lt_of_mem hp
        simp
        omega
      · simp
        omega
      · simp
        omega
    | binding x constant t e sp =>
      simp only [children, List.mem_append, List.mem_map, Option.mem_toList] at h
      rcases h with ⟨t, rfl, rfl⟩ | ⟨e, rfl, rfl⟩ <;> simp <;> omega
    | return_ e sp =>
      simp only [children, List.mem_map, Option.mem_toList] at h
      obtain ⟨e, rfl, rfl⟩ := h
      simp
      omega
    | _ =>
      simp only [children, List.mem_cons, List.not_mem_nil, or_false] at h
      grind
  | block b =>
    obtain ⟨ss, sp⟩ := b
    obtain ⟨s, hs, rfl⟩ := List.mem_map.mp h
    have hlt := List.sizeOf_lt_of_mem hs
    simp [Block.statements] at *
    omega

/-- What holds of a piece as soon as it holds of its children holds of all pieces. -/
theorem induct {motive : Piece → Prop} (h : ∀ x, (∀ y ∈ x.children, motive y) → motive x)
    (x : Piece) : motive x :=
  h x fun y _ => induct h y
termination_by sizeOf x
decreasing_by exact sizeOf_lt_of_mem_children ‹_›

end Piece

theorem Expr.nodesOfList_eq_flatMap (depth : Nat) (es : List Expr) :
    Expr.nodesOfList depth es = es.flatMap (Expr.nodes depth) := by
  induction es with
  | nil => rfl
  | cons e es ih => rw [Expr.nodesOfList, ih, List.flatMap_cons]

theorem Stmt.nodesOfList_eq_flatMap (depth : Nat) (ss : List Stmt) :
    Stmt.nodesOfList depth ss = ss.flatMap (Stmt.nodes depth) := by
  induction ss with
  | nil => rfl
  | cons s ss ih => rw [Stmt.nodesOfList, ih, List.flatMap_cons]

/-- The node only gathers others: it holds nothing and has no span. -/
structure Node.Gathers (n : Node) : Prop where
  kind : n.kind ∈ [.program, .parameters, .arguments]
  payload : n.payload = .none
  span : n.span = none

namespace Piece

/-- The node is the own node of the piece at that depth. -/
def Heads (x : Piece) (n : Node) : Prop :=
  (x.nodes n.depth).head? = some n ∧ n.span = some x.span

/-- A node of a piece is its own, or gathers others, or is a node of a child. -/
def Accounts (x : Piece) (n : Node) : Prop :=
  x.Heads n ∨ n.Gathers ∨ ∃ y ∈ x.children, ∃ k, n ∈ y.nodes k

section

variable {n : Node} {depth : Nat}

theorem accounts_expr {e : Expr} (h : n ∈ e.nodes depth) : (expr e).Accounts n := by
  cases e with
  | call f es sp =>
    simp only [Expr.nodes, List.mem_cons, Expr.nodesOfList_eq_flatMap, List.mem_flatMap] at h
    rcases h with rfl | rfl | ⟨e, he, hn⟩
    · exact .inl ⟨rfl, rfl⟩
    · exact .inr (.inl ⟨by simp, rfl, rfl⟩)
    · exact .inr (.inr ⟨_, List.mem_map_of_mem he, _, hn⟩)
  | assign x e sp =>
    rcases List.mem_cons.mp h with rfl | hn
    · exact .inl ⟨rfl, rfl⟩
    · exact .inr (.inr ⟨expr e, by simp [children, Expr.operands], _, hn⟩)
  | unary op e sp =>
    rcases List.mem_cons.mp h with rfl | hn
    · exact .inl ⟨rfl, rfl⟩
    · exact .inr (.inr ⟨expr e, by simp [children, Expr.operands], _, hn⟩)
  | binary op a b sp =>
    simp only [Expr.nodes, List.mem_cons, List.mem_append] at h
    rcases h with rfl | hn | hn
    · exact .inl ⟨rfl, rfl⟩
    · exact .inr (.inr ⟨expr a, by simp [children, Expr.operands], _, hn⟩)
    · exact .inr (.inr ⟨expr b, by simp [children, Expr.operands], _, hn⟩)
  | logical op a b sp =>
    simp only [Expr.nodes, List.mem_cons, List.mem_append] at h
    rcases h with rfl | hn | hn
    · exact .inl ⟨rfl, rfl⟩
    · exact .inr (.inr ⟨expr a, by simp [children, Expr.operands], _, hn⟩)
    · exact .inr (.inr ⟨expr b, by simp [children, Expr.operands], _, hn⟩)
  | _ =>
    obtain rfl := List.mem_singleton.mp h
    exact .inl ⟨rfl, rfl⟩

theorem accounts_parameter {p : Parameter} (h : n ∈ p.nodes depth) : (parameter p).Accounts n := by
  simp only [Parameter.nodes, List.mem_cons, Option.mem_toList, Option.map_eq_some_iff] at h
  rcases h with rfl | ⟨t, ht, rfl⟩
  · exact .inl ⟨rfl, rfl⟩
  · exact .inr (.inr ⟨type t, List.mem_map_of_mem (Option.mem_toList.mpr ht), _,
      List.mem_singleton_self _⟩)

theorem mem_optional_nodes {e : Option Expr}
    (h : n ∈ (e.map (Expr.nodes depth)).getD []) : ∃ a ∈ e, n ∈ a.nodes depth := by
  cases e with
  | none => cases h
  | some a => exact ⟨a, rfl, h⟩

theorem accounts_statement {s : Stmt} (h : n ∈ s.nodes depth) : (statement s).Accounts n := by
  cases s with
  | function f ps r body sp =>
    simp only [Stmt.nodes, List.mem_cons, List.mem_append, List.mem_flatMap, Option.mem_toList,
      Option.map_eq_some_iff] at h
    rcases h with rfl | rfl | ⟨p, hp, hn⟩ | ⟨t, rfl, rfl⟩ | hn
    · exact .inl ⟨rfl, rfl⟩
    · exact .inr (.inl ⟨by simp, rfl, rfl⟩)
    · exact .inr (.inr ⟨parameter p, by simp [children, hp], _, hn⟩)
    · exact .inr (.inr ⟨result t, by simp [children], _, List.mem_singleton_self _⟩)
    · exact .inr (.inr ⟨block body, by simp [children], _, hn⟩)
  | binding x constant t e sp =>
    simp only [Stmt.nodes, List.mem_cons, List.mem_append, Option.mem_toList,
      Option.map_eq_some_iff] at h
    rcases h with rfl | ⟨t, rfl, rfl⟩ | hn
    · exact .inl ⟨rfl, rfl⟩
    · exact .inr (.inr ⟨type t, by simp [children], _, List.mem_singleton_self _⟩)
    · obtain ⟨a, ha, hn⟩ := mem_optional_nodes hn
      exact .inr (.inr ⟨expr a, by simpa [children] using ha, _, hn⟩)
  | expression e sp =>
    rcases List.mem_cons.mp h with rfl | hn
    · exact .inl ⟨rfl, rfl⟩
    · exact .inr (.inr ⟨expr e, by simp [children], _, hn⟩)
  | ifThen c yes sp =>
    simp only [Stmt.nodes, List.mem_cons, List.mem_append] at h
    rcases h with rfl | hn | hn
    · exact .inl ⟨rfl, rfl⟩
    · exact .inr (.inr ⟨expr c, by simp [children], _, hn⟩)
    · exact .inr (.inr ⟨block yes, by simp [children], _, hn⟩)
  | ifElse c yes no sp =>
    simp only [Stmt.nodes, List.mem_cons, List.mem_append] at h
    rcases h with rfl | hn | hn | hn
    · exact .inl ⟨rfl, rfl⟩
    · exact .inr (.inr ⟨expr c, by simp [children], _, hn⟩)
    · exact .inr (.inr ⟨block yes, by simp [children], _, hn⟩)
    · exact .inr (.inr ⟨block no, by simp [children], _, hn⟩)
  | while_ c body sp =>
    simp only [Stmt.nodes, List.mem_cons, List.mem_append] at h
    rcases h with rfl | hn | hn
    · exact .inl ⟨rfl, rfl⟩
    · exact .inr (.inr ⟨expr c, by simp [children], _, hn⟩)
    · exact .inr (.inr ⟨block body, by simp [children], _, hn⟩)
  | return_ e sp =>
    rcases List.mem_cons.mp h with rfl | hn
    · exact .inl ⟨rfl, rfl⟩
    · obtain ⟨a, ha, hn⟩ := mem_optional_nodes hn
      exact .inr (.inr ⟨expr a, by simpa [children] using ha, _, hn⟩)

theorem accounts_of_mem_nodes {x : Piece} (h : n ∈ x.nodes depth) : x.Accounts n := by
  cases x with
  | expr e => exact accounts_expr h
  | type t =>
    obtain rfl := List.mem_singleton.mp h
    exact .inl ⟨rfl, rfl⟩
  | result t =>
    obtain rfl := List.mem_singleton.mp h
    exact .inl ⟨rfl, rfl⟩
  | parameter p => exact accounts_parameter h
  | statement s => exact accounts_statement h
  | block b =>
    obtain ⟨ss, sp⟩ := b
    simp only [nodes, Block.nodes, List.mem_cons, Stmt.nodesOfList_eq_flatMap,
      List.mem_flatMap] at h
    rcases h with rfl | ⟨s, hs, hn⟩
    · exact .inl ⟨rfl, rfl⟩
    · exact .inr (.inr ⟨_, List.mem_map_of_mem hs, _, hn⟩)

end

end Piece

/-- The piece belongs to the program: it is one of the statements, or a child of such a piece. -/
inductive Program.Has (a : Program) : Piece → Prop where
  | statement {s : Stmt} (h : s ∈ a.statements) : Has a (.statement s)
  | child {x y : Piece} (hx : Has a x) (hy : y ∈ x.children) : Has a y

/-- Every node that does not gather others is the own node of some piece. -/
theorem Program.gathers_or_has {a : Program} {n : Node} (h : n ∈ a.nodes) :
    n.Gathers ∨ ∃ x, a.Has x ∧ x.Heads n := by
  have hpieces : ∀ x : Piece, a.Has x → ∀ depth, n ∈ x.nodes depth →
      n.Gathers ∨ ∃ y, a.Has y ∧ y.Heads n := by
    intro x
    induction x using Piece.induct with
    | h x ih =>
      intro hx depth hmem
      rcases Piece.accounts_of_mem_nodes hmem with hheads | hgathers | ⟨y, hy, k, hk⟩
      · exact .inr ⟨x, hx, hheads⟩
      · exact .inl hgathers
      · exact ih y hy (hx.child hy) k hk
  rcases List.mem_cons.mp h with rfl | hmem
  · exact .inl ⟨by decide, rfl, rfl⟩
  · rw [Stmt.nodesOfList_eq_flatMap] at hmem
    obtain ⟨s, hs, hs'⟩ := List.mem_flatMap.mp hmem
    exact hpieces (.statement s) (.statement hs) 1 hs'

theorem Program.has_of_mem_nodes {a : Program} {n : Node} (h : n ∈ a.nodes) (hn : n.span ≠ none) :
    ∃ x, a.Has x ∧ x.Heads n :=
  (gathers_or_has h).resolve_left fun hgathers => hn hgathers.span

end Dvilipi
