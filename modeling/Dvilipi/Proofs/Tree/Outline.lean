import Dvilipi.Proofs.Tree.Bare
import Dvilipi.Tree.Node

/-!
Outlines are trees of labels. The labels in preorder, each with its depth, tell the outline, and the
outline of a program tells the program up to its spans. So the depths, the kinds and the payloads of
the nodes are all that there is to a bare tree.
-/

namespace Dvilipi
set_option autoImplicit false

inductive Outline (α : Type) where
  | node (label : α) (children : List (Outline α))

namespace Outline

variable {α : Type}

mutual

/-- The labels, those of the children one level deeper behind that of their parent. -/
def preorder (depth : Nat) : Outline α → List (Nat × α)
  | node a ts => (depth, a) :: preorderOfList (depth + 1) ts

def preorderOfList (depth : Nat) : List (Outline α) → List (Nat × α)
  | [] => []
  | t :: ts => t.preorder depth ++ preorderOfList depth ts

end

mutual

def size : Outline α → Nat
  | node _ ts => sizeOfList ts + 1

def sizeOfList : List (Outline α) → Nat
  | [] => 0
  | t :: ts => t.size + sizeOfList ts

end

mutual

theorem length_preorder (depth : Nat) (t : Outline α) : (t.preorder depth).length = t.size := by
  cases t with
  | node a ts => rw [preorder, List.length_cons, length_preorderOfList, size]
termination_by structural t

theorem length_preorderOfList (depth : Nat) (ts : List (Outline α)) :
    (preorderOfList depth ts).length = sizeOfList ts := by
  cases ts with
  | nil => rfl
  | cons t ts =>
    rw [preorderOfList, List.length_append, length_preorder, length_preorderOfList, sizeOfList]
termination_by structural ts

end

/-- What follows does not begin with another label of the depth or below it. -/
def Leaves (depth : Nat) (ms : List (Nat × α)) : Prop := ∀ m ∈ ms.head?, m.1 < depth

theorem leaves_append {depth : Nat} {ms : List (Nat × α)} (hms : Leaves depth ms)
    (ts : List (Outline α)) : Leaves (depth + 1) (preorderOfList depth ts ++ ms) := by
  intro m hm
  cases ts with
  | nil => exact Nat.lt_succ_of_lt (hms m hm)
  | cons t ts =>
    obtain ⟨a, us⟩ := t
    obtain rfl := Option.some.inj hm
    exact Nat.lt_succ_self depth

theorem not_leaves_preorder {depth : Nat} (t : Outline α) (ms : List (Nat × α)) :
    ¬ Leaves depth (t.preorder depth ++ ms) := by
  obtain ⟨a, ts⟩ := t
  exact fun h => Nat.lt_irrefl depth (h (depth, a) rfl)

mutual

/-- An outline can be cut off from the front of a text of labels. -/
theorem preorder_append_inj {depth : Nat} {t u : Outline α} {ms ns : List (Nat × α)}
    (hms : Leaves (depth + 1) ms) (hns : Leaves (depth + 1) ns)
    (h : t.preorder depth ++ ms = u.preorder depth ++ ns) : t = u ∧ ms = ns := by
  match t, u with
  | node a ts, node b us =>
    obtain ⟨hlabel, hrest⟩ := List.cons.inj h
    obtain ⟨rfl, hend⟩ := preorderOfList_append_inj hms hns hrest
    obtain rfl := (Prod.mk.inj hlabel).2
    exact ⟨rfl, hend⟩
termination_by structural t

theorem preorderOfList_append_inj {depth : Nat} {ts us : List (Outline α)} {ms ns : List (Nat × α)}
    (hms : Leaves depth ms) (hns : Leaves depth ns)
    (h : preorderOfList depth ts ++ ms = preorderOfList depth us ++ ns) : ts = us ∧ ms = ns := by
  match ts, us with
  | [], [] => exact ⟨rfl, h⟩
  | [], u :: us =>
    rw [preorderOfList, preorderOfList, List.nil_append, List.append_assoc] at h
    exact absurd (h ▸ hms) (not_leaves_preorder u _)
  | t :: ts, [] =>
    rw [preorderOfList, preorderOfList, List.nil_append, List.append_assoc] at h
    exact absurd (h ▸ hns) (not_leaves_preorder t _)
  | t :: ts, u :: us =>
    rw [preorderOfList, preorderOfList, List.append_assoc, List.append_assoc] at h
    obtain ⟨rfl, hrest⟩ := preorder_append_inj (leaves_append hms ts) (leaves_append hns us) h
    obtain ⟨rfl, hend⟩ := preorderOfList_append_inj hms hns hrest
    exact ⟨rfl, hend⟩
termination_by structural ts

end

theorem preorder_injective {depth : Nat} {t u : Outline α}
    (h : t.preorder depth = u.preorder depth) : t = u := by
  have hend : Leaves (depth + 1) ([] : List (Nat × α)) := by
    intro m hm
    cases hm
  exact (preorder_append_inj hend hend (congrArg (· ++ []) h)).1

end Outline

/-- A node without its depth and its span. -/
abbrev Node.Label := Node.Kind × Node.Payload

def Node.entry (n : Node) : Nat × Node.Label := (n.depth, n.kind, n.payload)

mutual

def Expr.outline : Expr → Outline Node.Label
  | .number x _ => .node (.numericLiteral, .number x) []
  | .string t _ => .node (.stringLiteral, .text t) []
  | .reference x _ => .node (.identifier, .name x) []
  | .assign x e _ => .node (.assignmentExpression, .name x) [e.outline]
  | .binary op a b _ => .node (.binaryExpression, .symbol op.symbol) [a.outline, b.outline]
  | .logical op a b _ => .node (.logicalExpression, .symbol op.symbol) [a.outline, b.outline]
  | .unary op e _ => .node (.unaryExpression, .symbol op.symbol) [e.outline]
  | .call f es _ => .node (.functionCall, .name f) [.node (.arguments, .none) (Expr.outlines es)]

def Expr.outlines : List Expr → List (Outline Node.Label)
  | [] => []
  | e :: es => e.outline :: Expr.outlines es

end

def TypeName.outline (kind : Node.Kind) (t : TypeName) : Outline Node.Label :=
  .node (kind, .name t.name) []

def Parameter.outline (p : Parameter) : Outline Node.Label :=
  .node (.parameter, .name p.name) (p.ascription.map (TypeName.outline .type)).toList

mutual

def Stmt.outline : Stmt → Outline Node.Label
  | .function f ps r body _ =>
    .node (.functionDeclaration, .name f) (.node (.parameters, .none) (ps.map Parameter.outline) ::
      ((r.map (TypeName.outline .returnType)).toList ++ [body.outline]))
  | .binding x constant t e _ =>
    .node (.variableDeclaration, .binding x constant)
      ((t.map (TypeName.outline .type)).toList ++ (e.map Expr.outline).toList)
  | .expression e _ => .node (.expressionStatement, .none) [e.outline]
  | .ifThen c yes _ => .node (.ifStatement, .none) [c.outline, yes.outline]
  | .ifElse c yes no _ => .node (.ifStatement, .none) [c.outline, yes.outline, no.outline]
  | .while_ c body _ => .node (.whileStatement, .none) [c.outline, body.outline]
  | .return_ e _ => .node (.returnStatement, .none) (e.map Expr.outline).toList

def Block.outline : Block → Outline Node.Label
  | .mk ss _ => .node (.block, .none) (Stmt.outlines ss)

def Stmt.outlines : List Stmt → List (Outline Node.Label)
  | [] => []
  | s :: ss => s.outline :: Stmt.outlines ss

end

def Program.outline (p : Program) : Outline Node.Label :=
  .node (.program, .none) (Stmt.outlines p.statements)

section

open Outline (preorder preorderOfList)

theorem Outline.preorderOfList_append {α : Type} (depth : Nat) (ts us : List (Outline α)) :
    preorderOfList depth (ts ++ us) = preorderOfList depth ts ++ preorderOfList depth us := by
  induction ts with
  | nil => rfl
  | cons t ts ih => simp only [List.cons_append, preorderOfList, ih, List.append_assoc]

mutual

theorem Expr.map_entry_nodes (depth : Nat) (e : Expr) :
    (e.nodes depth).map Node.entry = e.outline.preorder depth := by
  cases e with
  | assign x e _ =>
    simp [nodes, outline, preorder, preorderOfList, Node.entry, e.map_entry_nodes]
  | binary op a b _ =>
    simp [nodes, outline, preorder, preorderOfList, Node.entry, a.map_entry_nodes,
      b.map_entry_nodes]
  | logical op a b _ =>
    simp [nodes, outline, preorder, preorderOfList, Node.entry, a.map_entry_nodes,
      b.map_entry_nodes]
  | unary op e _ =>
    simp [nodes, outline, preorder, preorderOfList, Node.entry, e.map_entry_nodes]
  | call f es _ =>
    simp [nodes, outline, preorder, preorderOfList, Node.entry, Expr.map_entry_nodesOfList]
  | _ => rfl
termination_by structural e

theorem Expr.map_entry_nodesOfList (depth : Nat) (es : List Expr) :
    (Expr.nodesOfList depth es).map Node.entry = preorderOfList depth (Expr.outlines es) := by
  cases es with
  | nil => rfl
  | cons e es =>
    rw [Expr.nodesOfList, List.map_append, e.map_entry_nodes, Expr.map_entry_nodesOfList,
      Expr.outlines, preorderOfList]
termination_by structural es

end

theorem Expr.map_entry_optional (depth : Nat) (e : Option Expr) :
    ((e.map (Expr.nodes depth)).getD []).map Node.entry =
      preorderOfList depth (e.map Expr.outline).toList := by
  cases e with
  | none => rfl
  | some e => simp [preorderOfList, e.map_entry_nodes]

theorem TypeName.map_entry_optional (depth : Nat) (kind : Node.Kind) (t : Option TypeName) :
    (t.map (TypeName.node depth kind)).toList.map Node.entry =
      preorderOfList depth (t.map (TypeName.outline kind)).toList := by
  cases t with
  | none => rfl
  | some t => rfl

theorem Parameter.map_entry_nodes (depth : Nat) (p : Parameter) :
    (p.nodes depth).map Node.entry = p.outline.preorder depth := by
  rw [nodes, List.map_cons, TypeName.map_entry_optional]
  rfl

theorem Parameter.map_entry_flatMap (depth : Nat) (ps : List Parameter) :
    (ps.flatMap (Parameter.nodes depth)).map Node.entry =
      preorderOfList depth (ps.map Parameter.outline) := by
  induction ps with
  | nil => rfl
  | cons p ps ih =>
    rw [List.flatMap_cons, List.map_append, p.map_entry_nodes, ih, List.map_cons, preorderOfList]

mutual

theorem Stmt.map_entry_nodes (depth : Nat) (s : Stmt) :
    (s.nodes depth).map Node.entry = s.outline.preorder depth := by
  cases s with
  | function f ps r body _ =>
    simp [Stmt.nodes, Stmt.outline, preorder, preorderOfList, Outline.preorderOfList_append,
      Node.entry, Parameter.map_entry_flatMap, TypeName.map_entry_optional, body.map_entry_nodes]
  | binding x constant t e _ =>
    simp [Stmt.nodes, Stmt.outline, preorder, Outline.preorderOfList_append, Node.entry,
      TypeName.map_entry_optional, Expr.map_entry_optional]
  | expression e _ =>
    simp [Stmt.nodes, Stmt.outline, preorder, preorderOfList, Node.entry, e.map_entry_nodes]
  | ifThen c yes _ =>
    simp [Stmt.nodes, Stmt.outline, preorder, preorderOfList, Node.entry, c.map_entry_nodes,
      yes.map_entry_nodes]
  | ifElse c yes no _ =>
    simp [Stmt.nodes, Stmt.outline, preorder, preorderOfList, Node.entry, c.map_entry_nodes,
      yes.map_entry_nodes, no.map_entry_nodes]
  | while_ c body _ =>
    simp [Stmt.nodes, Stmt.outline, preorder, preorderOfList, Node.entry, c.map_entry_nodes,
      body.map_entry_nodes]
  | return_ e _ =>
    simp [Stmt.nodes, Stmt.outline, preorder, Node.entry, Expr.map_entry_optional]
termination_by structural s

theorem Block.map_entry_nodes (depth : Nat) (b : Block) :
    (b.nodes depth).map Node.entry = b.outline.preorder depth := by
  cases b with
  | mk ss _ => simp [Block.nodes, Block.outline, preorder, Node.entry, Stmt.map_entry_nodesOfList]
termination_by structural b

theorem Stmt.map_entry_nodesOfList (depth : Nat) (ss : List Stmt) :
    (Stmt.nodesOfList depth ss).map Node.entry = preorderOfList depth (Stmt.outlines ss) := by
  cases ss with
  | nil => rfl
  | cons s ss =>
    rw [Stmt.nodesOfList, List.map_append, s.map_entry_nodes, Stmt.map_entry_nodesOfList,
      Stmt.outlines, preorderOfList]
termination_by structural ss

end

theorem Program.map_entry_nodes (a : Program) :
    a.nodes.map Node.entry = a.outline.preorder 0 := by
  rw [nodes, List.map_cons, Stmt.map_entry_nodesOfList]
  rfl

theorem Program.length_nodes (a : Program) : a.nodes.length = a.outline.size := by
  rw [← Outline.length_preorder 0, ← a.map_entry_nodes, List.length_map]

end

theorem UnaryOp.symbol_injective {op op' : UnaryOp} (h : op.symbol = op'.symbol) : op = op' :=
  Option.some.inj (by rw [← ofSymbol?_symbol, h, ofSymbol?_symbol])

theorem Infix.symbol_injective {op op' : Infix} (h : op.symbol = op'.symbol) : op = op' :=
  Option.some.inj (by rw [← ofSymbol?_symbol, h, ofSymbol?_symbol])

section

variable {α β γ : Type} {f : α → β} {g : α → γ}

theorem Outline.map_list_eq {xs ys : List α} (hfg : ∀ a ∈ xs, ∀ b ∈ ys, f a = f b → g a = g b)
    (h : xs.map f = ys.map f) : xs.map g = ys.map g := by
  induction xs generalizing ys with
  | nil =>
    cases ys with
    | nil => rfl
    | cons y ys => cases h
  | cons x xs ih =>
    cases ys with
    | nil => cases h
    | cons y ys =>
      obtain ⟨hfirst, hrest⟩ := List.cons.inj h
      have hhead := hfg x List.mem_cons_self y List.mem_cons_self hfirst
      have htail := ih (fun a ha b hb => hfg a (.tail x ha) b (.tail y hb)) hrest
      rw [List.map_cons, List.map_cons, hhead, htail]

theorem Outline.map_optional_eq (hfg : ∀ a b, f a = f b → g a = g b) {x y : Option α}
    (h : (x.map f).toList = (y.map f).toList) : x.map g = y.map g := by
  match x, y with
  | none, none => rfl
  | none, some b => cases h
  | some a, none => cases h
  | some a, some b => exact congrArg some (hfg a b (List.cons.inj h).1)

end

mutual

theorem Expr.bare_of_outline {e f : Expr} (h : e.outline = f.outline) : e.bare = f.bare := by
  cases e with
  | number x _ =>
    cases f with
    | number y _ => cases h; rfl
    | _ => cases h
  | string t _ =>
    cases f with
    | string u _ => cases h; rfl
    | _ => cases h
  | reference x _ =>
    cases f with
    | reference y _ => cases h; rfl
    | _ => cases h
  | assign x e _ =>
    cases f with
    | assign y f _ =>
      simp only [outline, Outline.node.injEq, Prod.mk.injEq, List.cons.injEq, true_and, and_true,
        Node.Payload.name.injEq] at h
      rw [bare, bare, h.1, bare_of_outline h.2]
    | _ => cases h
  | binary op a b _ =>
    cases f with
    | binary op' c d _ =>
      simp only [outline, Outline.node.injEq, Prod.mk.injEq, List.cons.injEq, true_and, and_true,
        Node.Payload.symbol.injEq] at h
      obtain rfl := Infix.binary.inj (Infix.symbol_injective h.1)
      rw [bare, bare, bare_of_outline h.2.1, bare_of_outline h.2.2]
    | _ => cases h
  | logical op a b _ =>
    cases f with
    | logical op' c d _ =>
      simp only [outline, Outline.node.injEq, Prod.mk.injEq, List.cons.injEq, true_and, and_true,
        Node.Payload.symbol.injEq] at h
      obtain rfl := Infix.logical.inj (Infix.symbol_injective h.1)
      rw [bare, bare, bare_of_outline h.2.1, bare_of_outline h.2.2]
    | _ => cases h
  | unary op e _ =>
    cases f with
    | unary op' f _ =>
      simp only [outline, Outline.node.injEq, Prod.mk.injEq, List.cons.injEq, true_and, and_true,
        Node.Payload.symbol.injEq] at h
      obtain rfl := UnaryOp.symbol_injective h.1
      rw [bare, bare, bare_of_outline h.2]
    | _ => cases h
  | call g es _ =>
    cases f with
    | call g' fs _ =>
      simp only [outline, Outline.node.injEq, Prod.mk.injEq, List.cons.injEq, true_and, and_true,
        Node.Payload.name.injEq] at h
      rw [bare, bare, h.1, bareList_of_outlines h.2]
    | _ => cases h
termination_by structural e

theorem Expr.bareList_of_outlines {es fs : List Expr} (h : Expr.outlines es = Expr.outlines fs) :
    Expr.bareList es = Expr.bareList fs := by
  match es, fs with
  | [], [] => rfl
  | [], _ :: _ => cases h
  | _ :: _, [] => cases h
  | e :: es, f :: fs =>
    obtain ⟨hfirst, hrest⟩ := List.cons.inj h
    rw [Expr.bareList, Expr.bareList, bare_of_outline hfirst, bareList_of_outlines hrest]
termination_by structural es

end

theorem TypeName.bare_of_outline {kind : Node.Kind} {t u : TypeName}
    (h : t.outline kind = u.outline kind) : t.bare = u.bare := by
  simp only [outline, Outline.node.injEq, Prod.mk.injEq, Node.Payload.name.injEq] at h
  rw [bare, bare, h.1.2]

theorem Parameter.bare_of_outline {p q : Parameter} (h : p.outline = q.outline) :
    p.bare = q.bare := by
  simp only [outline, Outline.node.injEq, Prod.mk.injEq, Node.Payload.name.injEq] at h
  rw [bare, bare, h.1.2, Outline.map_optional_eq (fun _ _ => TypeName.bare_of_outline) h.2]

theorem TypeName.outline_ne (t : TypeName) (e : Expr) : t.outline .type ≠ e.outline := by
  cases e <;> exact fun h => by cases h

theorem Stmt.bare_of_outline_binding {t u : Option TypeName} {e f : Option Expr}
    (h : (t.map (TypeName.outline .type)).toList ++ (e.map Expr.outline).toList =
      (u.map (TypeName.outline .type)).toList ++ (f.map Expr.outline).toList) :
    t.map TypeName.bare = u.map TypeName.bare ∧ e.map Expr.bare = f.map Expr.bare := by
  cases t with
  | none =>
    cases u with
    | none => exact ⟨rfl, Outline.map_optional_eq (fun _ _ => Expr.bare_of_outline) h⟩
    | some u =>
      cases e with
      | none => cases h
      | some e => exact absurd (List.cons.inj h).1.symm (u.outline_ne e)
  | some t =>
    cases u with
    | none =>
      cases f with
      | none => cases h
      | some f => exact absurd (List.cons.inj h).1 (t.outline_ne f)
    | some u =>
      obtain ⟨htype, hinitial⟩ := List.cons.inj h
      exact ⟨congrArg some (TypeName.bare_of_outline htype),
        Outline.map_optional_eq (fun _ _ => Expr.bare_of_outline) hinitial⟩

mutual

theorem Stmt.bare_of_outline {s s' : Stmt} (h : s.outline = s'.outline) : s.bare = s'.bare := by
  cases s with
  | function f ps r body _ =>
    cases s' with
    | function f' ps' r' body' _ =>
      simp only [Stmt.outline, Outline.node.injEq, Prod.mk.injEq, List.cons.injEq, true_and,
        Node.Payload.name.injEq] at h
      obtain ⟨hresult, hbody⟩ := List.append_inj' h.2.2 rfl
      rw [Stmt.bare, Stmt.bare, h.1,
        Outline.map_list_eq (fun _ _ _ _ => Parameter.bare_of_outline) h.2.1,
        Outline.map_optional_eq (fun _ _ => TypeName.bare_of_outline) hresult,
        Block.bare_of_outline (List.cons.inj hbody).1]
    | _ => cases h
  | binding x constant t e _ =>
    cases s' with
    | binding x' constant' t' e' _ =>
      simp only [Stmt.outline, Outline.node.injEq, Prod.mk.injEq, true_and,
        Node.Payload.binding.injEq] at h
      obtain ⟨htype, hinitial⟩ := Stmt.bare_of_outline_binding h.2
      rw [Stmt.bare, Stmt.bare, h.1.1, h.1.2, htype, hinitial]
    | _ => cases h
  | expression e _ =>
    cases s' with
    | expression e' _ =>
      simp only [Stmt.outline, Outline.node.injEq, List.cons.injEq, true_and, and_true] at h
      rw [Stmt.bare, Stmt.bare, Expr.bare_of_outline h]
    | _ => cases h
  | ifThen c yes _ =>
    cases s' with
    | ifThen c' yes' _ =>
      simp only [Stmt.outline, Outline.node.injEq, List.cons.injEq, true_and, and_true] at h
      rw [Stmt.bare, Stmt.bare, Expr.bare_of_outline h.1, Block.bare_of_outline h.2]
    | ifElse => simp [Stmt.outline] at h
    | _ => cases h
  | ifElse c yes no _ =>
    cases s' with
    | ifElse c' yes' no' _ =>
      simp only [Stmt.outline, Outline.node.injEq, List.cons.injEq, true_and, and_true] at h
      rw [Stmt.bare, Stmt.bare, Expr.bare_of_outline h.1, Block.bare_of_outline h.2.1,
        Block.bare_of_outline h.2.2]
    | ifThen => simp [Stmt.outline] at h
    | _ => cases h
  | while_ c body _ =>
    cases s' with
    | while_ c' body' _ =>
      simp only [Stmt.outline, Outline.node.injEq, List.cons.injEq, true_and, and_true] at h
      rw [Stmt.bare, Stmt.bare, Expr.bare_of_outline h.1, Block.bare_of_outline h.2]
    | _ => cases h
  | return_ e _ =>
    cases s' with
    | return_ e' _ =>
      simp only [Stmt.outline, Outline.node.injEq, true_and] at h
      rw [Stmt.bare, Stmt.bare, Outline.map_optional_eq (fun _ _ => Expr.bare_of_outline) h]
    | _ => cases h
termination_by structural s

theorem Block.bare_of_outline {b b' : Block} (h : b.outline = b'.outline) : b.bare = b'.bare := by
  match b, b' with
  | .mk ss _, .mk ss' _ =>
    simp only [Block.outline, Outline.node.injEq, true_and] at h
    rw [Block.bare, Block.bare, Stmt.bareList_of_outlines h]
termination_by structural b

theorem Stmt.bareList_of_outlines {ss ss' : List Stmt} (h : Stmt.outlines ss = Stmt.outlines ss') :
    Stmt.bareList ss = Stmt.bareList ss' := by
  match ss, ss' with
  | [], [] => rfl
  | [], _ :: _ => cases h
  | _ :: _, [] => cases h
  | s :: ss, s' :: ss' =>
    obtain ⟨hfirst, hrest⟩ := List.cons.inj h
    rw [Stmt.bareList, Stmt.bareList, Stmt.bare_of_outline hfirst, Stmt.bareList_of_outlines hrest]
termination_by structural ss

end

/-- The entries of the nodes tell the program up to its spans. -/
theorem Program.bare_of_entries {a b : Program}
    (h : a.nodes.map Node.entry = b.nodes.map Node.entry) : a.bare = b.bare := by
  rw [a.map_entry_nodes, b.map_entry_nodes] at h
  have houtline := Outline.preorder_injective h
  simp only [outline, Outline.node.injEq, true_and] at houtline
  rw [bare, bare, Stmt.bareList_of_outlines houtline]

end Dvilipi
