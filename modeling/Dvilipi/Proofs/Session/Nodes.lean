import Dvilipi.Proofs.Session.Errors
import Dvilipi.Tree.Node

/-!
Runtime errors name nodes. Where an expression raises an error, the tree that it stands in has a node
with the span of the error and the name that the error tells. A body keeps the nodes of the text that
it was declared in.
-/

namespace Dvilipi
set_option autoImplicit false

section

variable {ns : List Node}

mutual

theorem Expr.every_nodes (e : Expr) {depth : Nat} (h : e.nodes depth ⊆ ns) :
    e.Every fun a => ∃ k, a.nodes k ⊆ ns := by
  cases e with
  | number x sp => exact ⟨depth, h⟩
  | string t sp => exact ⟨depth, h⟩
  | reference x sp => exact ⟨depth, h⟩
  | assign x e sp => exact ⟨⟨depth, h⟩, e.every_nodes (List.cons_subset.mp h).2⟩
  | binary op a b sp =>
    obtain ⟨ha, hb⟩ := List.append_subset.mp (List.cons_subset.mp h).2
    exact ⟨⟨depth, h⟩, a.every_nodes ha, b.every_nodes hb⟩
  | logical op a b sp =>
    obtain ⟨ha, hb⟩ := List.append_subset.mp (List.cons_subset.mp h).2
    exact ⟨⟨depth, h⟩, a.every_nodes ha, b.every_nodes hb⟩
  | unary op e sp => exact ⟨⟨depth, h⟩, e.every_nodes (List.cons_subset.mp h).2⟩
  | call f es sp =>
    have hes := (List.cons_subset.mp (List.cons_subset.mp h).2).2
    exact ⟨⟨depth, h⟩, Expr.everyOf_nodes es hes⟩
termination_by structural e

theorem Expr.everyOf_nodes (es : List Expr) {depth : Nat} (h : Expr.nodesOfList depth es ⊆ ns) :
    Expr.EveryOf (fun a => ∃ k, a.nodes k ⊆ ns) es := by
  cases es with
  | nil => trivial
  | cons e es =>
    obtain ⟨he, hes⟩ := List.append_subset.mp h
    exact ⟨e.every_nodes he, Expr.everyOf_nodes es hes⟩
termination_by structural es

end

theorem Expr.every_nodes_optional {e : Option Expr} {depth : Nat}
    (h : (e.map (Expr.nodes depth)).getD [] ⊆ ns) :
    ∀ a ∈ e, a.Every fun b => ∃ k, b.nodes k ⊆ ns := by
  cases e with
  | none => nofun
  | some a =>
    intro b hb
    cases hb
    exact a.every_nodes h

mutual

theorem Stmt.every_nodes (s : Stmt) {depth : Nat} (h : s.nodes depth ⊆ ns) :
    s.Every (fun a => ∃ k, a.nodes k ⊆ ns) Stmt.Any := by
  cases s with
  | function f ps r body sp =>
    have hbody := List.append_subset.mp (List.cons_subset.mp (List.cons_subset.mp h).2).2
    exact ⟨trivial, body.every_nodes (List.append_subset.mp hbody.2).2⟩
  | binding x constant t e sp =>
    have hinitial := List.append_subset.mp (List.cons_subset.mp h).2
    exact ⟨trivial, Expr.every_nodes_optional hinitial.2⟩
  | expression e sp => exact ⟨trivial, e.every_nodes (List.cons_subset.mp h).2⟩
  | ifThen c yes sp =>
    obtain ⟨hc, hyes⟩ := List.append_subset.mp (List.cons_subset.mp h).2
    exact ⟨trivial, c.every_nodes hc, yes.every_nodes hyes⟩
  | ifElse c yes no sp =>
    obtain ⟨hc, hbranches⟩ := List.append_subset.mp (List.cons_subset.mp h).2
    obtain ⟨hyes, hno⟩ := List.append_subset.mp hbranches
    exact ⟨trivial, c.every_nodes hc, yes.every_nodes hyes, no.every_nodes hno⟩
  | while_ c body sp =>
    obtain ⟨hc, hbody⟩ := List.append_subset.mp (List.cons_subset.mp h).2
    exact ⟨trivial, c.every_nodes hc, body.every_nodes hbody⟩
  | return_ e sp => exact ⟨trivial, Expr.every_nodes_optional (List.cons_subset.mp h).2⟩
termination_by structural s

theorem Block.every_nodes (b : Block) {depth : Nat} (h : b.nodes depth ⊆ ns) :
    b.Every (fun a => ∃ k, a.nodes k ⊆ ns) Stmt.Any := by
  cases b with
  | mk statements sp => exact Stmt.everyOf_nodes statements (List.cons_subset.mp h).2
termination_by structural b

theorem Stmt.everyOf_nodes (ss : List Stmt) {depth : Nat} (h : Stmt.nodesOfList depth ss ⊆ ns) :
    Stmt.EveryOf (fun a => ∃ k, a.nodes k ⊆ ns) Stmt.Any ss := by
  cases ss with
  | nil => trivial
  | cons s ss =>
    obtain ⟨hs, hss⟩ := List.append_subset.mp h
    exact ⟨s.every_nodes hs, Stmt.everyOf_nodes ss hss⟩
termination_by structural ss

end

end

theorem Program.every_nodes (p : Program) :
    p.Every (fun a => ∃ k, a.nodes k ⊆ p.nodes) Stmt.Any :=
  Stmt.everyOf_nodes p.statements (List.subset_cons_self _ _)

/-- The expression stands in the program of the text and points into the text. -/
def Expr.StandsIn (text : String) (e : Expr) : Prop :=
  e.Points text.toList ∧
    ∃ p, Program.ofSource text = .ok p ∧ ∃ k, e.nodes k ⊆ p.nodes

theorem Program.every_standsIn {text : String} {p : Program} (h : ofSource text = .ok p) :
    p.Every (Expr.StandsIn text) Stmt.Any := by
  refine (Stmt.everyOf_iff_parts p.statements).mpr fun e he => ⟨?_, p, h, ?_⟩
  · exact (Stmt.everyOf_iff_parts p.statements).mp (every_points_of_ofSource h) e he
  · exact (Stmt.everyOf_iff_parts p.statements).mp p.every_nodes e he

/-- The cause is what a node of this kind can fail with: a reference that is the name, or a call that
begins with the name. Only calls of natives fail with their output. -/
def RuntimeError.Cause.Fits (natives : Table Native) (n : Node) (slice : List Char) : Cause → Prop
  | .undefinedVariable x => n.kind = .identifier ∧ n.payload = .name x ∧ slice = x.toList
  | .undefinedFunction f => n.kind = .functionCall ∧ n.payload = .name f ∧ f.toList <+: slice
  | .callDepthExceeded f limit =>
    n.kind = .functionCall ∧ n.payload = .name f ∧ f.toList <+: slice ∧ limit = 256
  | .outputFailed _ =>
    n.kind = .functionCall ∧ ∃ f, n.payload = .name f ∧ f.toList <+: slice ∧ natives.contains f = true

/-- The error has the span of a node of the program of the text, and its cause fits the node. -/
def RuntimeError.NamesNode (natives : Table Native) (text : String) (err : RuntimeError) : Prop :=
  ∃ p, Program.ofSource text = .ok p ∧ ∃ n ∈ p.nodes, n.span = some err.span ∧
    err.span.Within text.toList ∧ err.cause.Fits natives n (err.span.slice text.toList)

theorem Expr.StandsIn.namesNode {natives : Table Native} {text : String} {err : RuntimeError}
    {e : Expr} (he : e.StandsIn text) (h : err.RaisedAt natives e) : err.NamesNode natives text := by
  obtain ⟨hpoints, p, hp, k, hnodes⟩ := he
  cases e with
  | reference x sp =>
    obtain rfl : err = ⟨.undefinedVariable x, sp⟩ := h
    exact ⟨p, hp, _, hnodes List.mem_cons_self, rfl, hpoints.1, rfl, rfl, hpoints.2⟩
  | call f es sp =>
    have hnode := hnodes List.mem_cons_self
    rcases h with rfl | rfl | ⟨hnative, detail, rfl⟩
    · exact ⟨p, hp, _, hnode, rfl, hpoints.1, rfl, rfl, hpoints.2⟩
    · exact ⟨p, hp, _, hnode, rfl, hpoints.1, rfl, rfl, hpoints.2, rfl⟩
    · exact ⟨p, hp, _, hnode, rfl, hpoints.1, rfl, f, rfl, hpoints.2, hnative⟩
  | _ => exact h.elim

namespace Session

variable {texts : List String} {rounds : Nat} {source : String} {s t : Session}

/-- A runtime error names a node of the text that is run, or of one that was run before. -/
theorem run_error_names_node (h : After texts s) {err : RuntimeError}
    (hrun : run rounds source s = .failed (.runtime err) t) :
    ∃ text ∈ source :: texts, err.NamesNode s.natives text := by
  have hbodies : s.Every (fun e => ∃ text ∈ texts, e.StandsIn text) Stmt.Any :=
    h.every fun _ _ => Program.every_standsIn
  have hraised := (sane_run_texts (r := .error (.runtime err))
    (fun _ _ => Program.every_standsIn) hbodies hrun).2 err rfl
  obtain ⟨e, ⟨text, htext, he⟩, hat⟩ := hraised
  exact ⟨text, htext, he.namesNode hat⟩

/-- The call that is nested too deep stands in the body that calls itself, not in the text that is
run. -/
theorem run_error_names_node_depth :
    ∃ s t, After ["fn f() \x7b return f(); \x7d"] s ∧
      run 1 "f();" s = .failed (.runtime ⟨.callDepthExceeded "f" 256, ⟨16, 19⟩⟩) t ∧
      RuntimeError.NamesNode s.natives "fn f() \x7b return f(); \x7d"
        ⟨.callDepthExceeded "f" 256, ⟨16, 19⟩⟩ := by
  obtain ⟨s, t, hafter, hrun⟩ := exists_of_errorAfter
    (by decide +kernel : errorAfter "fn f() \x7b return f(); \x7d" "f();" =
      some (.runtime ⟨.callDepthExceeded "f" 256, ⟨16, 19⟩⟩))
  obtain ⟨text, htext, hnames⟩ := run_error_names_node hafter hrun
  rcases List.mem_cons.mp htext with rfl | htext
  · obtain ⟨-, -, -, -, -, hwithin, -⟩ := hnames
    have hbound : 19 ≤ 4 := hwithin.2
    omega
  · obtain rfl := List.mem_singleton.mp htext
    exact ⟨s, t, hafter, hrun, hnames⟩

end Session
end Dvilipi
