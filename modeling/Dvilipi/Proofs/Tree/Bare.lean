import Dvilipi.Tree.Basic

/-!
Bare trees: trees in which every span has been replaced by one and the same. Two trees with the same
bare tree differ in their spans only.
-/

namespace Dvilipi
set_option autoImplicit false

/-- The span that bare trees carry everywhere. -/
def Span.blank : Span := ⟨0, 0⟩

mutual

def Expr.bare : Expr → Expr
  | .number x _ => .number x .blank
  | .string t _ => .string t .blank
  | .reference x _ => .reference x .blank
  | .assign x e _ => .assign x e.bare .blank
  | .binary op a b _ => .binary op a.bare b.bare .blank
  | .logical op a b _ => .logical op a.bare b.bare .blank
  | .unary op e _ => .unary op e.bare .blank
  | .call f es _ => .call f (Expr.bareList es) .blank

def Expr.bareList : List Expr → List Expr
  | [] => []
  | e :: es => e.bare :: Expr.bareList es

end

def TypeName.bare (t : TypeName) : TypeName := ⟨t.name, .blank⟩

def Parameter.bare (p : Parameter) : Parameter := ⟨p.name, p.ascription.map TypeName.bare, .blank⟩

mutual

def Stmt.bare : Stmt → Stmt
  | .function f ps r body _ =>
    .function f (ps.map Parameter.bare) (r.map TypeName.bare) body.bare .blank
  | .binding x constant t e _ =>
    .binding x constant (t.map TypeName.bare) (e.map Expr.bare) .blank
  | .expression e _ => .expression e.bare .blank
  | .ifThen c yes _ => .ifThen c.bare yes.bare .blank
  | .ifElse c yes no _ => .ifElse c.bare yes.bare no.bare .blank
  | .while_ c body _ => .while_ c.bare body.bare .blank
  | .return_ e _ => .return_ (e.map Expr.bare) .blank

def Block.bare : Block → Block
  | .mk statements _ => .mk (Stmt.bareList statements) .blank

def Stmt.bareList : List Stmt → List Stmt
  | [] => []
  | s :: ss => s.bare :: Stmt.bareList ss

end

def Program.bare (p : Program) : Program := ⟨Stmt.bareList p.statements⟩

theorem Expr.bareList_eq_map (es : List Expr) : Expr.bareList es = es.map Expr.bare := by
  induction es with
  | nil => rfl
  | cons e es ih => rw [Expr.bareList, ih, List.map_cons]

theorem Stmt.bareList_eq_map (ss : List Stmt) : Stmt.bareList ss = ss.map Stmt.bare := by
  induction ss with
  | nil => rfl
  | cons s ss ih => rw [Stmt.bareList, ih, List.map_cons]

theorem Expr.bare_eq_reference {e : Expr} {x : String} {s : Span} (h : e.bare = .reference x s) :
    ∃ t, e = .reference x t := by
  cases e with
  | reference y t =>
    simp only [Expr.bare, Expr.reference.injEq] at h
    exact ⟨t, by rw [h.1]⟩
  | _ => simp [Expr.bare] at h

end Dvilipi
