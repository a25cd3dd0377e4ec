import Dvilipi.Proofs.Tree.Every
import Dvilipi.Session.Basic

/-!
The functions that a tree declares, at any nesting: in the branches of conditionals, in loops, and in
the bodies of other declared functions.
-/

namespace Dvilipi
set_option autoImplicit false

/-- The definition that running the statement stores, if it is a declaration of a function. -/
def Stmt.declared? : Stmt → Option Definition
  | .function f ps _ body _ => some ⟨f, ps.map Parameter.name, body⟩
  | _ => none

mutual

def Stmt.declarations : Stmt → List Definition
  | .function f ps _ body _ => ⟨f, ps.map Parameter.name, body⟩ :: body.declarations
  | .binding _ _ _ _ _ => []
  | .expression _ _ => []
  | .ifThen _ yes _ => yes.declarations
  | .ifElse _ yes no _ => yes.declarations ++ no.declarations
  | .while_ _ body _ => body.declarations
  | .return_ _ _ => []

def Block.declarations : Block → List Definition
  | .mk statements _ => Stmt.declarationsOfList statements

def Stmt.declarationsOfList : List Stmt → List Definition
  | [] => []
  | s :: ss => s.declarations ++ Stmt.declarationsOfList ss

end

def Program.declarations (p : Program) : List Definition := Stmt.declarationsOfList p.statements

/-- `O` holds of what the statement stores. -/
def Stmt.Stores (O : Definition → Prop) (s : Stmt) : Prop := ∀ d, s.declared? = some d → O d

variable {O : Definition → Prop}

theorem Expr.every_any (e : Expr) : e.Every fun _ => True := e.every_iff.mpr fun _ _ => trivial

theorem Expr.every_any_optional (e : Option Expr) : ∀ a ∈ e, a.Every fun _ => True :=
  fun a _ => a.every_any

mutual

theorem Stmt.every_stores {s : Stmt} (h : ∀ d ∈ s.declarations, O d) :
    s.Every (fun _ => True) (Stmt.Stores O) := by
  cases s with
  | function f ps r body sp =>
    obtain ⟨hhead, hbody⟩ := List.forall_mem_cons.mp h
    exact ⟨fun d hd => Option.some.inj hd ▸ hhead, Block.every_stores hbody⟩
  | binding x constant t e sp => exact ⟨nofun, Expr.every_any_optional e⟩
  | expression e sp => exact ⟨nofun, e.every_any⟩
  | ifThen c yes sp => exact ⟨nofun, c.every_any, Block.every_stores h⟩
  | ifElse c yes no sp =>
    obtain ⟨hyes, hno⟩ := List.forall_mem_append.mp h
    exact ⟨nofun, c.every_any, Block.every_stores hyes, Block.every_stores hno⟩
  | while_ c body sp => exact ⟨nofun, c.every_any, Block.every_stores h⟩
  | return_ e sp => exact ⟨nofun, Expr.every_any_optional e⟩
termination_by structural s

theorem Block.every_stores {b : Block} (h : ∀ d ∈ b.declarations, O d) :
    b.Every (fun _ => True) (Stmt.Stores O) := by
  cases b with
  | mk statements sp => exact Stmt.every_storesOfList h
termination_by structural b

theorem Stmt.every_storesOfList {ss : List Stmt} (h : ∀ d ∈ Stmt.declarationsOfList ss, O d) :
    Stmt.EveryOf (fun _ => True) (Stmt.Stores O) ss := by
  cases ss with
  | nil => trivial
  | cons s ss =>
    obtain ⟨hs, hss⟩ := List.forall_mem_append.mp h
    exact ⟨Stmt.every_stores hs, Stmt.every_storesOfList hss⟩
termination_by structural ss

end

end Dvilipi
