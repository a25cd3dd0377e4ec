import Dvilipi.Proofs.Semantics.Unique
import Dvilipi.Proofs.Semantics.Visits
import Dvilipi.Proofs.Session.Invariant

/-!
What holds throughout a task and throughout the bodies that its session stores holds throughout every
task that is visited, and of the session in which it is.
-/

namespace Dvilipi
set_option autoImplicit false

variable {P : Expr → Prop} {Q : Stmt → Prop}

theorem Stmt.Every.self {s : Stmt} (h : s.Every P Q) : Q s := by
  cases s <;> exact h.1

theorem Block.every_iff_statements {b : Block} : b.Every P Q ↔ Stmt.EveryOf P Q b.statements := by
  cases b
  exact Iff.rfl

namespace Semantics

variable {s t : Session} {a b c : Task}

theorem admits_ample (natives : Table Native) (depth rounds : Nat) :
    Admits P Q True natives depth (Block.enter rounds Session.maxDepth) :=
  admits_enter (fun _ _ _ _ => trivial) (Nat.le_add_left _ _)

theorem keeps_of_sane {natives : Table Native} {depth : Nat} {α : Type}
    {r : Except RuntimeError α} {reply : Reply RuntimeError Session α} (h : reply = .ending r t)
    (hsane : Sane P Q True natives depth reply) : t.Keeps P Q natives depth := by
  subst h
  cases r with
  | ok v => exact hsane
  | error err => exact hsane.2

theorem Evaluates.keeps {e : Expr} {r : Except RuntimeError Value} (h : Evaluates e s r t)
    (he : e.Every P) (hs : s.Every P Q) : t.Keeps P Q s.natives s.depth := by
  obtain ⟨rounds, hrun⟩ := h.ample.bounded
  exact keeps_of_sane hrun (sane_eval (admits_ample _ _ rounds) e he ⟨hs, rfl, rfl⟩)

theorem EvaluatesAll.keeps {es : List Expr} {r : Except RuntimeError (List Value)}
    (h : EvaluatesAll es s r t) (hes : Expr.EveryOf P es) (hs : s.Every P Q) :
    t.Keeps P Q s.natives s.depth := by
  obtain ⟨rounds, hrun⟩ := h.ample.bounded
  exact keeps_of_sane hrun (sane_evalList (admits_ample _ _ rounds) es hes ⟨hs, rfl, rfl⟩)

theorem Executes.keeps {stmt : Stmt} {r : Except RuntimeError Flow} (h : Executes stmt s r t)
    (hstmt : stmt.Every P Q) (hs : s.Every P Q) : t.Keeps P Q s.natives s.depth := by
  obtain ⟨rounds, hrun⟩ := h.ample.bounded
  exact keeps_of_sane (exec_of_unrolled hrun)
    (sane_exec (fun _ _ _ _ => trivial) (admits_ample _ _ rounds) stmt hstmt ⟨hs, rfl, rfl⟩)

theorem Sequence.keeps {last : Value} {stmts : List Stmt} {r : Except RuntimeError Flow}
    (h : Sequence last stmts s r t) (hstmts : Stmt.EveryOf P Q stmts) (hs : s.Every P Q) :
    t.Keeps P Q s.natives s.depth := by
  obtain ⟨rounds, hrun⟩ := h.ample.bounded
  exact keeps_of_sane hrun
    (sane_execFrom (fun _ _ _ _ => trivial) (admits_ample _ _ rounds) stmts hstmts ⟨hs, rfl, rfl⟩)

/-- `P` and `Q` hold throughout the task. -/
def Task.Every (P : Expr → Prop) (Q : Stmt → Prop) : Task → Prop
  | .expr e => e.Every P
  | .list es => Expr.EveryOf P es
  | .statement stmt => stmt.Every P Q
  | .sequence _ stmts => Stmt.EveryOf P Q stmts

/-- `P` and `Q` hold of all that the task can come to run in the session. -/
def Task.Within (P : Expr → Prop) (Q : Stmt → Prop) (a : Task) (s : Session) : Prop :=
  a.Every P Q ∧ s.Every P Q

theorem Begins.within (h : Begins a s b t) (ha : a.Within P Q s) : b.Within P Q t := by
  obtain ⟨ha, hs⟩ := ha
  cases h with
  | assign => exact ⟨ha.2, hs⟩
  | binary_left => exact ⟨ha.2.1, hs⟩
  | binary_right h => exact ⟨ha.2.2, (h.keeps ha.2.1 hs).bodies⟩
  | logical_left => exact ⟨ha.2.1, hs⟩
  | and_right h _ => exact ⟨ha.2.2, (h.keeps ha.2.1 hs).bodies⟩
  | or_right h _ => exact ⟨ha.2.2, (h.keeps ha.2.1 hs).bodies⟩
  | unary => exact ⟨ha.2, hs⟩
  | arguments _ => exact ⟨ha.2, hs⟩
  | body _ hf hes _ => exact ⟨Block.every_iff_statements.mp (hs _ _ hf), (hes.keeps ha.2 hs).bodies⟩
  | head => exact ⟨ha.1, hs⟩
  | tail he => exact ⟨ha.2, (he.keeps ha.1 hs).bodies⟩
  | binding => exact ⟨ha.2 _ rfl, hs⟩
  | expression => exact ⟨ha.2, hs⟩
  | then_condition => exact ⟨ha.2.1, hs⟩
  | then_taken hc _ => exact ⟨Block.every_iff_statements.mp ha.2.2, (hc.keeps ha.2.1 hs).bodies⟩
  | else_condition => exact ⟨ha.2.1, hs⟩
  | else_yes hc _ => exact ⟨Block.every_iff_statements.mp ha.2.2.1, (hc.keeps ha.2.1 hs).bodies⟩
  | else_no hc _ => exact ⟨Block.every_iff_statements.mp ha.2.2.2, (hc.keeps ha.2.1 hs).bodies⟩
  | while_condition => exact ⟨ha.2.1, hs⟩
  | while_body hc _ => exact ⟨Block.every_iff_statements.mp ha.2.2, (hc.keeps ha.2.1 hs).bodies⟩
  | while_again hc _ hbody =>
    have ht := (hc.keeps ha.2.1 hs).bodies
    exact ⟨ha, (hbody.keeps (Block.every_iff_statements.mp ha.2.2) ht).bodies⟩
  | return_ => exact ⟨ha.2 _ rfl, hs⟩
  | first => exact ⟨ha.1, hs⟩
  | following h => exact ⟨ha.2, (h.keeps ha.1 hs).bodies⟩

theorem Visits.within (h : Visits a s b t) (ha : a.Within P Q s) : b.Within P Q t := by
  induction h with
  | here => exact ha
  | next _ hbegins ih => exact hbegins.within (ih ha)

theorem Visits.trans {u : Session} (h : Visits a s b t) (h' : Visits b t c u) :
    Visits a s c u := by
  induction h' with
  | here => exact h
  | next _ hbegins ih => exact (ih h).next hbegins

theorem visits_iff : Visits a s b t ↔
    b = a ∧ t = s ∨ ∃ c u, Begins a s c u ∧ Visits c u b t := by
  constructor
  · intro h
    induction h with
    | here => exact .inl ⟨rfl, rfl⟩
    | next _ hbegins ih =>
      rcases ih with ⟨rfl, rfl⟩ | ⟨c, u, hfirst, hvisit⟩
      · exact .inr ⟨_, _, hbegins, .here⟩
      · exact .inr ⟨c, u, hfirst, hvisit.next hbegins⟩
  · intro h
    rcases h with ⟨rfl, rfl⟩ | ⟨c, u, hfirst, hvisit⟩
    · exact .here
    · exact (Visits.next .here hfirst).trans hvisit

end Semantics
end Dvilipi
