import Dvilipi.Proofs.Semantics.Rules

/-!
What is run on the way. Running a task begins other tasks, each in a session of its own; a task is
visited if a chain of beginnings leads to it. A run that never ends visits tasks like any other.
-/

namespace Dvilipi.Semantics
set_option autoImplicit false

inductive Task where
  | expr (e : Expr)
  | list (es : List Expr)
  | statement (stmt : Stmt)
  | sequence (last : Value) (stmts : List Stmt)

/-- The task, begun in `s`, ends in `t`. -/
def Task.Ends : Task → Session → Session → Prop
  | .expr e, s, t => ∃ r, Evaluates e s r t
  | .list es, s, t => ∃ r, EvaluatesAll es s r t
  | .statement stmt, s, t => ∃ r, Executes stmt s r t
  | .sequence last stmts, s, t => ∃ r, Sequence last stmts s r t

/-- `Begins a s b t` says that the task `a`, begun in `s`, comes to begin `b` in `t`. -/
inductive Begins : Task → Session → Task → Session → Prop where
  | assign {x : String} {e : Expr} {sp : Span} {s : Session} :
      Begins (.expr (.assign x e sp)) s (.expr e) s
  | binary_left {op : BinaryOp} {a b : Expr} {sp : Span} {s : Session} :
      Begins (.expr (.binary op a b sp)) s (.expr a) s
  | binary_right {op : BinaryOp} {a b : Expr} {sp : Span} {s t : Session} {v : Value}
      (ha : Evaluates a s (.ok v) t) : Begins (.expr (.binary op a b sp)) s (.expr b) t
  | logical_left {op : LogicalOp} {a b : Expr} {sp : Span} {s : Session} :
      Begins (.expr (.logical op a b sp)) s (.expr a) s
  | and_right {a b : Expr} {sp : Span} {s t : Session} {v : Value} (ha : Evaluates a s (.ok v) t)
      (hv : v.isTruthy = true) : Begins (.expr (.logical .and a b sp)) s (.expr b) t
  | or_right {a b : Expr} {sp : Span} {s t : Session} {v : Value} (ha : Evaluates a s (.ok v) t)
      (hv : v.isTruthy = false) : Begins (.expr (.logical .or a b sp)) s (.expr b) t
  | unary {op : UnaryOp} {e : Expr} {sp : Span} {s : Session} :
      Begins (.expr (.unary op e sp)) s (.expr e) s
  | arguments {f : String} {es : List Expr} {sp : Span} {s : Session}
      (hf : s.hasFunction f = true) : Begins (.expr (.call f es sp)) s (.list es) s
  | body {f : String} {es : List Expr} {sp : Span} {s t : Session} {d : Definition}
      {vs : List Value} (hn : s.natives.get? f = none) (hf : s.functions.get? f = some d)
      (hes : EvaluatesAll es s (.ok vs) t) (hd : t.depth < 256) :
      Begins (.expr (.call f es sp)) s (.sequence .nil d.body.statements) (entered d vs t)
  | head {e : Expr} {es : List Expr} {s : Session} : Begins (.list (e :: es)) s (.expr e) s
  | tail {e : Expr} {es : List Expr} {s t : Session} {v : Value} (he : Evaluates e s (.ok v) t) :
      Begins (.list (e :: es)) s (.list es) t
  | binding {x : String} {constant : Bool} {type : Option TypeName} {e : Expr} {sp : Span}
      {s : Session} : Begins (.statement (.binding x constant type (some e) sp)) s (.expr e) s
  | expression {e : Expr} {sp : Span} {s : Session} :
      Begins (.statement (.expression e sp)) s (.expr e) s
  | then_condition {c : Expr} {yes : Block} {sp : Span} {s : Session} :
      Begins (.statement (.ifThen c yes sp)) s (.expr c) s
  | then_taken {c : Expr} {yes : Block} {sp : Span} {s t : Session} {v : Value}
      (hc : Evaluates c s (.ok v) t) (hv : v.isTruthy = true) :
      Begins (.statement (.ifThen c yes sp)) s (.sequence .nil yes.statements) t
  | else_condition {c : Expr} {yes no : Block} {sp : Span} {s : Session} :
      Begins (.statement (.ifElse c yes no sp)) s (.expr c) s
  | else_yes {c : Expr} {yes no : Block} {sp : Span} {s t : Session} {v : Value}
      (hc : Evaluates c s (.ok v) t) (hv : v.isTruthy = true) :
      Begins (.statement (.ifElse c yes no sp)) s (.sequence .nil yes.statements) t
  | else_no {c : Expr} {yes no : Block} {sp : Span} {s t : Session} {v : Value}
      (hc : Evaluates c s (.ok v) t) (hv : v.isTruthy = false) :
      Begins (.statement (.ifElse c yes no sp)) s (.sequence .nil no.statements) t
  | while_condition {c : Expr} {body : Block} {sp : Span} {s : Session} :
      Begins (.statement (.while_ c body sp)) s (.expr c) s
  | while_body {c : Expr} {body : Block} {sp : Span} {s t : Session} {v : Value}
      (hc : Evaluates c s (.ok v) t) (hv : v.isTruthy = true) :
      Begins (.statement (.while_ c body sp)) s (.sequence .nil body.statements) t
  | while_again {c : Expr} {body : Block} {sp : Span} {s t u : Session} {v w : Value}
      (hc : Evaluates c s (.ok v) t) (hv : v.isTruthy = true)
      (hbody : Sequence .nil body.statements t (.ok (.next w)) u) :
      Begins (.statement (.while_ c body sp)) s (.statement (.while_ c body sp)) u
  | return_ {e : Expr} {sp : Span} {s : Session} :
      Begins (.statement (.return_ (some e) sp)) s (.expr e) s
  | first {last : Value} {stmt : Stmt} {stmts : List Stmt} {s : Session} :
      Begins (.sequence last (stmt :: stmts)) s (.statement stmt) s
  | following {last v : Value} {stmt : Stmt} {stmts : List Stmt} {s t : Session}
      (hs : Executes stmt s (.ok (.next v)) t) :
      Begins (.sequence last (stmt :: stmts)) s (.sequence v stmts) t

/-- `Visits a s b t` says that the task `b` is begun in `t` while `a`, begun in `s`, is run. -/
inductive Visits : Task → Session → Task → Session → Prop where
  | here {a : Task} {s : Session} : Visits a s a s
  | next {a b c : Task} {s t u : Session} (h : Visits a s b t) (hbegins : Begins b t c u) :
      Visits a s c u

variable {a b : Task} {s t : Session}

theorem Task.Ends.depth_eq (h : a.Ends s t) : t.depth = s.depth := by
  cases a with
  | expr e => exact h.elim fun _ h => h.depth_eq
  | list es => exact h.elim fun _ h => h.depth_eq
  | statement stmt => exact h.elim fun _ h => h.depth_eq
  | sequence last stmts => exact h.elim fun _ h => h.depth_eq

/-- Only the body of a declared function begins deeper, by one, and never beyond the limit. -/
theorem Begins.depth_eq (h : Begins a s b t) :
    t.depth = s.depth ∨ t.depth = s.depth + 1 ∧ t.depth ≤ 256 := by
  cases h with
  | body hn hf hes hd =>
    refine .inr ⟨?_, hd⟩
    rw [entered, hes.depth_eq]
  | binary_right ha => exact .inl ha.depth_eq
  | and_right ha _ => exact .inl ha.depth_eq
  | or_right ha _ => exact .inl ha.depth_eq
  | tail he => exact .inl he.depth_eq
  | then_taken hc _ => exact .inl hc.depth_eq
  | else_yes hc _ => exact .inl hc.depth_eq
  | else_no hc _ => exact .inl hc.depth_eq
  | while_body hc _ => exact .inl hc.depth_eq
  | while_again hc _ hbody => exact .inl (hbody.depth_eq.trans hc.depth_eq)
  | following hs => exact .inl hs.depth_eq
  | _ => exact .inl rfl

theorem Begins.depth_le (h : Begins a s b t) (hs : s.depth ≤ 256) : t.depth ≤ 256 := by
  rcases h.depth_eq with heq | ⟨-, hle⟩
  · exact heq ▸ hs
  · exact hle

theorem Visits.depth_le (h : Visits a s b t) (hs : s.depth ≤ 256) : t.depth ≤ 256 := by
  induction h with
  | here => exact hs
  | next _ hbegins ih => exact hbegins.depth_le (ih hs)

end Dvilipi.Semantics
