import Dvilipi.Proofs.Semantics.Visits
import Dvilipi.Proofs.Semantics.Unique

/-!
A task begins nothing but what its rule runs. Its first part ends in one way only, so all that it
begins after that is begun in one and the same session.
-/

namespace Dvilipi.Semantics.Begins
set_option autoImplicit false

variable {c : Task} {s t u : Session} {sp : Span}

section Expressions

variable {a b e : Expr} {es : List Expr} {f x : String} {r : Except RuntimeError Value}

theorem of_assign (h : Begins (.expr (.assign x e sp)) s c u) : (c, u) = (.expr e, s) := by
  cases h
  rfl

theorem of_binary {op : BinaryOp} (ha : Evaluates a s r t)
    (h : Begins (.expr (.binary op a b sp)) s c u) :
    (c, u) = (.expr a, s) ∨ (∃ v, r = .ok v) ∧ (c, u) = (.expr b, t) := by
  cases h with
  | binary_left => exact .inl rfl
  | binary_right ha' =>
    obtain ⟨rfl, rfl⟩ := ha.unique ha'
    exact .inr ⟨⟨_, rfl⟩, rfl⟩

theorem of_logical {op : LogicalOp} (ha : Evaluates a s r t)
    (h : Begins (.expr (.logical op a b sp)) s c u) :
    (c, u) = (.expr a, s) ∨ (∃ v, r = .ok v ∧ op.decides v = false) ∧ (c, u) = (.expr b, t) := by
  cases h with
  | logical_left => exact .inl rfl
  | and_right ha' hv =>
    obtain ⟨rfl, rfl⟩ := ha.unique ha'
    exact .inr ⟨⟨_, rfl, by simp [LogicalOp.decides, hv]⟩, rfl⟩
  | or_right ha' hv =>
    obtain ⟨rfl, rfl⟩ := ha.unique ha'
    exact .inr ⟨⟨_, rfl, hv⟩, rfl⟩

theorem of_unary {op : UnaryOp} (h : Begins (.expr (.unary op e sp)) s c u) :
    (c, u) = (.expr e, s) := by
  cases h
  rfl

theorem hasFunction (h : Begins (.expr (.call f es sp)) s c u) : s.hasFunction f = true := by
  cases h with
  | arguments hf => exact hf
  | body _ hf => exact hasFunction_user hf

theorem of_call {r : Except RuntimeError (List Value)} (hes : EvaluatesAll es s r t)
    (h : Begins (.expr (.call f es sp)) s c u) :
    (c, u) = (.list es, s) ∨
      ∃ d vs, s.natives.get? f = none ∧ s.functions.get? f = some d ∧ r = .ok vs ∧ t.depth < 256 ∧
        (c, u) = (.sequence .nil d.body.statements, entered d vs t) := by
  cases h with
  | arguments => exact .inl rfl
  | body hn hf hes' hd =>
    obtain ⟨rfl, rfl⟩ := hes.unique hes'
    exact .inr ⟨_, _, hn, hf, rfl, hd, rfl⟩

theorem of_cons (he : Evaluates e s r t) (h : Begins (.list (e :: es)) s c u) :
    (c, u) = (.expr e, s) ∨ (∃ v, r = .ok v) ∧ (c, u) = (.list es, t) := by
  cases h with
  | head => exact .inl rfl
  | tail he' =>
    obtain ⟨rfl, rfl⟩ := he.unique he'
    exact .inr ⟨⟨_, rfl⟩, rfl⟩

end Expressions

section Statements

variable {e p : Expr} {yes no body : Block} {stmt : Stmt} {stmts : List Stmt}

theorem of_binding {x : String} {constant : Bool} {type : Option TypeName}
    (h : Begins (.statement (.binding x constant type (some e) sp)) s c u) :
    (c, u) = (.expr e, s) := by
  cases h
  rfl

theorem of_expression (h : Begins (.statement (.expression e sp)) s c u) :
    (c, u) = (.expr e, s) := by
  cases h
  rfl

theorem of_return (h : Begins (.statement (.return_ (some e) sp)) s c u) :
    (c, u) = (.expr e, s) := by
  cases h
  rfl

theorem of_ifThen {r : Except RuntimeError Value} (hp : Evaluates p s r t)
    (h : Begins (.statement (.ifThen p yes sp)) s c u) :
    (c, u) = (.expr p, s) ∨
      (∃ v, r = .ok v ∧ v.isTruthy = true) ∧ (c, u) = (.sequence .nil yes.statements, t) := by
  cases h with
  | then_condition => exact .inl rfl
  | then_taken hp' hv =>
    obtain ⟨rfl, rfl⟩ := hp.unique hp'
    exact .inr ⟨⟨_, rfl, hv⟩, rfl⟩

theorem of_ifElse {r : Except RuntimeError Value} (hp : Evaluates p s r t)
    (h : Begins (.statement (.ifElse p yes no sp)) s c u) :
    (c, u) = (.expr p, s) ∨ ∃ v, r = .ok v ∧
      (c, u) = (.sequence .nil (if v.isTruthy then yes else no).statements, t) := by
  cases h with
  | else_condition => exact .inl rfl
  | else_yes hp' hv =>
    obtain ⟨rfl, rfl⟩ := hp.unique hp'
    exact .inr ⟨_, rfl, by simp [hv]⟩
  | else_no hp' hv =>
    obtain ⟨rfl, rfl⟩ := hp.unique hp'
    exact .inr ⟨_, rfl, by simp [hv]⟩

theorem of_while {r : Except RuntimeError Value} (hp : Evaluates p s r t)
    (h : Begins (.statement (.while_ p body sp)) s c u) :
    (c, u) = (.expr p, s) ∨ (∃ v, r = .ok v ∧ v.isTruthy = true) ∧
      ((c, u) = (.sequence .nil body.statements, t) ∨
        (∃ w, Sequence .nil body.statements t (.ok (.next w)) u) ∧
          c = .statement (.while_ p body sp)) := by
  cases h with
  | while_condition => exact .inl rfl
  | while_body hp' hv =>
    obtain ⟨rfl, rfl⟩ := hp.unique hp'
    exact .inr ⟨⟨_, rfl, hv⟩, .inl rfl⟩
  | while_again hp' hv hbody =>
    obtain ⟨rfl, rfl⟩ := hp.unique hp'
    exact .inr ⟨⟨_, rfl, hv⟩, .inr ⟨⟨_, hbody⟩, rfl⟩⟩

theorem of_while_body {v : Value} {x : Session} {r : Except RuntimeError Flow}
    (hp : Evaluates p s (.ok v) t) (hbody : Sequence .nil body.statements t r x)
    (h : Begins (.statement (.while_ p body sp)) s c u) :
    (c, u) = (.expr p, s) ∨ (c, u) = (.sequence .nil body.statements, t) ∨
      (∃ w, r = .ok (.next w)) ∧ (c, u) = (.statement (.while_ p body sp), x) := by
  rcases h.of_while hp with hcondition | ⟨-, hround | ⟨⟨w, hbody'⟩, rfl⟩⟩
  · exact .inl hcondition
  · exact .inr (.inl hround)
  · obtain ⟨rfl, rfl⟩ := hbody.unique hbody'
    exact .inr (.inr ⟨⟨w, rfl⟩, rfl⟩)

theorem of_sequence {last : Value} {r : Except RuntimeError Flow} (hs : Executes stmt s r t)
    (h : Begins (.sequence last (stmt :: stmts)) s c u) :
    (c, u) = (.statement stmt, s) ∨ ∃ v, r = .ok (.next v) ∧ (c, u) = (.sequence v stmts, t) := by
  cases h with
  | first => exact .inl rfl
  | following hs' =>
    obtain ⟨rfl, rfl⟩ := hs.unique hs'
    exact .inr ⟨_, rfl, rfl⟩

end Statements

end Dvilipi.Semantics.Begins
