import Dvilipi.Session.Basic
import Dvilipi.Value.Operation

/-!
The meaning of programs, one rule at a time and without reference to any way of running them.
`Evaluates e s r t` says that evaluating `e` in the session `s` ends in the session `t`, with the value
or the error `r`; the other relations say the same of lists of arguments, of statements and of
sequences of statements. What never ends stands in no relation.
-/

namespace Dvilipi.Semantics
set_option autoImplicit false

/-- The variables of a caller together with the parameters of a call, paired with the arguments in
order. -/
def bound : List String → List Value → Environment → Environment
  | x :: xs, v :: vs, scope => bound xs vs (scope.insert x v)
  | _, _, scope => scope

/-- The session in which a body runs that is called from `s`. -/
def entered (d : Definition) (values : List Value) (s : Session) : Session :=
  { s with environment := bound d.parameters values s.environment, depth := s.depth + 1 }

/-- The session after a call from `s` whose body ended in `t`. -/
def resumed (s t : Session) : Session := { t with environment := s.environment, depth := s.depth }

mutual

inductive Evaluates : Expr → Session → Except RuntimeError Value → Session → Prop where
  | number {x : Float} {sp : Span} {s : Session} : Evaluates (.number x sp) s (.ok (.number x)) s
  | string {text : String} {sp : Span} {s : Session} :
      Evaluates (.string text sp) s (.ok (.string text)) s
  | reference {x : String} {sp : Span} {s : Session} {v : Value}
      (hx : s.environment.get? x = some v) : Evaluates (.reference x sp) s (.ok v) s
  | undefined_variable {x : String} {sp : Span} {s : Session} (hx : s.environment.get? x = none) :
      Evaluates (.reference x sp) s (.error ⟨.undefinedVariable x, sp⟩) s
  | assign {x : String} {e : Expr} {sp : Span} {s t : Session} {v : Value}
      (he : Evaluates e s (.ok v) t) : Evaluates (.assign x e sp) s (.ok v) (t.define x v)
  | assign_error {x : String} {e : Expr} {sp : Span} {s t : Session} {err : RuntimeError}
      (he : Evaluates e s (.error err) t) : Evaluates (.assign x e sp) s (.error err) t
  | binary {op : BinaryOp} {a b : Expr} {sp : Span} {s t u : Session} {v w : Value}
      (ha : Evaluates a s (.ok v) t) (hb : Evaluates b t (.ok w) u) :
      Evaluates (.binary op a b sp) s (.ok (op.apply v w)) u
  | binary_left {op : BinaryOp} {a b : Expr} {sp : Span} {s t : Session} {err : RuntimeError}
      (ha : Evaluates a s (.error err) t) : Evaluates (.binary op a b sp) s (.error err) t
  | binary_right {op : BinaryOp} {a b : Expr} {sp : Span} {s t u : Session} {v : Value}
      {err : RuntimeError} (ha : Evaluates a s (.ok v) t) (hb : Evaluates b t (.error err) u) :
      Evaluates (.binary op a b sp) s (.error err) u
  | and_left {a b : Expr} {sp : Span} {s t : Session} {v : Value} (ha : Evaluates a s (.ok v) t)
      (hv : v.isTruthy = false) : Evaluates (.logical .and a b sp) s (.ok v) t
  | and_right {a b : Expr} {sp : Span} {s t u : Session} {v : Value} {r : Except RuntimeError Value}
      (ha : Evaluates a s (.ok v) t) (hv : v.isTruthy = true) (hb : Evaluates b t r u) :
      Evaluates (.logical .and a b sp) s r u
  | or_left {a b : Expr} {sp : Span} {s t : Session} {v : Value} (ha : Evaluates a s (.ok v) t)
      (hv : v.isTruthy = true) : Evaluates (.logical .or a b sp) s (.ok v) t
  | or_right {a b : Expr} {sp : Span} {s t u : Session} {v : Value} {r : Except RuntimeError Value}
      (ha : Evaluates a s (.ok v) t) (hv : v.isTruthy = false) (hb : Evaluates b t r u) :
      Evaluates (.logical .or a b sp) s r u
  | logical_error {op : LogicalOp} {a b : Expr} {sp : Span} {s t : Session} {err : RuntimeError}
      (ha : Evaluates a s (.error err) t) : Evaluates (.logical op a b sp) s (.error err) t
  | unary {op : UnaryOp} {e : Expr} {sp : Span} {s t : Session} {v : Value}
      (he : Evaluates e s (.ok v) t) : Evaluates (.unary op e sp) s (.ok (op.apply v)) t
  | unary_error {op : UnaryOp} {e : Expr} {sp : Span} {s t : Session} {err : RuntimeError}
      (he : Evaluates e s (.error err) t) : Evaluates (.unary op e sp) s (.error err) t
  | native {f : String} {es : List Expr} {sp : Span} {s t : Session} {n : Native}
      {vs : List Value} {v : Value} {sink : Sink} (hf : s.natives.get? f = some n)
      (hes : EvaluatesAll es s (.ok vs) t) (hn : n vs t.sink = (.ok v, sink)) :
      Evaluates (.call f es sp) s (.ok v) { t with sink }
  | native_error {f : String} {es : List Expr} {sp : Span} {s t : Session} {n : Native}
      {vs : List Value} {detail : String} {sink : Sink} (hf : s.natives.get? f = some n)
      (hes : EvaluatesAll es s (.ok vs) t) (hn : n vs t.sink = (.error detail, sink)) :
      Evaluates (.call f es sp) s (.error ⟨.outputFailed detail, sp⟩) { t with sink }
  | undefined_function {f : String} {es : List Expr} {sp : Span} {s : Session}
      (hn : s.natives.get? f = none) (hf : s.functions.get? f = none) :
      Evaluates (.call f es sp) s (.error ⟨.undefinedFunction f, sp⟩) s
  | arguments_error {f : String} {es : List Expr} {sp : Span} {s t : Session} {err : RuntimeError}
      (hf : s.hasFunction f = true) (hes : EvaluatesAll es s (.error err) t) :
      Evaluates (.call f es sp) s (.error err) t
  | too_deep {f : String} {es : List Expr} {sp : Span} {s t : Session} {d : Definition}
      {vs : List Value} (hn : s.natives.get? f = none) (hf : s.functions.get? f = some d)
      (hes : EvaluatesAll es s (.ok vs) t) (hd : 256 ≤ t.depth) :
      Evaluates (.call f es sp) s (.error ⟨.callDepthExceeded f 256, sp⟩) t
  | user {f : String} {es : List Expr} {sp : Span} {s t u : Session} {d : Definition}
      {vs : List Value} {flow : Flow} (hn : s.natives.get? f = none)
      (hf : s.functions.get? f = some d) (hes : EvaluatesAll es s (.ok vs) t) (hd : t.depth < 256)
      (hbody : Sequence .nil d.body.statements (entered d vs t) (.ok flow) u) :
      Evaluates (.call f es sp) s (.ok flow.value) (resumed t u)
  | user_error {f : String} {es : List Expr} {sp : Span} {s t u : Session} {d : Definition}
      {vs : List Value} {err : RuntimeError} (hn : s.natives.get? f = none)
      (hf : s.functions.get? f = some d) (hes : EvaluatesAll es s (.ok vs) t) (hd : t.depth < 256)
      (hbody : Sequence .nil d.body.statements (entered d vs t) (.error err) u) :
      Evaluates (.call f es sp) s (.error err) (resumed t u)

inductive EvaluatesAll :
    List Expr → Session → Except RuntimeError (List Value) → Session → Prop where
  | nil {s : Session} : EvaluatesAll [] s (.ok []) s
  | cons {e : Expr} {es : List Expr} {s t u : Session} {v : Value} {vs : List Value}
      (he : Evaluates e s (.ok v) t) (hes : EvaluatesAll es t (.ok vs) u) :
      EvaluatesAll (e :: es) s (.ok (v :: vs)) u
  | head_error {e : Expr} {es : List Expr} {s t : Session} {err : RuntimeError}
      (he : Evaluates e s (.error err) t) : EvaluatesAll (e :: es) s (.error err) t
  | tail_error {e : Expr} {es : List Expr} {s t u : Session} {v : Value} {err : RuntimeError}
      (he : Evaluates e s (.ok v) t) (hes : EvaluatesAll es t (.error err) u) :
      EvaluatesAll (e :: es) s (.error err) u

inductive Executes : Stmt → Session → Except RuntimeError Flow → Session → Prop where
  | function {f : String} {ps : List Parameter} {result : Option TypeName} {body : Block}
      {sp : Span} {s : Session} :
      Executes (.function f ps result body sp) s (.ok (.next .nil))
        (s.declare ⟨f, ps.map Parameter.name, body⟩)
  | binding {x : String} {constant : Bool} {type : Option TypeName} {e : Expr} {sp : Span}
      {s t : Session} {v : Value} (he : Evaluates e s (.ok v) t) :
      Executes (.binding x constant type (some e) sp) s (.ok (.next .nil)) (t.define x v)
  | binding_error {x : String} {constant : Bool} {type : Option TypeName} {e : Expr} {sp : Span}
      {s t : Session} {err : RuntimeError} (he : Evaluates e s (.error err) t) :
      Executes (.binding x constant type (some e) sp) s (.error err) t
  | binding_none {x : String} {constant : Bool} {type : Option TypeName} {sp : Span}
      {s : Session} : Executes (.binding x constant type none sp) s (.ok (.next .nil)) s
  | expression {e : Expr} {sp : Span} {s t : Session} {v : Value} (he : Evaluates e s (.ok v) t) :
      Executes (.expression e sp) s (.ok (.next v)) t
  | expression_error {e : Expr} {sp : Span} {s t : Session} {err : RuntimeError}
      (he : Evaluates e s (.error err) t) : Executes (.expression e sp) s (.error err) t
  | then_taken {c : Expr} {yes : Block} {sp : Span} {s t u : Session} {v : Value}
      {r : Except RuntimeError Flow} (hc : Evaluates c s (.ok v) t) (hv : v.isTruthy = true)
      (hyes : Sequence .nil yes.statements t r u) : Executes (.ifThen c yes sp) s r u
  | then_skipped {c : Expr} {yes : Block} {sp : Span} {s t : Session} {v : Value}
      (hc : Evaluates c s (.ok v) t) (hv : v.isTruthy = false) :
      Executes (.ifThen c yes sp) s (.ok (.next .nil)) t
  | then_error {c : Expr} {yes : Block} {sp : Span} {s t : Session} {err : RuntimeError}
      (hc : Evaluates c s (.error err) t) : Executes (.ifThen c yes sp) s (.error err) t
  | else_yes {c : Expr} {yes no : Block} {sp : Span} {s t u : Session} {v : Value}
      {r : Except RuntimeError Flow} (hc : Evaluates c s (.ok v) t) (hv : v.isTruthy = true)
      (hyes : Sequence .nil yes.statements t r u) : Executes (.ifElse c yes no sp) s r u
  | else_no {c : Expr} {yes no : Block} {sp : Span} {s t u : Session} {v : Value}
      {r : Except RuntimeError Flow} (hc : Evaluates c s (.ok v) t) (hv : v.isTruthy = false)
      (hno : Sequence .nil no.statements t r u) : Executes (.ifElse c yes no sp) s r u
  | else_error {c : Expr} {yes no : Block} {sp : Span} {s t : Session} {err : RuntimeError}
      (hc : Evaluates c s (.error err) t) : Executes (.ifElse c yes no sp) s (.error err) t
  | while_done {c : Expr} {body : Block} {sp : Span} {s t : Session} {v : Value}
      (hc : Evaluates c s (.ok v) t) (hv : v.isTruthy = false) :
      Executes (.while_ c body sp) s (.ok (.next .nil)) t
  | while_again {c : Expr} {body : Block} {sp : Span} {s t u x : Session} {v w : Value}
      {r : Except RuntimeError Flow} (hc : Evaluates c s (.ok v) t) (hv : v.isTruthy = true)
      (hbody : Sequence .nil body.statements t (.ok (.next w)) u)
      (hagain : Executes (.while_ c body sp) u r x) : Executes (.while_ c body sp) s r x
  | while_leaving {c : Expr} {body : Block} {sp : Span} {s t u : Session} {v w : Value}
      (hc : Evaluates c s (.ok v) t) (hv : v.isTruthy = true)
      (hbody : Sequence .nil body.statements t (.ok (.leaving w)) u) :
      Executes (.while_ c body sp) s (.ok (.leaving w)) u
  | while_error {c : Expr} {body : Block} {sp : Span} {s t : Session} {err : RuntimeError}
      (hc : Evaluates c s (.error err) t) : Executes (.while_ c body sp) s (.error err) t
  | while_body_error {c : Expr} {body : Block} {sp : Span} {s t u : Session} {v : Value}
      {err : RuntimeError} (hc : Evaluates c s (.ok v) t) (hv : v.isTruthy = true)
      (hbody : Sequence .nil body.statements t (.error err) u) :
      Executes (.while_ c body sp) s (.error err) u
  | return_ {e : Expr} {sp : Span} {s t : Session} {v : Value} (he : Evaluates e s (.ok v) t) :
      Executes (.return_ (some e) sp) s (.ok (.leaving v)) t
  | return_error {e : Expr} {sp : Span} {s t : Session} {err : RuntimeError}
      (he : Evaluates e s (.error err) t) : Executes (.return_ (some e) sp) s (.error err) t
  | return_none {sp : Span} {s : Session} :
      Executes (.return_ none sp) s (.ok (.leaving .nil)) s

/-- `last` is the value of the statement before the sequence. -/
inductive Sequence : Value → List Stmt → Session → Except RuntimeError Flow → Session → Prop where
  | nil {last : Value} {s : Session} : Sequence last [] s (.ok (.next last)) s
  | cons {last v : Value} {stmt : Stmt} {stmts : List Stmt} {s t u : Session}
      {r : Except RuntimeError Flow} (hs : Executes stmt s (.ok (.next v)) t)
      (hss : Sequence v stmts t r u) : Sequence last (stmt :: stmts) s r u
  | leaving {last v : Value} {stmt : Stmt} {stmts : List Stmt} {s t : Session}
      (hs : Executes stmt s (.ok (.leaving v)) t) :
      Sequence last (stmt :: stmts) s (.ok (.leaving v)) t
  | error {last : Value} {stmt : Stmt} {stmts : List Stmt} {s t : Session} {err : RuntimeError}
      (hs : Executes stmt s (.error err) t) : Sequence last (stmt :: stmts) s (.error err) t

end

/-- A program ends with the value of its last statement, or of a `return` outside of functions. -/
inductive Runs : Program → Session → Except RuntimeError Value → Session → Prop where
  | value {p : Program} {s t : Session} {flow : Flow}
      (h : Sequence .nil p.statements s (.ok flow) t) : Runs p s (.ok flow.value) t
  | error {p : Program} {s t : Session} {err : RuntimeError}
      (h : Sequence .nil p.statements s (.error err) t) : Runs p s (.error err) t

mutual

theorem Evaluates.depth_eq {e : Expr} {s t : Session} {r : Except RuntimeError Value}
    (h : Evaluates e s r t) : t.depth = s.depth := by
  match h with
  | .number => rfl
  | .string => rfl
  | .reference _ => rfl
  | .undefined_variable _ => rfl
  | .assign he => exact he.depth_eq
  | .assign_error he => exact he.depth_eq
  | .binary ha hb => exact hb.depth_eq.trans ha.depth_eq
  | .binary_left ha => exact ha.depth_eq
  | .binary_right ha hb => exact hb.depth_eq.trans ha.depth_eq
  | .and_left ha _ => exact ha.depth_eq
  | .and_right ha _ hb => exact hb.depth_eq.trans ha.depth_eq
  | .or_left ha _ => exact ha.depth_eq
  | .or_right ha _ hb => exact hb.depth_eq.trans ha.depth_eq
  | .logical_error ha => exact ha.depth_eq
  | .unary he => exact he.depth_eq
  | .unary_error he => exact he.depth_eq
  | .native _ hes _ => exact hes.depth_eq
  | .native_error _ hes _ => exact hes.depth_eq
  | .undefined_function _ _ => rfl
  | .arguments_error _ hes => exact hes.depth_eq
  | .too_deep _ _ hes _ => exact hes.depth_eq
  | .user _ _ hes _ _ => exact hes.depth_eq
  | .user_error _ _ hes _ _ => exact hes.depth_eq
termination_by structural h

theorem EvaluatesAll.depth_eq {es : List Expr} {s t : Session}
    {r : Except RuntimeError (List Value)} (h : EvaluatesAll es s r t) : t.depth = s.depth := by
  match h with
  | .nil => rfl
  | .cons he hes => exact hes.depth_eq.trans he.depth_eq
  | .head_error he => exact he.depth_eq
  | .tail_error he hes => exact hes.depth_eq.trans he.depth_eq
termination_by structural h

end

mutual

theorem Executes.depth_eq {stmt : Stmt} {s t : Session} {r : Except RuntimeError Flow}
    (h : Executes stmt s r t) : t.depth = s.depth := by
  match h with
  | .function => rfl
  | .binding he => exact he.depth_eq
  | .binding_error he => exact he.depth_eq
  | .binding_none => rfl
  | .expression he => exact he.depth_eq
  | .expression_error he => exact he.depth_eq
  | .then_taken hc _ hyes => exact hyes.depth_eq.trans hc.depth_eq
  | .then_skipped hc _ => exact hc.depth_eq
  | .then_error hc => exact hc.depth_eq
  | .else_yes hc _ hyes => exact hyes.depth_eq.trans hc.depth_eq
  | .else_no hc _ hno => exact hno.depth_eq.trans hc.depth_eq
  | .else_error hc => exact hc.depth_eq
  | .while_done hc _ => exact hc.depth_eq
  | .while_again hc _ hbody hagain =>
    exact hagain.depth_eq.trans (hbody.depth_eq.trans hc.depth_eq)
  | .while_leaving hc _ hbody => exact hbody.depth_eq.trans hc.depth_eq
  | .while_error hc => exact hc.depth_eq
  | .while_body_error hc _ hbody => exact hbody.depth_eq.trans hc.depth_eq
  | .return_ he => exact he.depth_eq
  | .return_error he => exact he.depth_eq
  | .return_none => rfl
termination_by structural h

theorem Sequence.depth_eq {last : Value} {stmts : List Stmt} {s t : Session}
    {r : Except RuntimeError Flow} (h : Sequence last stmts s r t) : t.depth = s.depth := by
  match h with
  | .nil => rfl
  | .cons hs hss => exact hss.depth_eq.trans hs.depth_eq
  | .leaving hs => exact hs.depth_eq
  | .error hs => exact hs.depth_eq
termination_by structural h

end

end Dvilipi.Semantics
