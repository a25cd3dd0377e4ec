import Dvilipi.Proofs.Semantics.Rules
import Dvilipi.Session.Program

/-!
Running gives nothing but what the rules derive. The bodies of declared functions come first: what is
run inside of them is one call deeper, so the proof follows the nesting of calls, then the syntax, and
within a loop the number of its rounds.
-/

namespace Dvilipi
set_option autoImplicit false

/-- The reply with which an action ends. -/
def Reply.ending {ε σ α : Type} : Except ε α → σ → Reply ε σ α
  | .ok a, s => .ok a s
  | .error e, s => .failed e s

section

variable {ε σ α β : Type} {p : Action ε σ α} {f : α → Action ε σ β}

theorem Reply.ok_ending {a : α} {s t : σ} {r : Except ε α} (h : .ok a s = ending r t) :
    r = .ok a ∧ t = s := by
  cases r <;> cases h
  exact ⟨rfl, rfl⟩

theorem Reply.failed_ending {e : ε} {s t : σ} {r : Except ε α} (h : .failed e s = ending r t) :
    r = .error e ∧ t = s := by
  cases r <;> cases h
  exact ⟨rfl, rfl⟩

/-- A sequence of two actions ends as the first does if this is an error, and else as the second. -/
theorem Action.bind_ending {s t : σ} {r : Except ε β} (h : (p >>= f) s = .ending r t) :
    (∃ a u, p s = .ending (.ok a) u ∧ f a u = .ending r t) ∨
      ∃ e, r = .error e ∧ p s = .ending (.error e) t := by
  rw [Action.bind_apply] at h
  cases hp : p s with
  | ok a u =>
    rw [hp] at h
    exact .inl ⟨a, u, rfl, h⟩
  | failed e u =>
    rw [hp] at h
    obtain ⟨rfl, rfl⟩ := Reply.failed_ending h
    exact .inr ⟨e, rfl, rfl⟩
  | exhausted =>
    rw [hp] at h
    cases r <;> cases h

end

namespace Semantics

/-- `enter` runs bodies of functions as the rules have it. -/
def Sound (enter : Block → Run Flow) : Prop :=
  ∀ {body : Block} {s t : Session} {r : Except RuntimeError Flow},
    enter body s = .ending r t → Sequence .nil body.statements s r t

theorem bound_eq_insertAll (xs : List String) (vs : List Value) (scope : Environment) :
    bound xs vs scope = scope.insertAll (xs.zip vs) := by
  induction xs generalizing vs scope with
  | nil => rfl
  | cons x xs ih =>
    cases vs with
    | nil => rfl
    | cons v vs => exact ih vs (scope.insert x v)

theorem entered_eq_calleeState (d : Definition) (vs : List Value) (s : Session) :
    entered d vs s = Run.calleeState d vs s := by
  rw [entered, bound_eq_insertAll, Run.calleeState]

theorem resumed_eq_callerState {d : Definition} {vs : List Value} {s t : Session}
    (h : t.depth = (entered d vs s).depth) : resumed s t = Run.callerState s t := by
  have hd : t.depth = s.depth + 1 := h
  rw [resumed, Run.callerState, hd, Nat.add_sub_cancel]

variable {enter : Block → Run Flow}

section Resolving

variable {f : String} {es : List Expr} {sp : Span} {s : Session}

theorem hasFunction_native {n : Native} (hn : s.natives.get? f = some n) :
    s.hasFunction f = true := by
  simp [Session.hasFunction, Table.contains, hn]

theorem hasFunction_user {d : Definition} (hf : s.functions.get? f = some d) :
    s.hasFunction f = true := by
  simp [Session.hasFunction, Table.contains, hf]

theorem eval_call_native {n : Native} (hn : s.natives.get? f = some n) :
    (Expr.call f es sp).eval enter s =
      (Expr.evalList enter es >>= fun vs => Run.callNative n vs sp) s := by
  have hr : s.resolve f = some (.native n) := by rw [Session.resolve, hn]
  rw [Expr.eval, Action.bind_apply, Action.get]
  dsimp only
  rw [hr]

theorem eval_call_user {d : Definition} (hn : s.natives.get? f = none)
    (hf : s.functions.get? f = some d) :
    (Expr.call f es sp).eval enter s =
      (Expr.evalList enter es >>= fun vs => Run.callUser enter f d vs sp) s := by
  have hr : s.resolve f = some (.user d) := by rw [Session.resolve, hn, hf]; rfl
  rw [Expr.eval, Action.bind_apply, Action.get]
  dsimp only
  rw [hr]

theorem eval_call_undefined (hn : s.natives.get? f = none) (hf : s.functions.get? f = none) :
    (Expr.call f es sp).eval enter s = .failed ⟨.undefinedFunction f, sp⟩ s := by
  have hr : s.resolve f = none := by rw [Session.resolve, hn, hf]; rfl
  rw [Expr.eval, Action.bind_apply, Action.get]
  dsimp only
  rw [hr]
  rfl

end Resolving

theorem evaluates_native {f : String} {es : List Expr} {sp : Span} {s t u : Session} {n : Native}
    {vs : List Value} {r : Except RuntimeError Value} (hf : s.natives.get? f = some n)
    (hes : EvaluatesAll es s (.ok vs) t) (h : Run.callNative n vs sp t = .ending r u) :
    Evaluates (.call f es sp) s r u := by
  unfold Run.callNative at h
  split at h
  · next v sink hn =>
    obtain ⟨rfl, rfl⟩ := Reply.ok_ending h
    exact .native hf hes hn
  · next detail sink hn =>
    obtain ⟨rfl, rfl⟩ := Reply.failed_ending h
    exact .native_error hf hes hn

theorem evaluates_user (henter : Sound enter) {f : String} {es : List Expr} {sp : Span}
    {s t u : Session} {d : Definition} {vs : List Value} {r : Except RuntimeError Value}
    (hn : s.natives.get? f = none) (hf : s.functions.get? f = some d)
    (hes : EvaluatesAll es s (.ok vs) t) (h : Run.callUser enter f d vs sp t = .ending r u) :
    Evaluates (.call f es sp) s r u := by
  unfold Run.callUser at h
  split at h
  · next hd =>
    obtain ⟨rfl, rfl⟩ := Reply.failed_ending h
    exact .too_deep hn hf hes hd
  · next hd =>
    have hlt : t.depth < 256 := Nat.lt_of_not_le hd
    rw [← entered_eq_calleeState] at h
    split at h
    · next flow x hbody =>
      have hseq := henter (r := .ok flow) hbody
      obtain ⟨rfl, rfl⟩ := Reply.ok_ending h
      rw [← resumed_eq_callerState hseq.depth_eq]
      exact .user hn hf hes hlt hseq
    · next err x hbody =>
      have hseq := henter (r := .error err) hbody
      obtain ⟨rfl, rfl⟩ := Reply.failed_ending h
      rw [← resumed_eq_callerState hseq.depth_eq]
      exact .user_error hn hf hes hlt hseq
    · cases r <;> cases h

theorem evaluates_logical {op : LogicalOp} {a b : Expr} {sp : Span} {s t u : Session} {v : Value}
    {r : Except RuntimeError Value} (ha : Evaluates a s (.ok v) t)
    (hleft : op.decides v = true → r = .ok v ∧ u = t)
    (hright : op.decides v = false → Evaluates b t r u) :
    Evaluates (.logical op a b sp) s r u := by
  cases hv : v.isTruthy with
  | false =>
    cases op with
    | and =>
      obtain ⟨rfl, rfl⟩ := hleft (by simp [LogicalOp.decides, hv])
      exact .and_left ha hv
    | or => exact .or_right ha hv (hright hv)
  | true =>
    cases op with
    | and => exact .and_right ha hv (hright (by simp [LogicalOp.decides, hv]))
    | or =>
      obtain ⟨rfl, rfl⟩ := hleft hv
      exact .or_left ha hv

/-- Where both operands have values, the deciding one is the value of the whole. -/
theorem evaluates_logical_apply {op : LogicalOp} {a b : Expr} {sp : Span} {s t u : Session}
    {v w : Value} (ha : Evaluates a s (.ok v) t) (hb : Evaluates b t (.ok w) u) :
    Evaluates (.logical op a b sp) s (.ok (op.apply v w)) (if op.decides v then t else u) := by
  refine evaluates_logical ha (fun hd => ?_) fun hd => ?_
  · simp [LogicalOp.apply, hd]
  · simpa [LogicalOp.apply, hd] using hb

mutual

theorem evaluates_of_eval (henter : Sound enter) (e : Expr) {s t : Session}
    {r : Except RuntimeError Value} (h : e.eval enter s = .ending r t) : Evaluates e s r t := by
  cases e with
  | number x sp =>
    obtain ⟨rfl, rfl⟩ := Reply.ok_ending h
    exact .number
  | string text sp =>
    obtain ⟨rfl, rfl⟩ := Reply.ok_ending h
    exact .string
  | reference x sp =>
    simp only [Expr.eval, Run.lookup] at h
    cases hx : s.environment.get? x with
    | some v =>
      rw [hx] at h
      obtain ⟨rfl, rfl⟩ := Reply.ok_ending h
      exact .reference hx
    | none =>
      rw [hx] at h
      obtain ⟨rfl, rfl⟩ := Reply.failed_ending h
      exact .undefined_variable hx
  | assign x e sp =>
    rcases Action.bind_ending h with ⟨v, u, hv, h⟩ | ⟨err, rfl, herr⟩
    · obtain ⟨rfl, rfl⟩ := Reply.ok_ending h
      exact .assign (evaluates_of_eval henter e hv)
    · exact .assign_error (evaluates_of_eval henter e herr)
  | binary op a b sp =>
    rcases Action.bind_ending h with ⟨v, u, hv, h⟩ | ⟨err, rfl, herr⟩
    · have ha := evaluates_of_eval henter a hv
      rcases Action.bind_ending h with ⟨w, x, hw, h⟩ | ⟨err, rfl, herr⟩
      · obtain ⟨rfl, rfl⟩ := Reply.ok_ending h
        exact .binary ha (evaluates_of_eval henter b hw)
      · exact .binary_right ha (evaluates_of_eval henter b herr)
    · exact .binary_left (evaluates_of_eval henter a herr)
  | logical op a b sp =>
    rcases Action.bind_ending h with ⟨v, u, hv, h⟩ | ⟨err, rfl, herr⟩
    · refine evaluates_logical (evaluates_of_eval henter a hv) ?_ ?_
      · intro hd
        rw [if_pos hd] at h
        obtain ⟨rfl, rfl⟩ := Reply.ok_ending h
        exact ⟨rfl, rfl⟩
      · intro hd
        rw [hd] at h
        exact evaluates_of_eval henter b h
    · exact .logical_error (evaluates_of_eval henter a herr)
  | unary op e sp =>
    rcases Action.bind_ending h with ⟨v, u, hv, h⟩ | ⟨err, rfl, herr⟩
    · obtain ⟨rfl, rfl⟩ := Reply.ok_ending h
      exact .unary (evaluates_of_eval henter e hv)
    · exact .unary_error (evaluates_of_eval henter e herr)
  | call f es sp =>
    cases hn : s.natives.get? f with
    | some n =>
      rw [eval_call_native hn] at h
      rcases Action.bind_ending h with ⟨vs, u, hvs, h⟩ | ⟨err, rfl, herr⟩
      · exact evaluates_native hn (evaluatesAll_of_evalList henter es hvs) h
      · exact .arguments_error (hasFunction_native hn) (evaluatesAll_of_evalList henter es herr)
    | none =>
      cases hf : s.functions.get? f with
      | some d =>
        rw [eval_call_user hn hf] at h
        rcases Action.bind_ending h with ⟨vs, u, hvs, h⟩ | ⟨err, rfl, herr⟩
        · exact evaluates_user henter hn hf (evaluatesAll_of_evalList henter es hvs) h
        · exact .arguments_error (hasFunction_user hf) (evaluatesAll_of_evalList henter es herr)
      | none =>
        rw [eval_call_undefined hn hf] at h
        obtain ⟨rfl, rfl⟩ := Reply.failed_ending h
        exact .undefined_function hn hf
termination_by structural e

theorem evaluatesAll_of_evalList (henter : Sound enter) (es : List Expr) {s t : Session}
    {r : Except RuntimeError (List Value)} (h : Expr.evalList enter es s = .ending r t) :
    EvaluatesAll es s r t := by
  cases es with
  | nil =>
    obtain ⟨rfl, rfl⟩ := Reply.ok_ending h
    exact .nil
  | cons e es =>
    rcases Action.bind_ending h with ⟨v, u, hv, h⟩ | ⟨err, rfl, herr⟩
    · have he := evaluates_of_eval henter e hv
      rcases Action.bind_ending h with ⟨vs, x, hvs, h⟩ | ⟨err, rfl, herr⟩
      · obtain ⟨rfl, rfl⟩ := Reply.ok_ending h
        exact .cons he (evaluatesAll_of_evalList henter es hvs)
      · exact .tail_error he (evaluatesAll_of_evalList henter es herr)
    · exact .head_error (evaluates_of_eval henter e herr)
termination_by structural es

end

/-- The condition of a loop, as it is run before each round. -/
def test (enter : Block → Run Flow) (c : Expr) : Run Bool := do
  let v ← c.eval enter
  return v.isTruthy

/-- By the rules for loops it does not matter how often the body may still be repeated. -/
theorem executes_of_iterate (henter : Sound enter) {c : Expr} {body : Block} {sp : Span}
    {run : Run Flow} (hrun : ∀ {s t : Session} {r : Except RuntimeError Flow},
      run s = .ending r t → Sequence .nil body.statements s r t) (n : Nat) {s t : Session}
    {r : Except RuntimeError Flow} (h : Run.iterate (test enter c) run n s = .ending r t) :
    Executes (.while_ c body sp) s r t := by
  induction n generalizing s with
  | zero => cases r <;> cases h
  | succ n ih =>
    rw [Run.iterate] at h
    split at h
    · next u htest =>
      obtain ⟨v, w, hv, hpure⟩ := Action.bind_eq_ok.mp htest
      obtain ⟨hv', rfl⟩ := Reply.ok_ending (r := .ok true) hpure
      have hc := evaluates_of_eval henter c (r := .ok v) hv
      have htrue : v.isTruthy = true := (Except.ok.inj hv').symm
      split at h
      · next w x hbody => exact .while_again hc htrue (hrun (r := .ok (.next w)) hbody) (ih h)
      · next w x hbody =>
        obtain ⟨rfl, rfl⟩ := Reply.ok_ending h
        exact .while_leaving hc htrue (hrun (r := .ok (.leaving w)) hbody)
      · next err x hbody =>
        obtain ⟨rfl, rfl⟩ := Reply.failed_ending h
        exact .while_body_error hc htrue (hrun (r := .error err) hbody)
      · cases r <;> cases h
    · next u htest =>
      obtain ⟨v, w, hv, hpure⟩ := Action.bind_eq_ok.mp htest
      obtain ⟨hv', rfl⟩ := Reply.ok_ending (r := .ok false) hpure
      obtain ⟨rfl, rfl⟩ := Reply.ok_ending h
      exact .while_done (evaluates_of_eval henter c (r := .ok v) hv) (Except.ok.inj hv').symm
    · next err u htest =>
      obtain ⟨rfl, rfl⟩ := Reply.failed_ending h
      rcases Action.bind_eq_failed.mp htest with herr | ⟨_, _, _, hpure⟩
      · exact .while_error (evaluates_of_eval henter c (r := .error err) herr)
      · cases hpure
    · cases r <;> cases h

variable {rounds : Nat}

mutual

theorem executes_of_exec (henter : Sound enter) (stmt : Stmt) {s t : Session}
    {r : Except RuntimeError Flow} (h : stmt.exec enter rounds s = .ending r t) :
    Executes stmt s r t := by
  cases stmt with
  | function f ps result body sp =>
    obtain ⟨rfl, rfl⟩ := Reply.ok_ending h
    exact .function
  | binding x constant type initial sp =>
    cases initial with
    | none =>
      obtain ⟨rfl, rfl⟩ := Reply.ok_ending h
      exact .binding_none
    | some e =>
      rcases Action.bind_ending h with ⟨v, u, hv, h⟩ | ⟨err, rfl, herr⟩
      · obtain ⟨rfl, rfl⟩ := Reply.ok_ending h
        exact .binding (evaluates_of_eval henter e hv)
      · exact .binding_error (evaluates_of_eval henter e herr)
  | expression e sp =>
    rcases Action.bind_ending h with ⟨v, u, hv, h⟩ | ⟨err, rfl, herr⟩
    · obtain ⟨rfl, rfl⟩ := Reply.ok_ending h
      exact .expression (evaluates_of_eval henter e hv)
    · exact .expression_error (evaluates_of_eval henter e herr)
  | ifThen c yes sp =>
    rcases Action.bind_ending h with ⟨v, u, hv, h⟩ | ⟨err, rfl, herr⟩
    · have hc := evaluates_of_eval henter c hv
      split at h
      · next htrue => exact .then_taken hc htrue (sequence_of_exec henter yes h)
      · next hfalse =>
        obtain ⟨rfl, rfl⟩ := Reply.ok_ending h
        exact .then_skipped hc (eq_false_of_ne_true hfalse)
    · exact .then_error (evaluates_of_eval henter c herr)
  | ifElse c yes no sp =>
    rcases Action.bind_ending h with ⟨v, u, hv, h⟩ | ⟨err, rfl, herr⟩
    · have hc := evaluates_of_eval henter c hv
      split at h
      · next htrue => exact .else_yes hc htrue (sequence_of_exec henter yes h)
      · next hfalse =>
        exact .else_no hc (eq_false_of_ne_true hfalse) (sequence_of_exec henter no h)
    · exact .else_error (evaluates_of_eval henter c herr)
  | while_ c body sp =>
    exact executes_of_iterate henter (fun hbody => sequence_of_exec henter body hbody) rounds h
  | return_ value sp =>
    cases value with
    | none =>
      obtain ⟨rfl, rfl⟩ := Reply.ok_ending h
      exact .return_none
    | some e =>
      rcases Action.bind_ending h with ⟨v, u, hv, h⟩ | ⟨err, rfl, herr⟩
      · obtain ⟨rfl, rfl⟩ := Reply.ok_ending h
        exact .return_ (evaluates_of_eval henter e hv)
      · exact .return_error (evaluates_of_eval henter e herr)
termination_by structural stmt

theorem sequence_of_exec (henter : Sound enter) (body : Block) {s t : Session}
    {r : Except RuntimeError Flow} (h : body.exec enter rounds s = .ending r t) :
    Sequence .nil body.statements s r t := by
  cases body with
  | mk stmts sp => exact sequence_of_execFrom henter stmts h
termination_by structural body

theorem sequence_of_execFrom (henter : Sound enter) (stmts : List Stmt) {last : Value}
    {s t : Session} {r : Except RuntimeError Flow}
    (h : Stmt.execFrom enter rounds last stmts s = .ending r t) : Sequence last stmts s r t := by
  cases stmts with
  | nil =>
    obtain ⟨rfl, rfl⟩ := Reply.ok_ending h
    exact .nil
  | cons stmt stmts =>
    rcases Action.bind_ending h with ⟨flow, u, hflow, h⟩ | ⟨err, rfl, herr⟩
    · have hs := executes_of_exec henter stmt hflow
      cases flow with
      | next v => exact .cons hs (sequence_of_execFrom henter stmts h)
      | leaving v =>
        obtain ⟨rfl, rfl⟩ := Reply.ok_ending h
        exact .leaving hs
    · exact .error (executes_of_exec henter stmt herr)
termination_by structural stmts

end

theorem sound_enter (rounds calls : Nat) : Sound (Block.enter rounds calls) := by
  induction calls with
  | zero =>
    intro body s t r h
    cases r <;> cases h
  | succ calls ih => exact fun h => sequence_of_exec ih _ h

theorem runs_of_interpret {p : Program} {s t : Session} {r : Except RuntimeError Value}
    (h : Session.interpret rounds p s = .ending r t) : Runs p s r t := by
  rcases Action.bind_ending h with ⟨flow, u, hflow, h⟩ | ⟨err, rfl, herr⟩
  · obtain ⟨rfl, rfl⟩ := Reply.ok_ending h
    exact .value (sequence_of_execFrom (sound_enter rounds _) p.statements hflow)
  · exact .error (sequence_of_execFrom (sound_enter rounds _) p.statements herr)

end Semantics
end Dvilipi
