import Dvilipi.Proofs.Semantics.Sound

/-!
Whatever the rules derive, running finds it, if it may repeat loops often enough. How often is enough
depends on the derivation; how deep calls may be nested is settled by the limit of the session.
-/

namespace Dvilipi
set_option autoImplicit false

namespace Action

variable {ε σ α β : Type} {p : Action ε σ α} {s t : σ}

theorem bind_of_ok {a : α} (h : p s = .ending (.ok a) t) (f : α → Action ε σ β) :
    (p >>= f) s = f a t := by
  rw [bind_apply, h]
  rfl

theorem bind_of_error {e : ε} (h : p s = .ending (.error e) t) (f : α → Action ε σ β) :
    (p >>= f) s = .ending (.error e) t := by
  rw [bind_apply, h]
  rfl

end Action

namespace Semantics

theorem exec_of_statements {enter : Block → Run Flow} {rounds : Nat} {body : Block} {s : Session}
    {reply : Reply RuntimeError Session Flow}
    (h : Stmt.execFrom enter rounds .nil body.statements s = reply) :
    body.exec enter rounds s = reply := by
  cases body with
  | mk stmts sp => exact h

/-- `P` holds as soon as the bounds are large enough for what starts at `depth`: `count` is how often
the loop at hand may go on, `rounds` how often each loop inside may. -/
def Ample (depth : Nat) (P : Nat → Nat → (Block → Run Flow) → Prop) : Prop :=
  ∃ least, ∀ count rounds calls, least ≤ count → least ≤ rounds → 256 ≤ depth + calls →
    P count rounds (Block.enter rounds calls)

namespace Ample

variable {depth depth' : Nat} {P Q R : Nat → Nat → (Block → Run Flow) → Prop}

theorem of_forall (h : ∀ count rounds enter, P count rounds enter) : Ample depth P :=
  ⟨0, fun count rounds _ _ _ _ => h count rounds _⟩

theorem map (h : Ample depth P) (f : ∀ count rounds enter, P count rounds enter →
    Q count rounds enter) : Ample depth Q := by
  obtain ⟨least, h⟩ := h
  exact ⟨least, fun count rounds calls hc hr hd => f _ _ _ (h count rounds calls hc hr hd)⟩

theorem map₂ (h : Ample depth P) (h' : Ample depth' Q) (hd : depth' = depth)
    (f : ∀ count rounds enter, P count rounds enter → Q count rounds enter →
      R count rounds enter) : Ample depth R := by
  obtain ⟨least, h⟩ := h
  obtain ⟨least', h'⟩ := h'
  subst hd
  refine ⟨max least least', fun count rounds calls hc hr hd => f _ _ _ ?_ ?_⟩
  · exact h count rounds calls (Nat.max_le.mp hc).1 (Nat.max_le.mp hr).1 hd
  · exact h' count rounds calls (Nat.max_le.mp hc).2 (Nat.max_le.mp hr).2 hd

/-- What holds of a loop holds of the loop after one more round. -/
theorem succ (h : Ample depth P) :
    Ample depth fun count rounds enter => ∃ n, count = n + 1 ∧ P n rounds enter := by
  obtain ⟨least, h⟩ := h
  refine ⟨least + 1, fun count rounds calls hc hr hd => ?_⟩
  obtain ⟨n, rfl⟩ := Nat.exists_eq_add_of_lt hc
  refine ⟨least + n, rfl, h _ rounds calls (Nat.le_add_right _ _) (Nat.le_of_succ_le hr) hd⟩

/-- A loop that is not at hand may go on as often as the others. -/
theorem inner (h : Ample depth P) : Ample depth fun _ rounds enter => P rounds rounds enter := by
  obtain ⟨least, h⟩ := h
  exact ⟨least, fun count rounds calls _ hr hd => h rounds rounds calls hr hr hd⟩

theorem enter {body : Block} {s t : Session} {r : Except RuntimeError Flow}
    (h : Ample (depth + 1) fun _ rounds enter =>
      Stmt.execFrom enter rounds .nil body.statements s = .ending r t) (hlt : depth < 256) :
    Ample depth fun _ _ enter => enter body s = .ending r t := by
  obtain ⟨least, h⟩ := h
  refine ⟨least, fun count rounds calls hc hr hd => ?_⟩
  cases calls with
  | zero => omega
  | succ calls =>
    exact exec_of_statements (h count rounds calls hc hr (by omega))

end Ample

/-- A statement in which the outermost loop, if it is one, may go on `count` times. -/
def unrolled (count rounds : Nat) (enter : Block → Run Flow) : Stmt → Run Flow
  | .while_ c body _ => Run.iterate (test enter c) (body.exec enter rounds) count
  | stmt => stmt.exec enter rounds

theorem exec_of_unrolled {rounds : Nat} {enter : Block → Run Flow} {stmt : Stmt} {s : Session}
    {reply : Reply RuntimeError Session Flow} (h : unrolled rounds rounds enter stmt s = reply) :
    stmt.exec enter rounds s = reply := by
  cases stmt <;> exact h

theorem callUser_of_depth_le {enter : Block → Run Flow} {f : String} {d : Definition}
    {vs : List Value} {sp : Span} {s : Session} (h : 256 ≤ s.depth) :
    Run.callUser enter f d vs sp s = .ending (.error ⟨.callDepthExceeded f 256, sp⟩) s :=
  if_pos h

theorem callUser_of_body {enter : Block → Run Flow} {f : String} {d : Definition}
    {vs : List Value} {sp : Span} {s t : Session} {r : Except RuntimeError Flow}
    (hlt : s.depth < 256) (ht : t.depth = (entered d vs s).depth)
    (hbody : enter d.body (entered d vs s) = .ending r t) :
    Run.callUser enter f d vs sp s = .ending (r.map Flow.value) (resumed s t) := by
  have hle : ¬ Session.maxDepth ≤ s.depth := Nat.not_le_of_lt hlt
  rw [resumed_eq_callerState ht]
  rw [entered_eq_calleeState] at hbody
  rw [Run.callUser, if_neg hle, hbody]
  cases r <;> rfl

theorem test_of_ok {enter : Block → Run Flow} {c : Expr} {s t : Session} {v : Value} {b : Bool}
    (hc : c.eval enter s = .ending (.ok v) t) (hv : v.isTruthy = b) :
    test enter c s = .ok b t := by
  subst hv
  exact Action.bind_of_ok hc _

theorem Ample.round {c : Expr} {body : Block} {s t u : Session} {v : Value}
    {r : Except RuntimeError Flow}
    (hc : Ample s.depth fun _ _ enter => c.eval enter s = .ending (.ok v) t) (hv : v.isTruthy = true)
    (hbody : Ample t.depth fun _ rounds enter =>
      Stmt.execFrom enter rounds .nil body.statements t = .ending r u) (hd : t.depth = s.depth) :
    Ample s.depth fun _ rounds enter =>
      test enter c s = .ok true t ∧ body.exec enter rounds t = .ending r u := by
  apply hc.map₂ hbody hd
  intro count rounds enter h h'
  exact ⟨test_of_ok h hv, exec_of_statements h'⟩

section Rounds

variable {test : Run Bool} {body : Run Flow} {n : Nat} {s t u : Session} {v : Value}

theorem iterate_next (ht : test s = .ok true t) (hb : body t = .ending (.ok (.next v)) u) :
    Run.iterate test body (n + 1) s = Run.iterate test body n u := by
  rw [Run.iterate, ht]
  dsimp only
  rw [hb]
  rfl

theorem iterate_leaving (ht : test s = .ok true t) (hb : body t = .ending (.ok (.leaving v)) u) :
    Run.iterate test body (n + 1) s = .ending (.ok (.leaving v)) u := by
  rw [Run.iterate, ht]
  dsimp only
  rw [hb]
  rfl

theorem iterate_error {err : RuntimeError} (ht : test s = .ok true t)
    (hb : body t = .ending (.error err) u) :
    Run.iterate test body (n + 1) s = .ending (.error err) u := by
  rw [Run.iterate, ht]
  dsimp only
  rw [hb]
  rfl

end Rounds

mutual

theorem Evaluates.ample {e : Expr} {s t : Session} {r : Except RuntimeError Value}
    (h : Evaluates e s r t) : Ample s.depth fun _ _ enter => e.eval enter s = .ending r t := by
  match h with
  | .number => exact .of_forall fun _ _ _ => rfl
  | .string => exact .of_forall fun _ _ _ => rfl
  | .reference hx => exact .of_forall fun _ _ _ => by rw [Expr.eval, Run.lookup, hx]; rfl
  | .undefined_variable hx => exact .of_forall fun _ _ _ => by rw [Expr.eval, Run.lookup, hx]; rfl
  | .assign he => exact he.ample.map fun _ _ _ h => Action.bind_of_ok h _
  | .assign_error he => exact he.ample.map fun _ _ _ h => Action.bind_of_error h _
  | .binary ha hb =>
    exact ha.ample.map₂ hb.ample ha.depth_eq fun _ _ _ h h' =>
      (Action.bind_of_ok h _).trans (Action.bind_of_ok h' _)
  | .binary_left ha => exact ha.ample.map fun _ _ _ h => Action.bind_of_error h _
  | .binary_right ha hb =>
    exact ha.ample.map₂ hb.ample ha.depth_eq fun _ _ _ h h' =>
      (Action.bind_of_ok h _).trans (Action.bind_of_error h' _)
  | .and_left ha hv =>
    exact ha.ample.map fun _ _ _ h => (Action.bind_of_ok h _).trans
      (by rw [LogicalOp.decides, hv]; rfl)
  | .and_right ha hv hb =>
    exact ha.ample.map₂ hb.ample ha.depth_eq fun _ _ _ h h' => (Action.bind_of_ok h _).trans
      (by rw [LogicalOp.decides, hv]; exact h')
  | .or_left ha hv =>
    exact ha.ample.map fun _ _ _ h => (Action.bind_of_ok h _).trans
      (by rw [LogicalOp.decides, hv]; rfl)
  | .or_right ha hv hb =>
    exact ha.ample.map₂ hb.ample ha.depth_eq fun _ _ _ h h' => (Action.bind_of_ok h _).trans
      (by rw [LogicalOp.decides, hv]; exact h')
  | .logical_error ha => exact ha.ample.map fun _ _ _ h => Action.bind_of_error h _
  | .unary he => exact he.ample.map fun _ _ _ h => Action.bind_of_ok h _
  | .unary_error he => exact he.ample.map fun _ _ _ h => Action.bind_of_error h _
  | .native hf hes hn =>
    exact hes.ample.map fun _ _ _ h => (eval_call_native hf).trans
      ((Action.bind_of_ok h _).trans (by rw [Run.callNative, hn]; rfl))
  | .native_error hf hes hn =>
    exact hes.ample.map fun _ _ _ h => (eval_call_native hf).trans
      ((Action.bind_of_ok h _).trans (by rw [Run.callNative, hn]; rfl))
  | .undefined_function hn hf => exact .of_forall fun _ _ _ => eval_call_undefined hn hf
  | .arguments_error (s := s) (f := f) hfun hes =>
    apply hes.ample.map
    intro _ _ _ h
    cases hn : s.natives.get? f with
    | some n => exact (eval_call_native hn).trans (Action.bind_of_error h _)
    | none =>
      cases hf : s.functions.get? f with
      | some d => exact (eval_call_user hn hf).trans (Action.bind_of_error h _)
      | none => simp [Session.hasFunction, Table.contains, hn, hf] at hfun
  | .too_deep hn hf hes hd =>
    exact hes.ample.map fun _ _ _ h => (eval_call_user hn hf).trans
      ((Action.bind_of_ok h _).trans (callUser_of_depth_le hd))
  | .user hn hf hes hd hbody =>
    exact hes.ample.map₂ (hbody.ample.enter hd) hes.depth_eq fun _ _ _ h h' =>
      (eval_call_user hn hf).trans ((Action.bind_of_ok h _).trans
        (callUser_of_body (r := .ok _) hd hbody.depth_eq h'))
  | .user_error hn hf hes hd hbody =>
    exact hes.ample.map₂ (hbody.ample.enter hd) hes.depth_eq fun _ _ _ h h' =>
      (eval_call_user hn hf).trans ((Action.bind_of_ok h _).trans
        (callUser_of_body (r := .error _) hd hbody.depth_eq h'))
termination_by structural h

theorem EvaluatesAll.ample {es : List Expr} {s t : Session}
    {r : Except RuntimeError (List Value)} (h : EvaluatesAll es s r t) :
    Ample s.depth fun _ _ enter => Expr.evalList enter es s = .ending r t := by
  match h with
  | .nil => exact .of_forall fun _ _ _ => rfl
  | .cons he hes =>
    exact he.ample.map₂ hes.ample he.depth_eq fun _ _ _ h h' =>
      (Action.bind_of_ok h _).trans (Action.bind_of_ok h' _)
  | .head_error he => exact he.ample.map fun _ _ _ h => Action.bind_of_error h _
  | .tail_error he hes =>
    exact he.ample.map₂ hes.ample he.depth_eq fun _ _ _ h h' =>
      (Action.bind_of_ok h _).trans (Action.bind_of_error h' _)
termination_by structural h

theorem Executes.ample {stmt : Stmt} {s t : Session} {r : Except RuntimeError Flow}
    (h : Executes stmt s r t) :
    Ample s.depth fun count rounds enter => unrolled count rounds enter stmt s = .ending r t := by
  match h with
  | .function => exact .of_forall fun _ _ _ => rfl
  | .binding he => exact he.ample.map fun _ _ _ h => Action.bind_of_ok h _
  | .binding_error he => exact he.ample.map fun _ _ _ h => Action.bind_of_error h _
  | .binding_none => exact .of_forall fun _ _ _ => rfl
  | .expression he => exact he.ample.map fun _ _ _ h => Action.bind_of_ok h _
  | .expression_error he => exact he.ample.map fun _ _ _ h => Action.bind_of_error h _
  | .then_taken hc hv hyes =>
    exact hc.ample.map₂ hyes.ample hc.depth_eq fun _ _ _ h h' =>
      (Action.bind_of_ok h _).trans (by rw [if_pos hv]; exact exec_of_statements h')
  | .then_skipped hc hv =>
    exact hc.ample.map fun _ _ _ h => (Action.bind_of_ok h _).trans (by rw [hv]; rfl)
  | .then_error hc => exact hc.ample.map fun _ _ _ h => Action.bind_of_error h _
  | .else_yes hc hv hyes =>
    exact hc.ample.map₂ hyes.ample hc.depth_eq fun _ _ _ h h' =>
      (Action.bind_of_ok h _).trans (by rw [if_pos hv]; exact exec_of_statements h')
  | .else_no hc hv hno =>
    exact hc.ample.map₂ hno.ample hc.depth_eq fun _ _ _ h h' =>
      (Action.bind_of_ok h _).trans (by rw [hv]; exact exec_of_statements h')
  | .else_error hc => exact hc.ample.map fun _ _ _ h => Action.bind_of_error h _
  | .while_done hc hv =>
    apply hc.ample.succ.map
    intro count rounds enter h
    obtain ⟨n, rfl, h⟩ := h
    rw [unrolled, Run.iterate, test_of_ok h hv]
    rfl
  | .while_again hc hv hbody hagain =>
    have hround := hc.ample.round hv hbody.ample hc.depth_eq
    apply hround.map₂ hagain.ample.succ (hbody.depth_eq.trans hc.depth_eq)
    intro count rounds enter h h'
    obtain ⟨htest, hbody⟩ := h
    obtain ⟨n, rfl, hagain⟩ := h'
    exact (iterate_next htest hbody).trans hagain
  | .while_leaving hc hv hbody =>
    have hround := hc.ample.round hv hbody.ample hc.depth_eq
    apply hround.succ.map
    intro count rounds enter h
    obtain ⟨n, rfl, htest, hbody⟩ := h
    exact iterate_leaving htest hbody
  | .while_error hc =>
    apply hc.ample.succ.map
    intro count rounds enter h
    obtain ⟨n, rfl, h⟩ := h
    rw [unrolled, Run.iterate, test, Action.bind_of_error h]
    rfl
  | .while_body_error hc hv hbody =>
    have hround := hc.ample.round hv hbody.ample hc.depth_eq
    apply hround.succ.map
    intro count rounds enter h
    obtain ⟨n, rfl, htest, hbody⟩ := h
    exact iterate_error htest hbody
  | .return_ he => exact he.ample.map fun _ _ _ h => Action.bind_of_ok h _
  | .return_error he => exact he.ample.map fun _ _ _ h => Action.bind_of_error h _
  | .return_none => exact .of_forall fun _ _ _ => rfl
termination_by structural h

theorem Sequence.ample {last : Value} {stmts : List Stmt} {s t : Session}
    {r : Except RuntimeError Flow} (h : Sequence last stmts s r t) :
    Ample s.depth fun _ rounds enter => Stmt.execFrom enter rounds last stmts s = .ending r t := by
  match h with
  | .nil => exact .of_forall fun _ _ _ => rfl
  | .cons hs hss =>
    exact hs.ample.inner.map₂ hss.ample hs.depth_eq fun _ _ _ h h' =>
      (Action.bind_of_ok (exec_of_unrolled h) _).trans h'
  | .leaving hs =>
    exact hs.ample.inner.map fun _ _ _ h => Action.bind_of_ok (exec_of_unrolled h) _
  | .error hs =>
    exact hs.ample.inner.map fun _ _ _ h => Action.bind_of_error (exec_of_unrolled h) _
termination_by structural h

end

theorem interpret_of_runs {p : Program} {s t : Session} {r : Except RuntimeError Value}
    (h : Runs p s r t) :
    ∃ least, ∀ rounds, least ≤ rounds → Session.interpret rounds p s = .ending r t := by
  cases h with
  | value h =>
    obtain ⟨least, hleast⟩ := h.ample
    exact ⟨least, fun rounds hr => Action.bind_of_ok
      (hleast rounds rounds Session.maxDepth hr hr (Nat.le_add_left _ _)) _⟩
  | error h =>
    obtain ⟨least, hleast⟩ := h.ample
    exact ⟨least, fun rounds hr => Action.bind_of_error
      (hleast rounds rounds Session.maxDepth hr hr (Nat.le_add_left _ _)) _⟩

theorem Runs.unique {p : Program} {s t t' : Session} {r r' : Except RuntimeError Value}
    (h : Runs p s r t) (h' : Runs p s r' t') : r = r' ∧ t = t' := by
  obtain ⟨least, hleast⟩ := interpret_of_runs h
  obtain ⟨least', hleast'⟩ := interpret_of_runs h'
  have heq := (hleast _ (Nat.le_max_left least least')).symm.trans
    (hleast' _ (Nat.le_max_right least least'))
  cases r <;> cases r' <;> cases heq <;> exact ⟨rfl, rfl⟩

end Semantics
end Dvilipi
