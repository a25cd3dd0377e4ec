import Dvilipi.Proofs.Semantics.Sound

/-!
Which variables a program can change. Calls give their caller its variables back, so what a called
function binds is gone when the call ends, and only what the program itself assigns and declares can be
different afterwards. Declaring a function runs nothing, so its body does not count.
-/

namespace Dvilipi
set_option autoImplicit false

mutual

/-- The variables that are assigned in an expression. -/
def Expr.targets : Expr → List String
  | .number _ _ => []
  | .string _ _ => []
  | .reference _ _ => []
  | .assign x e _ => x :: e.targets
  | .binary _ a b _ => a.targets ++ b.targets
  | .logical _ a b _ => a.targets ++ b.targets
  | .unary _ e _ => e.targets
  | .call _ es _ => Expr.targetsOfList es

def Expr.targetsOfList : List Expr → List String
  | [] => []
  | e :: es => e.targets ++ Expr.targetsOfList es

end

mutual

/-- The variables that are assigned, or declared with an initial value, outside of the bodies of
functions. -/
def Stmt.targets : Stmt → List String
  | .function _ _ _ _ _ => []
  | .binding x _ _ (some e) _ => x :: e.targets
  | .binding _ _ _ none _ => []
  | .expression e _ => e.targets
  | .ifThen c yes _ => c.targets ++ yes.targets
  | .ifElse c yes no _ => c.targets ++ (yes.targets ++ no.targets)
  | .while_ c body _ => c.targets ++ body.targets
  | .return_ (some e) _ => e.targets
  | .return_ none _ => []

def Block.targets : Block → List String
  | .mk statements _ => Stmt.targetsOfList statements

def Stmt.targetsOfList : List Stmt → List String
  | [] => []
  | s :: ss => s.targets ++ Stmt.targetsOfList ss

end

def Program.targets (p : Program) : List String := Stmt.targetsOfList p.statements

theorem Block.notMem_targets {x : String} {b : Block} (hx : x ∉ b.targets) :
    x ∉ Stmt.targetsOfList b.statements := by
  cases b
  exact hx

theorem Session.binding?_define {x y : String} (h : y ≠ x) (s : Session) (v : Value) :
    (s.define y v).binding? x = s.binding? x :=
  Table.get?_insert_of_ne h s.environment v

namespace Semantics

variable {x : String}

-- The body of a call is of no concern here, whatever it does: `resumed` brings the variables back.
mutual

theorem Evaluates.binding?_eq {e : Expr} {s t : Session} {r : Except RuntimeError Value}
    (h : Evaluates e s r t) (hx : x ∉ e.targets) : t.binding? x = s.binding? x := by
  match h, hx with
  | .number, _ => rfl
  | .string, _ => rfl
  | .reference _, _ => rfl
  | .undefined_variable _, _ => rfl
  | .assign he, hx =>
    rw [Session.binding?_define (Ne.symm (List.ne_of_not_mem_cons hx))]
    exact he.binding?_eq (List.not_mem_of_not_mem_cons hx)
  | .assign_error he, hx => exact he.binding?_eq (List.not_mem_of_not_mem_cons hx)
  | .binary ha hb, hx =>
    have hleft := ha.binding?_eq (hx ∘ List.mem_append_left _)
    exact (hb.binding?_eq (hx ∘ List.mem_append_right _)).trans hleft
  | .binary_left ha, hx => exact ha.binding?_eq (hx ∘ List.mem_append_left _)
  | .binary_right ha hb, hx =>
    have hleft := ha.binding?_eq (hx ∘ List.mem_append_left _)
    exact (hb.binding?_eq (hx ∘ List.mem_append_right _)).trans hleft
  | .and_left ha _, hx => exact ha.binding?_eq (hx ∘ List.mem_append_left _)
  | .and_right ha _ hb, hx =>
    have hleft := ha.binding?_eq (hx ∘ List.mem_append_left _)
    exact (hb.binding?_eq (hx ∘ List.mem_append_right _)).trans hleft
  | .or_left ha _, hx => exact ha.binding?_eq (hx ∘ List.mem_append_left _)
  | .or_right ha _ hb, hx =>
    have hleft := ha.binding?_eq (hx ∘ List.mem_append_left _)
    exact (hb.binding?_eq (hx ∘ List.mem_append_right _)).trans hleft
  | .logical_error ha, hx => exact ha.binding?_eq (hx ∘ List.mem_append_left _)
  | .unary he, hx => exact he.binding?_eq hx
  | .unary_error he, hx => exact he.binding?_eq hx
  | .native _ hes _, hx => exact hes.binding?_eq hx
  | .native_error _ hes _, hx => exact hes.binding?_eq hx
  | .undefined_function _ _, _ => rfl
  | .arguments_error _ hes, hx => exact hes.binding?_eq hx
  | .too_deep _ _ hes _, hx => exact hes.binding?_eq hx
  | .user _ _ hes _ _, hx => exact hes.binding?_eq hx
  | .user_error _ _ hes _ _, hx => exact hes.binding?_eq hx
termination_by structural h

theorem EvaluatesAll.binding?_eq {es : List Expr} {s t : Session}
    {r : Except RuntimeError (List Value)} (h : EvaluatesAll es s r t)
    (hx : x ∉ Expr.targetsOfList es) : t.binding? x = s.binding? x := by
  match h, hx with
  | .nil, _ => rfl
  | .cons he hes, hx =>
    have hhead := he.binding?_eq (hx ∘ List.mem_append_left _)
    exact (hes.binding?_eq (hx ∘ List.mem_append_right _)).trans hhead
  | .head_error he, hx => exact he.binding?_eq (hx ∘ List.mem_append_left _)
  | .tail_error he hes, hx =>
    have hhead := he.binding?_eq (hx ∘ List.mem_append_left _)
    exact (hes.binding?_eq (hx ∘ List.mem_append_right _)).trans hhead
termination_by structural h

end

mutual

theorem Executes.binding?_eq {stmt : Stmt} {s t : Session} {r : Except RuntimeError Flow}
    (h : Executes stmt s r t) (hx : x ∉ stmt.targets) : t.binding? x = s.binding? x := by
  match h, hx with
  | .function, _ => rfl
  | .binding he, hx =>
    rw [Session.binding?_define (Ne.symm (List.ne_of_not_mem_cons hx))]
    exact he.binding?_eq (List.not_mem_of_not_mem_cons hx)
  | .binding_error he, hx => exact he.binding?_eq (List.not_mem_of_not_mem_cons hx)
  | .binding_none, _ => rfl
  | .expression he, hx => exact he.binding?_eq hx
  | .expression_error he, hx => exact he.binding?_eq hx
  | .then_taken hc _ hyes, hx =>
    have hcondition := hc.binding?_eq (hx ∘ List.mem_append_left _)
    have hbody := Block.notMem_targets (hx ∘ List.mem_append_right _)
    exact (hyes.binding?_eq hbody).trans hcondition
  | .then_skipped hc _, hx => exact hc.binding?_eq (hx ∘ List.mem_append_left _)
  | .then_error hc, hx => exact hc.binding?_eq (hx ∘ List.mem_append_left _)
  | .else_yes hc _ hyes, hx =>
    have hcondition := hc.binding?_eq (hx ∘ List.mem_append_left _)
    have hbody := Block.notMem_targets (hx ∘ List.mem_append_right _ ∘ List.mem_append_left _)
    exact (hyes.binding?_eq hbody).trans hcondition
  | .else_no hc _ hno, hx =>
    have hcondition := hc.binding?_eq (hx ∘ List.mem_append_left _)
    have hbody := Block.notMem_targets (hx ∘ List.mem_append_right _ ∘ List.mem_append_right _)
    exact (hno.binding?_eq hbody).trans hcondition
  | .else_error hc, hx => exact hc.binding?_eq (hx ∘ List.mem_append_left _)
  | .while_done hc _, hx => exact hc.binding?_eq (hx ∘ List.mem_append_left _)
  | .while_again hc _ hround hagain, hx =>
    have hcondition := hc.binding?_eq (hx ∘ List.mem_append_left _)
    have hbody := Block.notMem_targets (hx ∘ List.mem_append_right _)
    exact (hagain.binding?_eq hx).trans ((hround.binding?_eq hbody).trans hcondition)
  | .while_leaving hc _ hround, hx =>
    have hcondition := hc.binding?_eq (hx ∘ List.mem_append_left _)
    have hbody := Block.notMem_targets (hx ∘ List.mem_append_right _)
    exact (hround.binding?_eq hbody).trans hcondition
  | .while_error hc, hx => exact hc.binding?_eq (hx ∘ List.mem_append_left _)
  | .while_body_error hc _ hround, hx =>
    have hcondition := hc.binding?_eq (hx ∘ List.mem_append_left _)
    have hbody := Block.notMem_targets (hx ∘ List.mem_append_right _)
    exact (hround.binding?_eq hbody).trans hcondition
  | .return_ he, hx => exact he.binding?_eq hx
  | .return_error he, hx => exact he.binding?_eq hx
  | .return_none, _ => rfl
termination_by structural h

theorem Sequence.binding?_eq {last : Value} {stmts : List Stmt} {s t : Session}
    {r : Except RuntimeError Flow} (h : Sequence last stmts s r t)
    (hx : x ∉ Stmt.targetsOfList stmts) : t.binding? x = s.binding? x := by
  match h, hx with
  | .nil, _ => rfl
  | .cons hs hss, hx =>
    have hfirst := hs.binding?_eq (hx ∘ List.mem_append_left _)
    exact (hss.binding?_eq (hx ∘ List.mem_append_right _)).trans hfirst
  | .leaving hs, hx => exact hs.binding?_eq (hx ∘ List.mem_append_left _)
  | .error hs, hx => exact hs.binding?_eq (hx ∘ List.mem_append_left _)
termination_by structural h

end

theorem Runs.binding?_eq {p : Program} {s t : Session} {r : Except RuntimeError Value}
    (h : Runs p s r t) (hx : x ∉ p.targets) : t.binding? x = s.binding? x := by
  cases h with
  | value h => exact h.binding?_eq hx
  | error h => exact h.binding?_eq hx

end Semantics

namespace Session

/-- However a program ends, and whatever the functions do that it calls, a variable that the program
itself neither assigns nor declares is bound as before, or unbound as before. -/
theorem binding_of_interpret {rounds : Nat} {p : Program} {s t : Session}
    {r : Except RuntimeError Value} {x : String} (hx : x ∉ p.targets)
    (h : interpret rounds p s = .ending r t) : t.binding? x = s.binding? x :=
  (Semantics.runs_of_interpret h).binding?_eq hx

/-- A function assigns its parameter, which the caller has a variable of the same name as, and fails;
the argument of the call assigns another variable. -/
theorem binding_of_interpret_parameter :
    ∃ s t : Session, ∃ p : Program, ∃ r : Except RuntimeError Value, "x" ∉ p.targets ∧
      s.binding? "x" = some (.string "kept") ∧ interpret 0 p s = .ending r t ∧
      r = .error ⟨.undefinedVariable "z", ⟨0, 0⟩⟩ ∧ t.binding? "x" = s.binding? "x" ∧
      t.binding? "y" ≠ s.binding? "y" := by
  let sp : Span := ⟨0, 0⟩
  let body : Block := .mk [.expression (.assign "x" (.string "new" sp) sp) sp,
    .expression (.reference "z" sp) sp] sp
  let call : Expr := .call "f" [.assign "y" (.string "argument" sp) sp] sp
  let p : Program := ⟨[.function "f" [⟨"x", none, sp⟩] none body sp, .expression call sp]⟩
  let s : Session := (Session.fresh .unlimited).define "x" (.string "kept")
  let t : Session := (s.declare ⟨"f", ["x"], body⟩).define "y" (.string "argument")
  have hx : "x" ∉ p.targets := by decide
  have hrun : interpret 0 p s = .ending (.error ⟨.undefinedVariable "z", sp⟩) t := rfl
  refine ⟨s, t, p, _, hx, rfl, hrun, rfl, binding_of_interpret hx hrun, ?_⟩
  nofun

end Session
end Dvilipi
