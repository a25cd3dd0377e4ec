import Dvilipi.Proofs.Semantics.Complete

/-!
What the rules derive for a tree in a session is unique. A run within ample bounds finds whatever is
derived, and it finds one outcome only.
-/

namespace Dvilipi
set_option autoImplicit false

theorem Reply.ending_inj {ε σ α : Type} {r r' : Except ε α} {s t : σ}
    (h : ending r s = ending r' t) : r = r' ∧ s = t := by
  cases r <;> cases r' <;> cases h <;> exact ⟨rfl, rfl⟩

namespace Semantics

theorem Ample.bounded {depth : Nat} {P : Nat → Nat → (Block → Run Flow) → Prop}
    (h : Ample depth P) : ∃ rounds, P rounds rounds (Block.enter rounds Session.maxDepth) := by
  obtain ⟨least, h⟩ := h
  exact ⟨least, h least least _ (Nat.le_refl _) (Nat.le_refl _) (Nat.le_add_left _ _)⟩

theorem Ample.unique {depth : Nat} {α : Type} {r r' : Except RuntimeError α} {t t' : Session}
    {run : Nat → Nat → (Block → Run Flow) → Reply RuntimeError Session α}
    (h : Ample depth fun count rounds enter => run count rounds enter = .ending r t)
    (h' : Ample depth fun count rounds enter => run count rounds enter = .ending r' t') :
    r = r' ∧ t = t' := by
  obtain ⟨rounds, hsame⟩ := (h.map₂ h' rfl fun _ _ _ hr hr' => hr.symm.trans hr').bounded
  exact Reply.ending_inj hsame

variable {s t t' : Session}

theorem Evaluates.unique {e : Expr} {r r' : Except RuntimeError Value}
    (h : Evaluates e s r t) (h' : Evaluates e s r' t') : r = r' ∧ t = t' :=
  h.ample.unique h'.ample

theorem EvaluatesAll.unique {es : List Expr} {r r' : Except RuntimeError (List Value)}
    (h : EvaluatesAll es s r t) (h' : EvaluatesAll es s r' t') : r = r' ∧ t = t' :=
  h.ample.unique h'.ample

theorem Executes.unique {stmt : Stmt} {r r' : Except RuntimeError Flow}
    (h : Executes stmt s r t) (h' : Executes stmt s r' t') : r = r' ∧ t = t' :=
  h.ample.unique h'.ample

theorem Sequence.unique {last : Value} {stmts : List Stmt}
    {r r' : Except RuntimeError Flow} (h : Sequence last stmts s r t)
    (h' : Sequence last stmts s r' t') : r = r' ∧ t = t' :=
  h.ample.unique h'.ample

end Semantics
end Dvilipi
