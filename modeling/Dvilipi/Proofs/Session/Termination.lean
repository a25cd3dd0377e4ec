import Dvilipi.Proofs.Semantics.Complete
import Dvilipi.Proofs.Session.Invariant

/-!
Programs without loops stop. Calls may be nested only so deep, and a body that is called is no longer
than one of those stored; nothing but a loop can go on for ever.
-/

namespace Dvilipi
set_option autoImplicit false

def Stmt.IsLoop : Stmt → Prop
  | while_ _ _ _ => True
  | _ => False

/-- No statement is a loop, not in the bodies of declared functions either. -/
def Program.LoopFree (p : Program) : Prop := p.Every (fun _ => True) fun stmt => ¬ stmt.IsLoop

namespace Session

def LoopFree (s : Session) : Prop := s.Every (fun _ => True) fun stmt => ¬ stmt.IsLoop

variable {p : Program} {s : Session}

theorem interpret_ne_exhausted (hs : s.LoopFree) (hp : p.LoopFree) (rounds : Nat) :
    interpret rounds p s ≠ .exhausted := by
  have hloop : ∀ c body sp, ¬ (Stmt.while_ c body sp).IsLoop → False := fun _ _ _ h => h trivial
  have hsane := Semantics.sane_interpret hloop hp hs rounds
  intro h
  rw [h] at hsane
  exact hsane

/-- Without loops in the program or in a stored body, a program ends with a value or an error, and it
does not matter how many rounds are granted. -/
theorem interpret_ends (hs : s.LoopFree) (hp : p.LoopFree) :
    ∃ r t, ∀ rounds, interpret rounds p s = .ending r t := by
  have hends : ∀ rounds, ∃ r t, interpret rounds p s = .ending r t := by
    intro rounds
    cases h : interpret rounds p s with
    | ok v t => exact ⟨.ok v, t, rfl⟩
    | failed e t => exact ⟨.error e, t, rfl⟩
    | exhausted => exact absurd h (interpret_ne_exhausted hs hp rounds)
  obtain ⟨r, t, hzero⟩ := hends 0
  refine ⟨r, t, fun rounds => ?_⟩
  obtain ⟨r', t', h⟩ := hends rounds
  obtain ⟨rfl, rfl⟩ := (Semantics.runs_of_interpret hzero).unique (Semantics.runs_of_interpret h)
  exact h

/-- A function that calls itself in its own arguments. -/
theorem interpret_ends_nested : ∃ s : Session, ∃ p : Program, s.LoopFree ∧ p.LoopFree ∧
    ((s.functions.get? "f").map (·.body.statements.length)) = some 1 ∧
    ∃ r t, ∀ rounds, interpret rounds p s = .ending r t := by
  let inner : Expr := .call "f" [.call "f" [] ⟨0, 0⟩] ⟨0, 0⟩
  let body : Block := .mk [.return_ (some inner) ⟨0, 0⟩] ⟨0, 0⟩
  let s : Session := (fresh .unlimited).declare ⟨"f", [], body⟩
  let p : Program := ⟨[.expression inner ⟨0, 0⟩]⟩
  have hinner : inner.Every fun _ => True := ⟨trivial, ⟨trivial, trivial⟩, trivial⟩
  have hbody : body.Every (fun _ => True) fun stmt => ¬ stmt.IsLoop := by
    refine ⟨⟨id, fun e he => ?_⟩, trivial⟩
    cases he
    exact hinner
  have hs : s.LoopFree := (every_fresh _ _ _).declare hbody
  have hp : p.LoopFree := ⟨⟨id, hinner⟩, trivial⟩
  exact ⟨s, p, hs, hp, rfl, interpret_ends hs hp⟩

end Session
end Dvilipi
