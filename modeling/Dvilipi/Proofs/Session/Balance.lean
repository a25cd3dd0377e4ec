import Dvilipi.Proofs.Semantics.Complete
import Dvilipi.Proofs.Semantics.Visits

/-!
Calls leave no trace in their caller but the value: its variables and its depth are the same again
however the body ended. So a session is at depth zero whenever nothing is run in it, and never below
zero nor beyond the limit while something is.
-/

namespace Dvilipi
set_option autoImplicit false

namespace Session

/-- Sessions that come about by running texts, programs and expressions in a fresh session and by
registering natives. -/
inductive Reachable : Session → Prop where
  | fresh (sink : Sink) : Reachable (.fresh sink)
  | register {s : Session} (h : Reachable s) (name : String) (native : Native) :
      Reachable (s.register name native)
  | interpret {s t : Session} {rounds : Nat} {p : Program} {r : Except RuntimeError Value}
      (h : Reachable s) (hp : Session.interpret rounds p s = .ending r t) : Reachable t
  | evaluate {s t : Session} {rounds : Nat} {e : Expr} {r : Except RuntimeError Value}
      (h : Reachable s) (he : Session.evaluate rounds e s = .ending r t) : Reachable t
  | run {s t : Session} {rounds : Nat} {source : String} {r : Except Error Value}
      (h : Reachable s) (hr : Session.run rounds source s = .ending r t) : Reachable t

variable {s t : Session} {rounds : Nat}

theorem depth_of_interpret {p : Program} {r : Except RuntimeError Value}
    (h : Session.interpret rounds p s = .ending r t) : t.depth = s.depth := by
  cases Semantics.runs_of_interpret h with
  | value h => exact h.depth_eq
  | error h => exact h.depth_eq

theorem depth_of_evaluate {e : Expr} {r : Except RuntimeError Value}
    (h : Session.evaluate rounds e s = .ending r t) : t.depth = s.depth :=
  (Semantics.evaluates_of_eval (Semantics.sound_enter rounds maxDepth) e h).depth_eq

theorem depth_of_run {source : String} {r : Except Error Value}
    (h : Session.run rounds source s = .ending r t) : t.depth = s.depth := by
  unfold Session.run at h
  dsimp only at h
  split at h
  · obtain ⟨rfl, rfl⟩ := Reply.failed_ending h
    rfl
  · split at h
    · next v u hp =>
      obtain ⟨rfl, rfl⟩ := Reply.ok_ending h
      have hd := depth_of_interpret (r := .ok v) hp
      exact hd
    · next e u hp =>
      obtain ⟨rfl, rfl⟩ := Reply.failed_ending h
      have hd := depth_of_interpret (r := .error e) hp
      exact hd
    · cases r <;> cases h

theorem Reachable.depth_eq_zero (h : Reachable s) : s.depth = 0 := by
  induction h with
  | fresh sink => rfl
  | register _ name native ih => exact ih
  | interpret _ hp ih => exact (depth_of_interpret hp).trans ih
  | evaluate _ he ih => exact (depth_of_evaluate he).trans ih
  | run _ hr ih => exact (depth_of_run hr).trans ih

end Session

namespace Semantics

/-- A declared function is called in `s` and its arguments leave `t` behind. -/
structure Called (rounds calls : Nat) (f : String) (es : List Expr) (s : Session) (d : Definition)
    (vs : List Value) (t : Session) : Prop where
  natives : s.natives.get? f = none
  functions : s.functions.get? f = some d
  arguments : Expr.evalList (Block.enter rounds calls) es s = .ok vs t

variable {rounds calls : Nat} {f : String} {es : List Expr} {sp : Span} {s t u : Session}
  {d : Definition} {vs : List Value} {r : Except RuntimeError Value} {b : Task}

namespace Called

theorem evaluatesAll (h : Called rounds calls f es s d vs t) : EvaluatesAll es s (.ok vs) t :=
  evaluatesAll_of_evalList (sound_enter rounds calls) es (r := .ok vs) h.arguments

theorem eval_eq (h : Called rounds calls f es s d vs t) :
    (Expr.call f es sp).eval (Block.enter rounds calls) s =
      Run.callUser (Block.enter rounds calls) f d vs sp t := by
  rw [eval_call_user h.natives h.functions]
  exact Action.bind_of_ok h.arguments _

/-- However the body ends, the variables are those that the arguments left, and the depth is that of
the caller. -/
theorem isolated (h : Called rounds calls f es s d vs t)
    (hcall : (Expr.call f es sp).eval (Block.enter rounds calls) s = .ending r u) :
    u.environment = t.environment ∧ u.depth = s.depth := by
  refine ⟨?_, (evaluates_of_eval (sound_enter rounds calls) _ hcall).depth_eq⟩
  rw [h.eval_eq] at hcall
  unfold Run.callUser at hcall
  split at hcall
  · obtain ⟨rfl, rfl⟩ := Reply.failed_ending hcall
    rfl
  · split at hcall
    · obtain ⟨rfl, rfl⟩ := Reply.ok_ending hcall
      rfl
    · obtain ⟨rfl, rfl⟩ := Reply.failed_ending hcall
      rfl
    · cases r <;> cases hcall

theorem body_depth (h : Called rounds calls f es s d vs t) {r : Except RuntimeError Flow}
    (hbody : Block.enter rounds calls d.body (Run.calleeState d vs t) = .ending r u) :
    u.depth = s.depth + 1 := by
  have hdepth := (sound_enter rounds calls hbody).depth_eq
  rw [Run.calleeState, h.evaluatesAll.depth_eq] at hdepth
  exact hdepth

theorem refused (h : Called rounds calls f es s d vs t) (hs : 256 ≤ s.depth) :
    (Expr.call f es sp).eval (Block.enter rounds calls) s =
      .failed ⟨.callDepthExceeded f 256, sp⟩ t := by
  rw [h.eval_eq]
  exact callUser_of_depth_le (h.evaluatesAll.depth_eq ▸ hs)

end Called

theorem Begins.body_depth {last : Value} {stmts : List Stmt}
    (h : Begins (.expr (.call f es sp)) s (.sequence last stmts) t) :
    t.depth = s.depth + 1 ∧ t.depth ≤ 256 := by
  cases h with
  | body hn hf hes hd =>
    refine ⟨?_, hd⟩
    rw [entered, hes.depth_eq]

theorem Begins.eq_list (h : Begins (.expr (.call f es sp)) s b t) (hs : 256 ≤ s.depth) :
    b = .list es := by
  cases h with
  | arguments hf => rfl
  | body hn hf hes hd =>
    rw [hes.depth_eq] at hd
    exact absurd hd (Nat.not_lt_of_le hs)

/-- After a call of a declared function the caller finds the variables that its arguments left and its
own depth, and a call at the limit is refused before its body. In every session the depth is zero
between runs; what is begun in a run is begun, and ends, within the limit, and bodies above zero. -/
theorem calls_balanced :
    (∀ {rounds calls : Nat} {f : String} {es : List Expr} {sp : Span} {s t : Session}
        {d : Definition} {vs : List Value}, Called rounds calls f es s d vs t →
      (∀ r u, (Expr.call f es sp).eval (Block.enter rounds calls) s = .ending r u →
        u.environment = t.environment ∧ u.depth = s.depth) ∧
      (∀ r u, Block.enter rounds calls d.body (Run.calleeState d vs t) = .ending r u →
        u.depth = s.depth + 1) ∧
      (256 ≤ s.depth →
        (Expr.call f es sp).eval (Block.enter rounds calls) s =
            .failed ⟨.callDepthExceeded f 256, sp⟩ t ∧
          ∀ b x, Begins (.expr (.call f es sp)) s b x → b = .list es)) ∧
    (∀ {s : Session}, s.Reachable → s.depth = 0 ∧ ∀ a b x, Visits a s b x →
      x.depth ≤ 256 ∧ (∀ y, b.Ends x y → y.depth = x.depth) ∧
      ∀ f es sp last stmts y, b = .expr (.call f es sp) → Begins b x (.sequence last stmts) y →
        0 < y.depth ∧ y.depth ≤ 256) := by
  refine ⟨fun h => ⟨fun r u hcall => h.isolated hcall, fun r u hbody => h.body_depth hbody, ?_⟩, ?_⟩
  · intro hs
    exact ⟨h.refused hs, fun b x hbegins => hbegins.eq_list hs⟩
  · intro s hreach
    have hzero := hreach.depth_eq_zero
    refine ⟨hzero, fun a b x hvisits => ?_⟩
    have hle : s.depth ≤ 256 := by omega
    refine ⟨hvisits.depth_le hle, fun y hends => hends.depth_eq, ?_⟩
    rintro f es sp last stmts y rfl hbegins
    obtain ⟨hdepth, hlimit⟩ := hbegins.body_depth
    exact ⟨by omega, hlimit⟩

/-- A call whose parameter hides a variable of the caller. -/
theorem calls_balanced_hidden :
    ∃ s t u : Session, ∃ d : Definition, s.Reachable ∧
      t.environment.get? "x" = some (.string "a") ∧
      Called 1 1 "f" [.string "b" ⟨0, 0⟩] s d [.string "b"] t ∧
      (Expr.call "f" [.string "b" ⟨0, 0⟩] ⟨0, 0⟩).eval (Block.enter 1 1) s =
        .ending (.ok (.string "b")) u ∧
      u.environment = t.environment ∧ u.depth = s.depth ∧ s.depth = 0 := by
  let body : Block := .mk [.return_ (some (.reference "x" ⟨0, 0⟩)) ⟨0, 0⟩] ⟨0, 0⟩
  let p : Program := ⟨[.binding "x" false none (some (.string "a" ⟨0, 0⟩)) ⟨0, 0⟩,
    .function "f" [⟨"x", none, ⟨0, 0⟩⟩] none body ⟨0, 0⟩]⟩
  let d : Definition := ⟨"f", ["x"], body⟩
  let s : Session := ((Session.fresh .unlimited).define "x" (.string "a")).declare d
  have hrun : Session.interpret 1 p (.fresh .unlimited) = .ending (.ok .nil) s := rfl
  have hreach : s.Reachable := .interpret (.fresh .unlimited) hrun
  have hcalled : Called 1 1 "f" [.string "b" ⟨0, 0⟩] s d [.string "b"] s := ⟨rfl, rfl, rfl⟩
  have hcall : (Expr.call "f" [.string "b" ⟨0, 0⟩] ⟨0, 0⟩).eval (Block.enter 1 1) s =
      .ending (.ok (.string "b")) s := rfl
  obtain ⟨henvironment, hdepth⟩ := (calls_balanced.1 hcalled).1 _ _ hcall
  exact ⟨s, s, s, d, hreach, rfl, hcalled, hcall, henvironment, hdepth,
    (calls_balanced.2 hreach).1⟩

end Semantics
end Dvilipi
