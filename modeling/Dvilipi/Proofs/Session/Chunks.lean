import Dvilipi.Proofs.Parser.Join
import Dvilipi.Proofs.Semantics.Complete
import Dvilipi.Proofs.Session.Alike

/-!
Texts that are run one after the other in a session, and the same texts run at once. As long as no text
is left by a `return` of its own, it makes no difference but to spans and to the log.
-/

namespace Dvilipi
set_option autoImplicit false

section

variable {enter : Block → Run Flow} {rounds : Nat} {last v : Value} {ss ts : List Stmt}
  {s t : Session}

theorem Stmt.execFrom_append_of_next (h : Stmt.execFrom enter rounds last ss s = .ok (.next v) t) :
    Stmt.execFrom enter rounds last (ss ++ ts) s = Stmt.execFrom enter rounds v ts t := by
  induction ss generalizing last s with
  | nil =>
    cases h
    rfl
  | cons stmt ss ih =>
    obtain ⟨flow, u, hflow, hrest⟩ := Action.bind_eq_ok.mp h
    cases flow with
    | next w => exact (Action.bind_of_ok hflow _).trans (ih hrest)
    | leaving w => cases hrest

theorem Stmt.execFrom_of_ne_nil (hne : ss ≠ []) (last last' : Value) :
    Stmt.execFrom enter rounds last ss = Stmt.execFrom enter rounds last' ss := by
  cases ss with
  | nil => exact absurd rfl hne
  | cons stmt ss => rfl

end

namespace Program

/-- Runs the statements of a program outside of functions. -/
def flow (rounds : Nat) (p : Program) : Run Flow :=
  Stmt.execFrom (Block.enter rounds Session.maxDepth) rounds .nil p.statements

/-- A `return` outside of functions ends the program. -/
def Leaves (p : Program) (rounds : Nat) (s : Session) : Prop :=
  ∃ v t, p.flow rounds s = .ok (.leaving v) t

theorem flow_congr {p q : Program} {rounds : Nat} {s t : Session}
    (h : Stmt.bareList p.statements = Stmt.bareList q.statements) (hs : s.Alike t) :
    Semantics.Same (p.flow rounds s) (q.flow rounds t) :=
  Semantics.same_of_bareList (Semantics.blind_enter rounds Session.maxDepth) h hs

theorem Leaves.congr {p : Program} {rounds : Nat} {s t : Session} (h : p.Leaves rounds s)
    (hs : s.Alike t) : p.Leaves rounds t := by
  obtain ⟨v, u, h⟩ := h
  have hsame : Semantics.Same (p.flow rounds s) (p.flow rounds t) := flow_congr rfl hs
  rw [h] at hsame
  generalize ht : p.flow rounds t = reply at hsame
  cases hsame with
  | ok _ => exact ⟨v, _, ht⟩

end Program

/-- Runtime errors that differ in their spans only. -/
def Error.SameCause (d e : Error) : Prop :=
  ∃ cause sp sp', d = .runtime ⟨cause, sp⟩ ∧ e = .runtime ⟨cause, sp'⟩

namespace Session

open Semantics (Same)

variable {rounds : Nat} {s s' t t' : Session} {v : Value} {p q r : Program}

/-- What is made of a run of the program of a text. -/
def finish : Reply RuntimeError Session Value → Reply Error Session Value
  | .ok v t => .ok v (t.record (.finished v.typeName))
  | .failed e t => .failed (.runtime e) t
  | .exhausted => .exhausted

theorem run_of_ofSource {source : String} (h : Program.ofSource source = .ok p) :
    run rounds source s = finish (interpret rounds p
      ((s.record (.parsing source.length)).record (.interpreting p.statements.length))) := by
  unfold run
  dsimp only
  rw [h]
  unfold finish
  rfl

theorem finish_related {x y : Reply RuntimeError Session Value} (h : Same x y) :
    (finish x).Related Error.SameCause Alike (finish y) := by
  cases h with
  | ok h => exact .ok (((Alike.record _ _).symm.trans h).trans (.record _ _))
  | @failed d e _ _ he h =>
    obtain ⟨cause, sp⟩ := d
    obtain ⟨cause', sp'⟩ := e
    obtain rfl : cause = cause' := he
    exact .failed ⟨cause, sp, sp', rfl, rfl⟩ h
  | exhausted => exact .exhausted

theorem interpret_join
    (hr : Stmt.bareList r.statements = Stmt.bareList (p.statements ++ q.statements))
    (hp : interpret rounds p s = .ok v t) (hstays : ¬ p.Leaves rounds s) (hq : q.statements ≠ [])
    (hs : s.Alike s') (ht : t.Alike t') : Same (interpret rounds q t') (interpret rounds r s') := by
  obtain ⟨flow, u, hflow, hpure⟩ := Action.bind_eq_ok.mp hp
  cases hpure
  cases flow with
  | leaving w => exact absurd ⟨w, t, hflow⟩ hstays
  | next w =>
    have hfirst : Program.flow rounds ⟨p.statements ++ q.statements⟩ s = q.flow rounds t :=
      (Stmt.execFrom_append_of_next hflow).trans
        (congrFun (Stmt.execFrom_of_ne_nil hq w .nil) t)
    have hjoined : Same (Program.flow rounds ⟨p.statements ++ q.statements⟩ s)
        (r.flow rounds s') := Program.flow_congr hr.symm hs
    rw [hfirst] at hjoined
    have hsecond : Same (q.flow rounds t') (q.flow rounds t) := Program.flow_congr rfl ht.symm
    exact (hsecond.trans hjoined).bind fun flow x x' hx => .ok hx

/-- Two texts that are parsed, run one after the other, end as the two do when they are run as one with
a newline between them, if the first leaves no comment open and is not left by a `return`, and the
second holds a statement. -/
theorem run_join {first second : String} (hp : Program.ofSource first = .ok p)
    (hq : Program.ofSource second = .ok q) (hclosed : ¬ Lexer.EndsInComment first)
    (hne : q.statements ≠ []) (hrun : run rounds first s = .ok v t) (hstays : ¬ p.Leaves rounds s) :
    (run rounds second t).Related Error.SameCause Alike
      (run rounds (first ++ "\n" ++ second) s) := by
  obtain ⟨r, hr, hbare⟩ := Program.ofSource_join hp hq hclosed
  rw [run_of_ofSource hq, run_of_ofSource hr]
  rw [run_of_ofSource hp] at hrun
  have hstart : ∀ a b, s.Alike ((s.record a).record b) := fun a b =>
    (Alike.record s a).trans (.record _ b)
  generalize hu : interpret rounds p _ = reply at hrun
  cases reply with
  | ok w u =>
    cases hrun
    refine finish_related (interpret_join hbare hu ?_ hne ?_ ?_)
    · exact fun hleaves => hstays (hleaves.congr (hstart _ _).symm)
    · exact (hstart _ _).symm.trans (hstart _ _)
    · exact (Alike.record _ _).trans ((Alike.record _ _).trans (.record _ _))
  | failed e u => cases hrun
  | exhausted => cases hrun

/-- The second text calls a function of the first, which ends in a comment. -/
theorem run_join_comment : ∃ v t, run 1 "x = 'a'; fn f() \x7b return y; \x7d // y" (fresh .unlimited) =
      .ok v t ∧
    (run 1 "f();" t).Related Error.SameCause Alike
      (run 1 ("x = 'a'; fn f() \x7b return y; \x7d // y" ++ "\n" ++ "f();") (fresh .unlimited)) := by
  have hfirst : (Program.ofSource "x = 'a'; fn f() \x7b return y; \x7d // y").toOption.map
      (fun p => match p.flow 1 (fresh .unlimited) with
        | .ok (.leaving _) _ => true
        | _ => false) = some false := by decide +kernel
  have hsecond : (Program.ofSource "f();").toOption.map (·.statements.length) = some 1 := by
    decide +kernel
  have hrun : (match run 1 "x = 'a'; fn f() \x7b return y; \x7d // y" (fresh .unlimited) with
      | .ok _ _ => true
      | _ => false) = true := by decide +kernel
  obtain ⟨p, hp, hflow⟩ := Option.map_eq_some_iff.mp hfirst
  obtain ⟨q, hq, hlength⟩ := Option.map_eq_some_iff.mp hsecond
  split at hrun
  · next v t hvt =>
    refine ⟨v, t, hvt, run_join (eq_ok_of_toOption hp) (eq_ok_of_toOption hq) ?_ ?_ hvt ?_⟩
    · exact Lexer.not_endsInComment (by decide +kernel)
    · intro hnil
      rw [hnil] at hlength
      cases hlength
    · rintro ⟨w, u, hleaves⟩
      rw [hleaves] at hflow
      cases hflow
  · cases hrun

end Session
end Dvilipi
