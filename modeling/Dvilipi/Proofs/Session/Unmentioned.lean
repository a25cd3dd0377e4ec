import Dvilipi.Proofs.Session.Declarations
import Dvilipi.Proofs.Session.Frame
import Dvilipi.Proofs.Session.Unseen

/-!
Variables that are not mentioned. A variable that neither the program nor a stored body reads, assigns
or declares flows into nothing: sessions that differ only in what it is bound to give the same, and it
stays bound as it is. Runs store bodies that came with the program, so the condition stays in force.
-/

namespace Dvilipi
set_option autoImplicit false

/-- The expression itself neither reads nor assigns `x`; functions have names of their own. -/
def Expr.Avoids (x : String) : Expr → Prop
  | .reference y _ => y ≠ x
  | .assign y _ _ => y ≠ x
  | _ => True

/-- The statement itself does not declare `x`. -/
def Stmt.Avoids (x : String) : Stmt → Prop
  | .binding y _ _ _ _ => y ≠ x
  | _ => True

/-- The program mentions `x` nowhere, the bodies of its functions included. -/
def Program.Avoids (x : String) (p : Program) : Prop := p.Every (Expr.Avoids x) (Stmt.Avoids x)

variable {x : String}

mutual

theorem Expr.Every.notMem_targets {e : Expr} (h : e.Every (Expr.Avoids x)) : x ∉ e.targets := by
  cases e with
  | number value sp => exact List.not_mem_nil
  | string text sp => exact List.not_mem_nil
  | reference y sp => exact List.not_mem_nil
  | assign y e sp =>
    obtain ⟨hy, he⟩ := h
    exact List.not_mem_cons_of_ne_of_not_mem (Ne.symm hy) (Expr.Every.notMem_targets he)
  | binary op a b sp =>
    obtain ⟨-, ha, hb⟩ := h
    exact List.not_mem_append (Expr.Every.notMem_targets ha) (Expr.Every.notMem_targets hb)
  | logical op a b sp =>
    obtain ⟨-, ha, hb⟩ := h
    exact List.not_mem_append (Expr.Every.notMem_targets ha) (Expr.Every.notMem_targets hb)
  | unary op e sp =>
    obtain ⟨-, he⟩ := h
    change x ∉ e.targets
    exact Expr.Every.notMem_targets he
  | call f es sp =>
    obtain ⟨-, hes⟩ := h
    exact Expr.EveryOf.notMem_targets hes
termination_by structural e

theorem Expr.EveryOf.notMem_targets {es : List Expr} (h : Expr.EveryOf (Expr.Avoids x) es) :
    x ∉ Expr.targetsOfList es := by
  cases es with
  | nil => exact List.not_mem_nil
  | cons e es =>
    exact List.not_mem_append (Expr.Every.notMem_targets h.1) (Expr.EveryOf.notMem_targets h.2)
termination_by structural es

end

mutual

theorem Stmt.Every.notMem_targets {stmt : Stmt}
    (h : stmt.Every (Expr.Avoids x) (Stmt.Avoids x)) : x ∉ stmt.targets := by
  cases stmt with
  | function f ps result body sp => exact List.not_mem_nil
  | binding y constant type initial sp =>
    obtain ⟨hy, he⟩ := h
    cases initial with
    | none => exact List.not_mem_nil
    | some e => exact List.not_mem_cons_of_ne_of_not_mem (Ne.symm hy) (he e rfl).notMem_targets
  | expression e sp => exact Expr.Every.notMem_targets h.2
  | ifThen c yes sp =>
    obtain ⟨-, hc, hyes⟩ := h
    exact List.not_mem_append hc.notMem_targets (Block.Every.notMem_targets hyes)
  | ifElse c yes no sp =>
    obtain ⟨-, hc, hyes, hno⟩ := h
    have hbranches := List.not_mem_append (Block.Every.notMem_targets hyes)
      (Block.Every.notMem_targets hno)
    exact List.not_mem_append hc.notMem_targets hbranches
  | while_ c body sp =>
    obtain ⟨-, hc, hbody⟩ := h
    exact List.not_mem_append hc.notMem_targets (Block.Every.notMem_targets hbody)
  | return_ value sp =>
    cases value with
    | none => exact List.not_mem_nil
    | some e => exact (h.2 e rfl).notMem_targets
termination_by structural stmt

theorem Block.Every.notMem_targets {b : Block}
    (h : b.Every (Expr.Avoids x) (Stmt.Avoids x)) : x ∉ b.targets := by
  cases b with
  | mk statements sp =>
    have hstatements : Stmt.EveryOf (Expr.Avoids x) (Stmt.Avoids x) statements := h
    exact Stmt.EveryOf.notMem_targets hstatements
termination_by structural b

theorem Stmt.EveryOf.notMem_targets {stmts : List Stmt}
    (h : Stmt.EveryOf (Expr.Avoids x) (Stmt.Avoids x) stmts) : x ∉ Stmt.targetsOfList stmts := by
  cases stmts with
  | nil => exact List.not_mem_nil
  | cons stmt stmts =>
    exact List.not_mem_append (Stmt.Every.notMem_targets h.1) (Stmt.EveryOf.notMem_targets h.2)
termination_by structural stmts

end

theorem Program.Avoids.notMem_targets {p : Program} (h : p.Avoids x) : x ∉ p.targets :=
  Stmt.EveryOf.notMem_targets h

namespace Session

/-- The sessions differ at most in what `x` is bound to. -/
structure Apart (x : String) (s t : Session) : Prop where
  natives : s.natives = t.natives
  functions : s.functions = t.functions
  sink : s.sink = t.sink
  depth : s.depth = t.depth
  log : s.log = t.log
  environment : ∀ y, y ≠ x → s.binding? y = t.binding? y

/-- No body that the session stores mentions `x`. -/
def Avoids (x : String) (s : Session) : Prop := s.Every (Expr.Avoids x) (Stmt.Avoids x)

namespace Apart

variable {s t s' t' : Session}

/-- Also if it is `x` itself that is bound, or bound again. -/
theorem define (h : Apart x s t) (y : String) (v : Value) :
    Apart x (s.define y v) (t.define y v) := by
  refine ⟨h.natives, h.functions, h.sink, h.depth, h.log, fun z hz => ?_⟩
  simp only [binding?, Session.define, Table.get?_insert]
  split
  · rfl
  · exact h.environment z hz

theorem declare (h : Apart x s t) (d : Definition) : Apart x (s.declare d) (t.declare d) :=
  ⟨h.natives, congrArg (·.insert d.name d) h.functions, h.sink, h.depth,
    congrArg (·.push (.registering d.name d.parameters.length)) h.log, h.environment⟩

/-- A parameter may be called `x`: then both bodies find the same there, or what they had before. -/
theorem callee (h : Apart x s t) (d : Definition) (vs : List Value) :
    Apart x (Run.calleeState d vs s) (Run.calleeState d vs t) := by
  refine ⟨h.natives, h.functions, h.sink, congrArg (· + 1) h.depth, h.log, fun y hy => ?_⟩
  have hbefore : s.environment.get? y = t.environment.get? y := h.environment y hy
  simp only [binding?, Run.calleeState, Table.get?_insertAll, hbefore]

theorem caller (h : Apart x s t) (h' : Apart x s' t') :
    Apart x (Run.callerState s s') (Run.callerState t t') :=
  ⟨h'.natives, h'.functions, h'.sink, congrArg (· - 1) h'.depth, h'.log, h.environment⟩

end Apart

theorem unseen_apart : Semantics.Unseen (Expr.Avoids x) (Stmt.Avoids x)
    (fun s t => Apart x s t ∧ s.Avoids x) where
  natives h := h.1.natives
  functions h _ := congrArg (Table.get? · _) h.1.functions
  sink h := h.1.sink
  depth h := h.1.depth
  reference hy h := h.1.environment _ hy
  bodies h _ hf := h.2 _ _ hf
  write _ h := ⟨⟨h.1.natives, h.1.functions, rfl, h.1.depth, h.1.log, h.1.environment⟩, h.2⟩
  assign _ h := ⟨h.1.define _ _, h.2⟩
  binding _ h := ⟨h.1.define _ _, h.2⟩
  declare hstmt h := ⟨h.1.declare _, Every.declare h.2 hstmt.2⟩
  callee vs _ _ _ h := ⟨h.1.callee _ vs, h.2⟩
  caller h h' := ⟨h.1.caller h'.1, h'.2⟩

variable {s t : Session} {p : Program}

/-- No program can tell sessions apart that differ in a variable only which neither the program nor a
stored body mentions: it runs out of rounds in both, or it ends in both with the same value or error,
output, functions and log. The variables that are left differ at most where they did before, and on
either side that variable keeps what it was bound to. Functions and parameters may be called like it. -/
theorem interpret_unmentioned (h : Apart x s t) (hp : p.Avoids x) (hs : s.Avoids x) (rounds : Nat) :
    (interpret rounds p s).Related Eq
      (fun s' t' => (Apart x s' t' ∧ s'.Avoids x) ∧ s'.binding? x = s.binding? x ∧
        t'.binding? x = t.binding? x)
      (interpret rounds p t) := by
  have hkept : ∀ {u u' : Session} {r : Except RuntimeError Value},
      interpret rounds p u = .ending r u' → u'.binding? x = u.binding? x :=
    fun hend => (Semantics.runs_of_interpret hend).binding?_eq hp.notMem_targets
  have hruns := unseen_apart.interpret hp ⟨h, hs⟩ rounds
  exact hruns.ending fun hleft hright h' => ⟨h', hkept hleft, hkept hright⟩

/-- One session binds `x` and the other does not. A stored function is called with another variable; it
declares a function under its own name, which the program calls next, and that one fails. -/
theorem interpret_unmentioned_failing :
    ∃ s t u : Session, ∃ p : Program, ∃ e : RuntimeError,
      Apart "x" s t ∧ s.binding? "x" ≠ t.binding? "x" ∧ p.Avoids "x" ∧ s.Avoids "x" ∧
      s.functions.size = 1 ∧ u.functions.size = 2 ∧ interpret 0 p s = .failed e u ∧
      (interpret 0 p s).Related Eq
        (fun s' t' => (Apart "x" s' t' ∧ s'.Avoids "x") ∧ s'.binding? "x" = s.binding? "x" ∧
          t'.binding? "x" = t.binding? "x")
        (interpret 0 p t) := by
  let sp : Span := ⟨0, 0⟩
  let inner : Block := .mk [.expression (.assign "y" (.reference "z" sp) sp) sp] sp
  let outer : Block := .mk [.function "g" [] none inner sp, .expression (.reference "n" sp) sp] sp
  let argument : Expr := .assign "y" (.string "kept" sp) sp
  let p : Program := ⟨[.expression (.call "f" [argument] sp) sp, .expression (.call "g" [] sp) sp]⟩
  let t : Session := (Session.fresh .unlimited).declare ⟨"f", ["n"], outer⟩
  let s : Session := t.define "x" (.string "kept")
  have hp : p.Avoids "x" := by
    simp [p, argument, Program.Avoids, Program.Every, Stmt.EveryOf, Stmt.Every, Expr.Every,
      Expr.EveryOf, Expr.Avoids, Stmt.Avoids]
  have houter : outer.Every (Expr.Avoids "x") (Stmt.Avoids "x") := by
    simp [outer, inner, Block.Every, Stmt.EveryOf, Stmt.Every, Expr.Every, Expr.Avoids, Stmt.Avoids]
  have hs : s.Avoids "x" := Every.declare (every_fresh _ _ _) houter
  have h : Apart "x" s t :=
    ⟨rfl, rfl, rfl, rfl, rfl, fun y hy => binding?_define (Ne.symm hy) t (.string "kept")⟩
  exact ⟨s, t, _, p, _, h, nofun, hp, hs, rfl, rfl, rfl, interpret_unmentioned h hp hs 0⟩

end Session
end Dvilipi
