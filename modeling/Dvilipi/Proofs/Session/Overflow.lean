import Dvilipi.Proofs.Session.Budget
import Dvilipi.Proofs.Session.Kept

/-!
Where the output goes beyond its limit. Output only grows, so there is one line that does not fit: a run
with the limit fails in whatever call of `print` writes a line across it, and a run fails in one way
only. In sessions without further natives this is all that a full sink can do.
-/

namespace Dvilipi
set_option autoImplicit false

namespace Semantics

section

variable {s t : Session} {a b : Task}

theorem every_any (s : Session) : s.Every (fun _ => True) Stmt.Any :=
  fun _ d _ => d.body.every_iff.mpr fun _ _ => trivial

theorem Evaluates.natives_eq {e : Expr} {r : Except RuntimeError Value} (h : Evaluates e s r t) :
    t.natives = s.natives :=
  (h.keeps (e.every_iff.mpr fun _ _ => trivial) (every_any s)).natives

theorem EvaluatesAll.natives_eq {es : List Expr} {r : Except RuntimeError (List Value)}
    (h : EvaluatesAll es s r t) : t.natives = s.natives :=
  (h.keeps ((Expr.everyOf_iff_parts es).mpr fun _ _ => trivial) (every_any s)).natives

theorem Executes.natives_eq {stmt : Stmt} {r : Except RuntimeError Flow} (h : Executes stmt s r t) :
    t.natives = s.natives :=
  (h.keeps (stmt.every_iff.mpr fun _ _ => trivial) (every_any s)).natives

theorem Sequence.natives_eq {last : Value} {stmts : List Stmt} {r : Except RuntimeError Flow}
    (h : Sequence last stmts s r t) : t.natives = s.natives :=
  (h.keeps ((Stmt.everyOf_iff_parts stmts).mpr fun _ _ => trivial) (every_any s)).natives

theorem Begins.natives_eq (h : Begins a s b t) : t.natives = s.natives := by
  cases h with
  | body hn hf hes hd => exact hes.natives_eq
  | binary_right ha => exact ha.natives_eq
  | and_right ha _ => exact ha.natives_eq
  | or_right ha _ => exact ha.natives_eq
  | tail he => exact he.natives_eq
  | then_taken hc _ => exact hc.natives_eq
  | else_yes hc _ => exact hc.natives_eq
  | else_no hc _ => exact hc.natives_eq
  | while_body hc _ => exact hc.natives_eq
  | while_again hc _ hbody => exact hbody.natives_eq.trans hc.natives_eq
  | following hs => exact hs.natives_eq
  | _ => rfl

theorem Visits.natives_eq (h : Visits a s b t) : t.natives = s.natives := by
  induction h with
  | here => rfl
  | next _ hbegins ih => exact hbegins.natives_eq.trans ih

theorem usesBuiltins_of_natives_eq (h : s.natives = Session.builtins) (a : Task) :
    UsesBuiltins a s := by
  intro f es sp t native hvisit hnative
  rw [hvisit.natives_eq, h] at hnative
  simp only [Session.builtins, Table.get?_insert, Table.get?_empty] at hnative
  split at hnative
  · exact .inr (Option.some.inj hnative).symm
  · split at hnative
    · exact .inl (Option.some.inj hnative).symm
    · split at hnative
      · exact .inl (Option.some.inj hnative).symm
      · cases hnative

end

/-- A part of a run led from `s` to `t` and wrote nothing but more output; if this fits into `n` bytes,
then `again`. -/
structure Prolonged (n : Nat) (s t : Session) (again : Prop) : Prop where
  unlimited : t.Unlimited
  size_le : s.sink.stored.size ≤ t.sink.stored.size
  again : t.sink.stored.size ≤ n → again

namespace Prolonged

variable {n : Nat} {s t u : Session} {P Q : Prop}

theorem self (hs : s.Unlimited) (h : P) : Prolonged n s s P := ⟨hs, Nat.le_refl _, fun _ => h⟩

theorem imp (h : Prolonged n s t P) (f : P → Q) : Prolonged n s t Q :=
  ⟨h.unlimited, h.size_le, fun hle => f (h.again hle)⟩

theorem trans (h : Prolonged n s t P) (h' : Prolonged n t u Q) : Prolonged n s u (P ∧ Q) :=
  ⟨h'.unlimited, Nat.le_trans h.size_le h'.size_le,
    fun hle => ⟨h.again (Nat.le_trans h'.size_le hle), h'.again hle⟩⟩

end Prolonged

section

variable {n : Nat} {s t u : Session} {a b : Task}

theorem Capped.prolonged {C : Span → Prop} {α : Type} {r : Except RuntimeError α}
    {reply : Reply RuntimeError Session α} {P : Prop} (h : Capped n C s r t reply)
    (hagain : reply = .ending r (t.limited n) → P) : Prolonged n s t P := by
  obtain ⟨more, hmore⟩ := h.grows
  refine ⟨h.unlimited, ?_, fun hle => hagain (h.within hle)⟩
  rw [hmore, ByteArray.size_append]
  exact Nat.le_add_right _ _

theorem UsesBuiltins.visits (h : UsesBuiltins a s) (hvisit : Visits a s b t) : UsesBuiltins b t :=
  fun f es sp u native hu => h f es sp u native (hvisit.trans hu)

theorem UsesBuiltins.begins (h : UsesBuiltins a s) (hbegins : Begins a s b t) : UsesBuiltins b t :=
  h.visits (.next .here hbegins)

theorem Evaluates.prolonged {e : Expr} {r : Except RuntimeError Value} (h : Evaluates e s r t)
    (hb : UsesBuiltins (.expr e) s) (hs : s.Unlimited) :
    Prolonged n s t (Evaluates e (s.limited n) r (t.limited n)) := by
  obtain ⟨rounds, hrun⟩ := h.ample.bounded
  have hcapped := caps_eval (metered_enter n hb rounds _) e hs .here r t hrun
  exact hcapped.prolonged fun h => evaluates_of_eval (sound_enter rounds _) e h

theorem EvaluatesAll.prolonged {es : List Expr} {r : Except RuntimeError (List Value)}
    (h : EvaluatesAll es s r t) (hb : UsesBuiltins (.list es) s) (hs : s.Unlimited) :
    Prolonged n s t (EvaluatesAll es (s.limited n) r (t.limited n)) := by
  obtain ⟨rounds, hrun⟩ := h.ample.bounded
  have hcapped := caps_evalList (metered_enter n hb rounds _) es hs .here r t hrun
  exact hcapped.prolonged fun h => evaluatesAll_of_evalList (sound_enter rounds _) es h

theorem Executes.prolonged {stmt : Stmt} {r : Except RuntimeError Flow} (h : Executes stmt s r t)
    (hb : UsesBuiltins (.statement stmt) s) (hs : s.Unlimited) :
    Prolonged n s t (Executes stmt (s.limited n) r (t.limited n)) := by
  obtain ⟨rounds, hrun⟩ := h.ample.bounded
  have hcapped := caps_exec (metered_enter n hb rounds _) stmt hs .here r t (exec_of_unrolled hrun)
  exact hcapped.prolonged fun h => executes_of_exec (sound_enter rounds _) stmt h

theorem Sequence.prolonged {last : Value} {stmts : List Stmt} {r : Except RuntimeError Flow}
    (h : Sequence last stmts s r t) (hb : UsesBuiltins (.sequence last stmts) s)
    (hs : s.Unlimited) : Prolonged n s t (Sequence last stmts (s.limited n) r (t.limited n)) := by
  obtain ⟨rounds, hrun⟩ := h.ample.bounded
  have hcapped := caps_execFrom (metered_enter n hb rounds _) stmts hs .here r t hrun
  exact hcapped.prolonged fun h => sequence_of_execFrom (sound_enter rounds _) stmts h

/-- The task, begun in `s`, ends with the error. -/
def Task.Fails (err : RuntimeError) : Task → Session → Prop
  | .expr e, s => ∃ t, Evaluates e s (.error err) t
  | .list es, s => ∃ t, EvaluatesAll es s (.error err) t
  | .statement stmt, s => ∃ t, Executes stmt s (.error err) t
  | .sequence last stmts, s => ∃ t, Sequence last stmts s (.error err) t

/-- An error ends the task that began the one which raised it. -/
theorem Begins.prolonged (h : Begins a s b t) (hb : UsesBuiltins a s) (hs : s.Unlimited) :
    Prolonged n s t (∀ err, b.Fails err (t.limited n) → a.Fails err (s.limited n)) := by
  cases h with
  | assign => exact .self hs fun err hf => hf.imp fun _ h => .assign_error h
  | binary_left => exact .self hs fun err hf => hf.imp fun _ h => .binary_left h
  | binary_right ha =>
    exact (ha.prolonged (hb.begins .binary_left) hs).imp
      fun ha' err hf => hf.imp fun _ h => .binary_right ha' h
  | logical_left => exact .self hs fun err hf => hf.imp fun _ h => .logical_error h
  | and_right ha hv =>
    exact (ha.prolonged (hb.begins .logical_left) hs).imp
      fun ha' err hf => hf.imp fun _ h => .and_right ha' hv h
  | or_right ha hv =>
    exact (ha.prolonged (hb.begins .logical_left) hs).imp
      fun ha' err hf => hf.imp fun _ h => .or_right ha' hv h
  | unary => exact .self hs fun err hf => hf.imp fun _ h => .unary_error h
  | arguments hfun => exact .self hs fun err hf => hf.imp fun _ h => .arguments_error hfun h
  | body hn hf hes hd =>
    have hlist := hes.prolonged (n := n) (hb.begins (.arguments (hasFunction_user hf))) hs
    refine ⟨hlist.unlimited, hlist.size_le, fun hle err hfails => ?_⟩
    obtain ⟨x, hbody⟩ := hfails
    exact ⟨_, .user_error hn hf (hlist.again hle) hd hbody⟩
  | head => exact .self hs fun err hf => hf.imp fun _ h => .head_error h
  | tail he =>
    exact (he.prolonged (hb.begins .head) hs).imp
      fun he' err hf => hf.imp fun _ h => .tail_error he' h
  | binding => exact .self hs fun err hf => hf.imp fun _ h => .binding_error h
  | expression => exact .self hs fun err hf => hf.imp fun _ h => .expression_error h
  | then_condition => exact .self hs fun err hf => hf.imp fun _ h => .then_error h
  | then_taken hc hv =>
    exact (hc.prolonged (hb.begins .then_condition) hs).imp
      fun hc' err hf => hf.imp fun _ h => .then_taken hc' hv h
  | else_condition => exact .self hs fun err hf => hf.imp fun _ h => .else_error h
  | else_yes hc hv =>
    exact (hc.prolonged (hb.begins .else_condition) hs).imp
      fun hc' err hf => hf.imp fun _ h => .else_yes hc' hv h
  | else_no hc hv =>
    exact (hc.prolonged (hb.begins .else_condition) hs).imp
      fun hc' err hf => hf.imp fun _ h => .else_no hc' hv h
  | while_condition => exact .self hs fun err hf => hf.imp fun _ h => .while_error h
  | while_body hc hv =>
    exact (hc.prolonged (hb.begins .while_condition) hs).imp
      fun hc' err hf => hf.imp fun _ h => .while_body_error hc' hv h
  | while_again hc hv hbody =>
    have htest := hc.prolonged (n := n) (hb.begins .while_condition) hs
    have hround := hbody.prolonged (n := n) (hb.begins (.while_body hc hv)) htest.unlimited
    exact (htest.trans hround).imp
      fun ⟨hc', hbody'⟩ err hf => hf.imp fun _ h => .while_again hc' hv hbody' h
  | return_ => exact .self hs fun err hf => hf.imp fun _ h => .return_error h
  | first => exact .self hs fun err hf => hf.imp fun _ h => .error h
  | following hfirst =>
    exact (hfirst.prolonged (hb.begins .first) hs).imp
      fun hfirst' err hf => hf.imp fun _ h => .cons hfirst' h

theorem Visits.prolonged (h : Visits a s b t) (hb : UsesBuiltins a s) (hs : s.Unlimited) :
    Prolonged n s t (∀ err, b.Fails err (t.limited n) → a.Fails err (s.limited n)) := by
  induction h with
  | here => exact .self hs fun err hf => hf
  | next hvisit hbegins ih =>
    have hreached := ih hb hs
    have hthen := hbegins.prolonged (n := n) (hb.visits hvisit) hreached.unlimited
    exact (hreached.trans hthen).imp
      fun ⟨hfirst, hthen⟩ err hf => hfirst err (hthen err hf)

theorem Crosses.fails {sp : Span} (h : Crosses n a s sp) (hb : UsesBuiltins a s)
    (hs : s.Unlimited) : a.Fails ⟨.outputFailed Sink.full, sp⟩ (s.limited n) := by
  obtain ⟨f, es, vs, t, u, hvisit, hf, hes, hle, hcross⟩ := h
  have hreached := hvisit.prolonged (n := n) hb hs
  have hbegins : Begins (.expr (.call f es sp)) t (.list es) t :=
    .arguments (hasFunction_native hf)
  have hlist := hes.prolonged (n := n) (hb.visits (hvisit.next hbegins)) hreached.unlimited
  obtain ⟨sink, hprint⟩ : ∃ sink, Native.print vs (u.limited n).sink = (.error Sink.full, sink) := by
    rw [Native.print, Session.limited, Sink.write_limitedTo_of_lt hle hcross]
    exact ⟨_, rfl⟩
  exact hreached.again (Nat.le_trans hlist.size_le hle) _
    ⟨_, .native_error hf (hlist.again hle) hprint⟩

end

end Semantics

namespace Session

/-- A program that calls no natives but the built-in ones, run with a sink that takes `n` bytes, ends as
it does with an unlimited sink if all its output fits. If not, it ends with the failure of the call of
`print` whose line goes beyond the limit, and the first `n` bytes of the output are stored. -/
theorem interpret_limited {rounds n : Nat} {p : Program} {s t : Session}
    {r : Except RuntimeError Value}
    (hb : Semantics.UsesBuiltins (.sequence .nil p.statements) s) (hs : s.Unlimited)
    (hn : s.sink.stored.size ≤ n) (h : interpret rounds p s = .ending r t) :
    (t.sink.stored.size ≤ n → interpret rounds p (s.limited n) = .ending r (t.limited n)) ∧
    (n < t.sink.stored.size → ∃ sp u,
      interpret rounds p (s.limited n) = .ending (.error ⟨.outputFailed Sink.full, sp⟩) u ∧
      (∀ sp', Semantics.Crosses n (.sequence .nil p.statements) s sp' ↔ sp' = sp) ∧
      u.sink.stored = t.sink.stored.extract 0 n) := by
  have hcapped := Semantics.caps_interpret n hb hs rounds r t h
  refine ⟨hcapped.within, fun hlt => ?_⟩
  obtain ⟨sp, u, hcross, hlimited, hstored⟩ := hcapped.beyond hn hlt
  refine ⟨sp, u, hlimited, fun sp' => ⟨fun hcross' => ?_, fun heq => heq ▸ hcross⟩, hstored⟩
  obtain ⟨x, hfails⟩ := hcross'.fails hb hs
  have herror := (Semantics.Runs.error hfails).unique (Semantics.runs_of_interpret hlimited)
  exact congrArg RuntimeError.span (Except.error.inj herror.1)

/-- The line that does not fit is written by a function that is called in the arguments of another
call. -/
theorem interpret_limited_argument :
    ∃ s t u : Session, ∃ p : Program, s.natives = builtins ∧ s.Unlimited ∧
      interpret 0 p s = .ending (.ok .nil) t ∧ t.sink.stored = "ab\ncd\nef\n".toUTF8 ∧
      interpret 0 p (s.limited 9) = .ending (.ok .nil) (t.limited 9) ∧
      interpret 0 p (s.limited 4) = .ending (.error ⟨.outputFailed Sink.full, ⟨1, 2⟩⟩) u ∧
      Semantics.Crosses 4 (.sequence .nil p.statements) s ⟨1, 2⟩ ∧
      u.sink.stored = "ab\nc".toUTF8 := by
  let sp : Span := ⟨0, 0⟩
  let print (e : Expr) (sp : Span) : Expr := .call "print" [e] sp
  let body : Block := .mk [.expression (print (.string "cd" sp) ⟨1, 2⟩) sp,
    .return_ (some (.string "ef" sp)) sp] sp
  let p : Program := ⟨[.function "f" [] none body sp, .expression (print (.string "ab" sp) sp) sp,
    .expression (print (.call "f" [] sp) sp) sp]⟩
  let s : Session := .fresh .unlimited
  let t : Session :=
    { s.declare ⟨"f", [], body⟩ with sink := ⟨"ab\ncd\nef\n".toUTF8, none, false⟩ }
  have hrun : interpret 0 p s = .ending (.ok .nil) t := rfl
  have hb := Semantics.usesBuiltins_of_natives_eq (s := s) rfl (.sequence .nil p.statements)
  have hsize : t.sink.stored.size = 9 := by decide +kernel
  have hfits := (interpret_limited (n := 9) hb rfl (Nat.zero_le _) hrun).1 (Nat.le_of_eq hsize)
  obtain ⟨sp', u, hlimited, hcross, hstored⟩ :=
    (interpret_limited (n := 4) hb rfl (Nat.zero_le _) hrun).2 (by omega)
  have hspan : sp' = ⟨1, 2⟩ := by
    have hcut : interpret 0 p (s.limited 4) = .ending (.error ⟨.outputFailed Sink.full, ⟨1, 2⟩⟩) _ :=
      rfl
    have herror := (Reply.ending_inj (hlimited.symm.trans hcut)).1
    exact congrArg RuntimeError.span (Except.error.inj herror)
  subst hspan
  refine ⟨s, t, u, p, rfl, rfl, hrun, rfl, hfits, hlimited, (hcross _).mpr rfl, ?_⟩
  rw [hstored]
  decide +kernel

end Session
end Dvilipi
