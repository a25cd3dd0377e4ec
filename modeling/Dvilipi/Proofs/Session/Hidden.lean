import Dvilipi.Proofs.Session.Unseen

/-!
Functions that programs declare under the names of natives. A call finds the native first, so such a
function is never entered, and nothing else looks at it.
-/

namespace Dvilipi
set_option autoImplicit false

namespace Session

/-- The sessions differ in the log and in declared functions that a native hides only. -/
structure Shadows (s t : Session) : Prop where
  natives : s.natives = t.natives
  functions : ∀ name, s.natives.contains name = false →
    s.functions.get? name = t.functions.get? name
  environment : s.environment = t.environment
  sink : s.sink = t.sink
  depth : s.depth = t.depth

variable {s t : Session}

theorem shadows_declare {d : Definition} (hd : s.natives.contains d.name = true) :
    (s.declare d).Shadows s := by
  refine ⟨rfl, fun name hname => ?_, rfl, rfl, rfl⟩
  have hne : d.name ≠ name := fun heq => by
    have hnone : s.natives.contains name = false := hname
    rw [heq, hnone] at hd
    cases hd
  exact Table.get?_insert_of_ne hne _ _

theorem Shadows.refl (s : Session) : s.Shadows s := ⟨rfl, fun _ _ => rfl, rfl, rfl, rfl⟩

theorem Shadows.record (h : s.Shadows t) (e e' : Event) : (s.record e).Shadows (t.record e') :=
  ⟨h.natives, h.functions, h.environment, h.sink, h.depth⟩

theorem Shadows.trans {u : Session} (h : s.Shadows t) (h' : t.Shadows u) : s.Shadows u :=
  ⟨h.natives.trans h'.natives,
    fun name hname => (h.functions name hname).trans (h'.functions name (h.natives ▸ hname)),
    h.environment.trans h'.environment, h.sink.trans h'.sink, h.depth.trans h'.depth⟩

theorem Shadows.declare (h : s.Shadows t) (d : Definition) :
    (s.declare d).Shadows (t.declare d) := by
  refine ⟨h.natives, fun name hname => ?_, h.environment, h.sink, h.depth⟩
  simp only [Session.declare, Table.get?_insert]
  split
  · rfl
  · exact h.functions name hname

theorem Shadows.define (h : s.Shadows t) (x : String) (v : Value) :
    (s.define x v).Shadows (t.define x v) :=
  ⟨h.natives, h.functions, congrArg (·.insert x v) h.environment, h.sink, h.depth⟩

theorem Shadows.callee (h : s.Shadows t) (d : Definition) (vs : List Value) :
    (Run.calleeState d vs s).Shadows (Run.calleeState d vs t) :=
  ⟨h.natives, h.functions, congrArg (·.insertAll (d.parameters.zip vs)) h.environment, h.sink,
    congrArg (· + 1) h.depth⟩

theorem Shadows.caller {s' t' : Session} (h : s.Shadows t) (h' : s'.Shadows t') :
    (Run.callerState s s').Shadows (Run.callerState t t') :=
  ⟨h'.natives, h'.functions, h.environment, h'.sink, congrArg (· - 1) h'.depth⟩

theorem unseen_shadows : Semantics.Unseen (fun _ => True) Stmt.Any Shadows where
  natives h := h.natives
  functions h hn := h.functions _ (by rw [Table.contains, hn]; rfl)
  sink h := h.sink
  depth h := h.depth
  reference _ h := by rw [h.environment]
  bodies _ _ _ := (Block.every_iff _).mpr fun _ _ => trivial
  write sink h := ⟨h.natives, h.functions, h.environment, rfl, h.depth⟩
  assign _ h := h.define _ _
  binding _ h := h.define _ _
  declare _ h := h.declare _
  callee vs _ _ _ h := h.callee _ vs
  caller h h' := h.caller h'

theorem Shadows.interpret (h : s.Shadows t) (rounds : Nat) (p : Program) :
    (interpret rounds p s).Related Eq Shadows (interpret rounds p t) :=
  unseen_shadows.interpret ((Stmt.everyOf_iff_parts p.statements).mpr fun _ _ => trivial) h rounds

theorem Shadows.run (h : s.Shadows t) (rounds : Nat) (source : String) :
    (run rounds source s).Related Eq Shadows (run rounds source t) := by
  unfold Session.run
  dsimp only
  cases Program.ofSource source with
  | error e => exact .failed rfl (h.record _ _)
  | ok p =>
    let parsed : Event := .parsing source.length
    let started : Event := .interpreting p.statements.length
    have hp := ((h.record parsed parsed).record started started).interpret rounds p
    dsimp only
    generalize Session.interpret rounds p ((s.record parsed).record started) = r,
      Session.interpret rounds p ((t.record parsed).record started) = r' at hp ⊢
    cases hp with
    | ok hu => exact .ok (hu.record _ _)
    | failed he hu => exact .failed (congrArg Error.runtime he) hu
    | exhausted => exact .exhausted

/-- No program can tell whether functions are declared under the names of natives: its value or error,
its output and its variables are the same, and so are the functions under all other names afterwards.
In particular a declaration under the name of a native changes no run that comes after it. -/
theorem interpret_hidden (rounds : Nat) (p : Program) (s t : Session) (h : s.Shadows t) :
    (interpret rounds p s).Related Eq Shadows (interpret rounds p t) ∧
      ∀ d : Definition, s.natives.contains d.name = true →
        (interpret rounds p (s.declare d)).Related Eq Shadows (interpret rounds p t) :=
  ⟨h.interpret rounds p, fun _ hd => ((shadows_declare hd).trans h).interpret rounds p⟩

/-- One session has a function under the name of a native already, and the program declares another one
in a body before it calls the native. -/
theorem interpret_hidden_nested :
    ∃ s t u : Session, ∃ p : Program, s.functions.contains "typeof" = true ∧
      t.functions.contains "typeof" = false ∧ s.Shadows t ∧
      interpret 0 p s = .ok (.string "string") u ∧ u.functions.contains "typeof" = true ∧
      (interpret 0 p s).Related Eq Shadows (interpret 0 p t) := by
  let sp : Span := ⟨0, 0⟩
  let body : Block := .mk [.expression (.string "hidden" sp) sp] sp
  let outer : Block := .mk [.function "typeof" [] none body sp] sp
  let call : Expr := .call "typeof" [.string "kept" sp] sp
  let p : Program := ⟨[.function "f" [] none outer sp, .expression (.call "f" [] sp) sp,
    .expression call sp]⟩
  let t : Session := .fresh .unlimited
  have h : (t.declare ⟨"typeof", ["x"], body⟩).Shadows t := shadows_declare rfl
  exact ⟨_, t, _, p, rfl, rfl, h, rfl, rfl, (interpret_hidden 0 p _ t h).1⟩

end Session
end Dvilipi
