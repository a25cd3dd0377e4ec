import Dvilipi.Proofs.Semantics.Begun
import Dvilipi.Proofs.Session.Kept
import Dvilipi.Proofs.Session.Table
import Dvilipi.Proofs.Tree.Declarations

/-!
What a run does to the functions of a session. Only declarations that are run store functions, and each
of them is recorded in the log, so the length of the log tells when it was run. All of them count, also
those in bodies whose variables are gone when the call ends, and those in calls that fail.
-/

namespace Dvilipi
set_option autoImplicit false

/-- What the log says of a declaration that is run. -/
def Definition.registration (d : Definition) : Event := .registering d.name d.parameters.length

namespace Semantics

/-- The definition that the task stores itself, if it is a declaration of a function. -/
def Task.declared? : Task → Option Definition
  | .statement stmt => stmt.declared?
  | _ => none

/-- A declaration of the function begins in `x` while `a`, begun in `s`, is run. -/
def Declares (a : Task) (s : Session) (d : Definition) (x : Session) : Prop :=
  ∃ b, Visits a s b x ∧ b.declared? = some d

/-- The functions and the log are the same in both sessions; nothing is said of the rest. -/
structure SameFunctions (s t : Session) : Prop where
  log : t.log = s.log
  functions : t.functions = s.functions

/-- From `s` to `t` the declarations `ds` are run, one after the other: those that `D` tells, each when
so many others have been recorded as stand in front of it. -/
structure Logged (D : Definition → Session → Prop) (s t : Session) (ds : List Definition) : Prop where
  log : t.log.toList = s.log.toList ++ ds.map Definition.registration
  functions : t.functions = s.functions.insertAll (ds.map fun d => (d.name, d))
  sound : ∀ k d, ds[k]? = some d → ∃ x, D d x ∧ x.log.size = s.log.size + k
  complete : ∀ d x, D d x → ∃ k, ds[k]? = some d ∧ x.log.size = s.log.size + k

namespace Logged

variable {D D' : Definition → Session → Prop} {s t u : Session} {ds es : List Definition}

theorem size_eq (h : Logged D s t ds) : t.log.size = s.log.size + ds.length := by
  have hlength := congrArg List.length h.log
  simpa using hlength

theorem nil (hD : ∀ d x, ¬ D d x) (h : SameFunctions s t) : Logged D s t [] :=
  ⟨by simp [h.log], h.functions, by simp, fun d x hx => absurd hx (hD d x)⟩

theorem congr (h : Logged D s t ds) (hD : ∀ d x, D' d x ↔ D d x) : Logged D' s t ds := by
  refine ⟨h.log, h.functions, fun k d hk => ?_, fun d x hx => h.complete d x ((hD d x).mp hx)⟩
  obtain ⟨x, hx, hsize⟩ := h.sound k d hk
  exact ⟨x, (hD d x).mpr hx, hsize⟩

/-- Between two parts only variables, the depth and the output change. -/
theorem append {t' : Session} (h : Logged D s t ds) (hsame : SameFunctions t t')
    (h' : Logged D' t' u es) : Logged (fun d x => D d x ∨ D' d x) s u (ds ++ es) := by
  have hsize : t'.log.size = s.log.size + ds.length := hsame.log ▸ h.size_eq
  constructor
  · rw [h'.log, hsame.log, h.log, List.map_append, List.append_assoc]
  · rw [h'.functions, hsame.functions, h.functions, List.map_append, Table.insertAll_append]
  · intro k d hk
    by_cases hlt : k < ds.length
    · rw [List.getElem?_append_left hlt] at hk
      obtain ⟨x, hx, hk⟩ := h.sound k d hk
      exact ⟨x, .inl hx, hk⟩
    · rw [List.getElem?_append_right (Nat.le_of_not_lt hlt)] at hk
      obtain ⟨x, hx, hk⟩ := h'.sound _ d hk
      exact ⟨x, .inr hx, by omega⟩
  · intro d x hx
    rcases hx with hx | hx
    · obtain ⟨k, hk, hat⟩ := h.complete d x hx
      exact ⟨k, by rw [List.getElem?_append_left (List.getElem?_eq_some_iff.mp hk).1, hk], hat⟩
    · obtain ⟨k, hk, hat⟩ := h'.complete d x hx
      refine ⟨ds.length + k, ?_, by omega⟩
      rw [List.getElem?_append_right (Nat.le_add_right _ _), Nat.add_sub_cancel_left, hk]

end Logged

/-- The task, begun in `s`, runs some declarations until `t`. -/
def Task.Records (a : Task) (s t : Session) : Prop := ∃ ds, Logged (Declares a s) s t ds

/-- From `x` to `t` the task, begun in `s`, runs the parts, one after the other. -/
inductive Chain (a : Task) (s : Session) : List (Task × Session) → Session → Session → Prop where
  | nil {x t : Session} (h : SameFunctions x t) : Chain a s [] x t
  | cons {b : Task} {parts : List (Task × Session)} {x y t u : Session} (hb : Begins a s b u)
      (hsame : SameFunctions x u) (h : b.Records u y) (hrest : Chain a s parts y t) :
      Chain a s ((b, u) :: parts) x t

namespace Chain

variable {a b : Task} {s t x u : Session} {parts : List (Task × Session)}

theorem begins (h : Chain a s parts x t) : (b, u) ∈ parts → Begins a s b u := by
  induction h with
  | nil => nofun
  | cons hb _ _ _ ih =>
    intro hmem
    rcases List.mem_cons.mp hmem with heq | hmem
    · cases heq
      exact hb
    · exact ih hmem

theorem logged (h : Chain a s parts x t) :
    ∃ ds, Logged (fun d y => ∃ b u, (b, u) ∈ parts ∧ Declares b u d y) x t ds := by
  induction h with
  | nil h => exact ⟨[], .nil (by simp) h⟩
  | @cons b parts x y t u _ hsame h _ ih =>
    obtain ⟨ds, hds⟩ := h
    obtain ⟨es, hes⟩ := ih
    have hnone : Logged (fun _ _ => False) x x [] := .nil (fun _ _ => id) ⟨rfl, rfl⟩
    refine ⟨_, ((hnone.append hsame hds).append ⟨rfl, rfl⟩ hes).congr fun d z => ?_⟩
    simp [or_and_right, exists_or, and_assoc]

/-- A task that is no declaration and begins the parts only runs the declarations of the parts. -/
theorem records (h : Chain a s parts s t) (ha : a.declared? = none)
    (honly : ∀ b u, Begins a s b u → (b, u) ∈ parts) : a.Records s t := by
  obtain ⟨ds, hds⟩ := h.logged
  refine ⟨ds, hds.congr fun d x => ⟨fun hx => ?_, fun hx => ?_⟩⟩
  · obtain ⟨c, hvisit, hc⟩ := hx
    rcases visits_iff.mp hvisit with ⟨rfl, rfl⟩ | ⟨b, u, hb, hvisit⟩
    · rw [ha] at hc
      cases hc
    · exact ⟨b, u, honly b u hb, c, hvisit, hc⟩
  · obtain ⟨b, u, hmem, c, hvisit, hc⟩ := hx
    exact ⟨c, visits_iff.mpr (.inr ⟨b, u, h.begins hmem, hvisit⟩), hc⟩

theorem single (hb : Begins a s b s) (h : b.Records s x) (hsame : SameFunctions x t) :
    Chain a s [(b, s)] s t :=
  .cons hb ⟨rfl, rfl⟩ h (.nil hsame)

theorem pair {c : Task} {y : Session} (hb : Begins a s b s) (h : b.Records s x)
    (hc : Begins a s c u) (hsame : SameFunctions x u) (h' : c.Records u y)
    (hsame' : SameFunctions y t) : Chain a s [(b, s), (c, u)] s t :=
  .cons hb ⟨rfl, rfl⟩ h (.cons hc hsame h' (.nil hsame'))

end Chain

theorem records_function {f : String} {ps : List Parameter} {result : Option TypeName}
    {body : Block} {sp : Span} {s : Session} :
    (Task.statement (.function f ps result body sp)).Records s
      (s.declare ⟨f, ps.map Parameter.name, body⟩) := by
  refine ⟨[⟨f, ps.map Parameter.name, body⟩], ?_, rfl, ?_, ?_⟩
  · simp [Session.declare, Session.record, Definition.registration]
  · intro k d hk
    obtain ⟨rfl, rfl⟩ : k = 0 ∧ ⟨f, ps.map Parameter.name, body⟩ = d := by
      cases k <;> simp_all
    exact ⟨s, ⟨_, .here, rfl⟩, rfl⟩
  · intro d x hx
    obtain ⟨b, hvisit, hb⟩ := hx
    rcases visits_iff.mp hvisit with ⟨rfl, rfl⟩ | ⟨c, u, hc, -⟩
    · exact ⟨0, hb, rfl⟩
    · cases hc

-- The chain of each case lists what the rule runs; nothing else is begun.

mutual

theorem Evaluates.records {e : Expr} {s t : Session} {r : Except RuntimeError Value}
    (h : Evaluates e s r t) : (Task.expr e).Records s t := by
  match h with
  | .number => exact Chain.records (.nil ⟨rfl, rfl⟩) rfl nofun
  | .string => exact Chain.records (.nil ⟨rfl, rfl⟩) rfl nofun
  | .reference _ => exact Chain.records (.nil ⟨rfl, rfl⟩) rfl nofun
  | .undefined_variable _ => exact Chain.records (.nil ⟨rfl, rfl⟩) rfl nofun
  | .assign he =>
    exact Chain.records (.single .assign he.records ⟨rfl, rfl⟩) rfl fun c u h => by
      simpa using h.of_assign
  | .assign_error he =>
    exact Chain.records (.single .assign he.records ⟨rfl, rfl⟩) rfl fun c u h => by
      simpa using h.of_assign
  | .binary ha hb =>
    exact Chain.records (.pair .binary_left ha.records (.binary_right ha) ⟨rfl, rfl⟩ hb.records
      ⟨rfl, rfl⟩) rfl fun c u h => by simpa using h.of_binary ha
  | .binary_left ha =>
    exact Chain.records (.single .binary_left ha.records ⟨rfl, rfl⟩) rfl fun c u h => by
      simpa using h.of_binary ha
  | .binary_right ha hb =>
    exact Chain.records (.pair .binary_left ha.records (.binary_right ha) ⟨rfl, rfl⟩ hb.records
      ⟨rfl, rfl⟩) rfl fun c u h => by simpa using h.of_binary ha
  | .and_left ha hv =>
    exact Chain.records (.single .logical_left ha.records ⟨rfl, rfl⟩) rfl fun c u h => by
      simpa [LogicalOp.decides, hv] using h.of_logical ha
  | .and_right ha hv hb =>
    exact Chain.records (.pair .logical_left ha.records (.and_right ha hv) ⟨rfl, rfl⟩ hb.records
      ⟨rfl, rfl⟩) rfl fun c u h => by simpa [LogicalOp.decides, hv] using h.of_logical ha
  | .or_left ha hv =>
    exact Chain.records (.single .logical_left ha.records ⟨rfl, rfl⟩) rfl fun c u h => by
      simpa [LogicalOp.decides, hv] using h.of_logical ha
  | .or_right ha hv hb =>
    exact Chain.records (.pair .logical_left ha.records (.or_right ha hv) ⟨rfl, rfl⟩ hb.records
      ⟨rfl, rfl⟩) rfl fun c u h => by simpa [LogicalOp.decides, hv] using h.of_logical ha
  | .logical_error ha =>
    exact Chain.records (.single .logical_left ha.records ⟨rfl, rfl⟩) rfl fun c u h => by
      simpa using h.of_logical ha
  | .unary he =>
    exact Chain.records (.single .unary he.records ⟨rfl, rfl⟩) rfl fun c u h => by
      simpa using h.of_unary
  | .unary_error he =>
    exact Chain.records (.single .unary he.records ⟨rfl, rfl⟩) rfl fun c u h => by
      simpa using h.of_unary
  | .native hf hes _ =>
    exact Chain.records (.single (.arguments (hasFunction_native hf)) hes.records ⟨rfl, rfl⟩) rfl
      fun c u h => by simpa [hf] using h.of_call hes
  | .native_error hf hes _ =>
    exact Chain.records (.single (.arguments (hasFunction_native hf)) hes.records ⟨rfl, rfl⟩) rfl
      fun c u h => by simpa [hf] using h.of_call hes
  | .undefined_function hn hf =>
    refine Chain.records (.nil ⟨rfl, rfl⟩) rfl fun c u h => ?_
    have hfunction := h.hasFunction
    simp [Session.hasFunction, Table.contains, hn, hf] at hfunction
  | .arguments_error hf hes =>
    exact Chain.records (.single (.arguments hf) hes.records ⟨rfl, rfl⟩) rfl fun c u h => by
      simpa using h.of_call hes
  | .too_deep hn hf hes hd =>
    exact Chain.records (.single (.arguments (hasFunction_user hf)) hes.records ⟨rfl, rfl⟩) rfl
      fun c u h => by simpa [Nat.not_lt.mpr hd] using h.of_call hes
  | .user hn hf hes hd hbody =>
    exact Chain.records (.pair (.arguments (hasFunction_user hf)) hes.records
      (.body hn hf hes hd) ⟨rfl, rfl⟩ hbody.records ⟨rfl, rfl⟩) rfl
      fun c u h => by simpa [hn, hf, hd] using h.of_call hes
  | .user_error hn hf hes hd hbody =>
    exact Chain.records (.pair (.arguments (hasFunction_user hf)) hes.records
      (.body hn hf hes hd) ⟨rfl, rfl⟩ hbody.records ⟨rfl, rfl⟩) rfl
      fun c u h => by simpa [hn, hf, hd] using h.of_call hes
termination_by structural h

theorem EvaluatesAll.records {es : List Expr} {s t : Session}
    {r : Except RuntimeError (List Value)} (h : EvaluatesAll es s r t) :
    (Task.list es).Records s t := by
  match h with
  | .nil => exact Chain.records (.nil ⟨rfl, rfl⟩) rfl nofun
  | .cons he hes =>
    exact Chain.records (.pair .head he.records (.tail he) ⟨rfl, rfl⟩ hes.records ⟨rfl, rfl⟩) rfl
      fun c u h => by simpa using h.of_cons he
  | .head_error he =>
    exact Chain.records (.single .head he.records ⟨rfl, rfl⟩) rfl fun c u h => by
      simpa using h.of_cons he
  | .tail_error he hes =>
    exact Chain.records (.pair .head he.records (.tail he) ⟨rfl, rfl⟩ hes.records ⟨rfl, rfl⟩) rfl
      fun c u h => by simpa using h.of_cons he
termination_by structural h

theorem Executes.records {stmt : Stmt} {s t : Session} {r : Except RuntimeError Flow}
    (h : Executes stmt s r t) : (Task.statement stmt).Records s t := by
  match h with
  | .function => exact records_function
  | .binding he =>
    exact Chain.records (.single .binding he.records ⟨rfl, rfl⟩) rfl fun c u h => by
      simpa using h.of_binding
  | .binding_error he =>
    exact Chain.records (.single .binding he.records ⟨rfl, rfl⟩) rfl fun c u h => by
      simpa using h.of_binding
  | .binding_none => exact Chain.records (.nil ⟨rfl, rfl⟩) rfl nofun
  | .expression he =>
    exact Chain.records (.single .expression he.records ⟨rfl, rfl⟩) rfl fun c u h => by
      simpa using h.of_expression
  | .expression_error he =>
    exact Chain.records (.single .expression he.records ⟨rfl, rfl⟩) rfl fun c u h => by
      simpa using h.of_expression
  | .then_taken hc hv hyes =>
    exact Chain.records (.pair .then_condition hc.records (.then_taken hc hv) ⟨rfl, rfl⟩
      hyes.records ⟨rfl, rfl⟩) rfl fun c u h => by simpa [hv] using h.of_ifThen hc
  | .then_skipped hc hv =>
    exact Chain.records (.single .then_condition hc.records ⟨rfl, rfl⟩) rfl fun c u h => by
      simpa [hv] using h.of_ifThen hc
  | .then_error hc =>
    exact Chain.records (.single .then_condition hc.records ⟨rfl, rfl⟩) rfl fun c u h => by
      simpa using h.of_ifThen hc
  | .else_yes hc hv hyes =>
    exact Chain.records (.pair .else_condition hc.records (.else_yes hc hv) ⟨rfl, rfl⟩
      hyes.records ⟨rfl, rfl⟩) rfl fun c u h => by simpa [hv] using h.of_ifElse hc
  | .else_no hc hv hno =>
    exact Chain.records (.pair .else_condition hc.records (.else_no hc hv) ⟨rfl, rfl⟩
      hno.records ⟨rfl, rfl⟩) rfl fun c u h => by simpa [hv] using h.of_ifElse hc
  | .else_error hc =>
    exact Chain.records (.single .else_condition hc.records ⟨rfl, rfl⟩) rfl fun c u h => by
      simpa using h.of_ifElse hc
  | .while_done hc hv =>
    exact Chain.records (.single .while_condition hc.records ⟨rfl, rfl⟩) rfl fun c u h => by
      simpa [hv] using h.of_while hc
  | .while_again hc hv hbody hagain =>
    have hround := Chain.cons (.while_again hc hv hbody) ⟨rfl, rfl⟩ hagain.records (.nil ⟨rfl, rfl⟩)
    have hbegun := Chain.cons (.while_body hc hv) ⟨rfl, rfl⟩ hbody.records hround
    exact (Chain.cons .while_condition ⟨rfl, rfl⟩ hc.records hbegun).records rfl fun c u h => by
      simpa using h.of_while_body hc hbody
  | .while_leaving hc hv hbody =>
    exact Chain.records (.pair .while_condition hc.records (.while_body hc hv) ⟨rfl, rfl⟩
      hbody.records ⟨rfl, rfl⟩) rfl fun c u h => by simpa using h.of_while_body hc hbody
  | .while_error hc =>
    exact Chain.records (.single .while_condition hc.records ⟨rfl, rfl⟩) rfl fun c u h => by
      simpa using h.of_while hc
  | .while_body_error hc hv hbody =>
    exact Chain.records (.pair .while_condition hc.records (.while_body hc hv) ⟨rfl, rfl⟩
      hbody.records ⟨rfl, rfl⟩) rfl fun c u h => by simpa using h.of_while_body hc hbody
  | .return_ he =>
    exact Chain.records (.single .return_ he.records ⟨rfl, rfl⟩) rfl fun c u h => by
      simpa using h.of_return
  | .return_error he =>
    exact Chain.records (.single .return_ he.records ⟨rfl, rfl⟩) rfl fun c u h => by
      simpa using h.of_return
  | .return_none => exact Chain.records (.nil ⟨rfl, rfl⟩) rfl nofun
termination_by structural h

theorem Sequence.records {last : Value} {stmts : List Stmt} {s t : Session}
    {r : Except RuntimeError Flow} (h : Sequence last stmts s r t) :
    (Task.sequence last stmts).Records s t := by
  match h with
  | .nil => exact Chain.records (.nil ⟨rfl, rfl⟩) rfl nofun
  | .cons hs hss =>
    exact Chain.records (.pair .first hs.records (.following hs) ⟨rfl, rfl⟩ hss.records ⟨rfl, rfl⟩)
      rfl fun c u h => by simpa using h.of_sequence hs
  | .leaving hs =>
    exact Chain.records (.single .first hs.records ⟨rfl, rfl⟩) rfl fun c u h => by
      simpa using h.of_sequence hs
  | .error hs =>
    exact Chain.records (.single .first hs.records ⟨rfl, rfl⟩) rfl fun c u h => by
      simpa using h.of_sequence hs
termination_by structural h

end

theorem Logged.get?_functions {D : Definition → Session → Prop} {s t : Session}
    {ds : List Definition} (h : Logged D s t ds) (f : String) :
    t.functions.get? f = (ds.reverse.find? fun d => d.name = f).or (s.functions.get? f) := by
  rw [h.functions, Table.get?_insertAll, ← List.map_reverse, List.find?_map, Option.map_map]
  simp [Function.comp_def]

theorem Runs.logged {p : Program} {s t : Session} {r : Except RuntimeError Value}
    (h : Runs p s r t) : ∃ ds, Logged (Declares (.sequence .nil p.statements) s) s t ds := by
  cases h with
  | value h => exact h.records
  | error h => exact h.records

theorem Declares.of_within {O : Definition → Prop} {a : Task} {s x : Session} {d : Definition}
    (h : Declares a s d x) (ha : a.Within (fun _ => True) (Stmt.Stores O) s) : O d := by
  obtain ⟨b, hvisit, hb⟩ := h
  have hwithin := hvisit.within ha
  cases b with
  | statement stmt => exact hwithin.1.self d hb
  | _ => cases hb

end Semantics

namespace Session

open Semantics (Declares)

/-- A definition that the program, or a body that the session stores, declares at some nesting. -/
def Knows (s : Session) (p : Program) (d : Definition) : Prop :=
  d ∈ p.declarations ∨ ∃ f d', s.functions.get? f = some d' ∧ d ∈ d'.body.declarations

theorem declares_knows {s x : Session} {p : Program} {d : Definition}
    (h : Declares (.sequence .nil p.statements) s d x) : s.Knows p d := by
  apply h.of_within
  constructor
  · exact Stmt.every_storesOfList fun d hd => .inl hd
  · exact fun f d' hd' => Block.every_stores fun d hd => .inr ⟨f, d', hd', hd⟩

/-- The functions of a session change by the declarations that a program runs, however it ends. Natives
stay as they are, and what can be called stays callable. The log gains an entry for each declaration
that is run, wherever that is, and under every name the last of them is stored, or else what was stored
before. What is stored newly has been declared in the program or in a body that was stored before. -/
theorem functions_of_interpret {rounds : Nat} {p : Program} {s t : Session}
    {r : Except RuntimeError Value} (h : interpret rounds p s = .ending r t) :
    t.natives = s.natives ∧
    (∀ f, s.hasFunction f = true → t.hasFunction f = true) ∧
    (∀ f d, t.functions.get? f = some d → s.functions.get? f = some d ∨ d.name = f ∧ s.Knows p d) ∧
    ∃ ds : List Definition, t.log.toList = s.log.toList ++ ds.map Definition.registration ∧
      (∀ k d, ds[k]? = some d ↔ ∃ x, Declares (.sequence .nil p.statements) s d x ∧
        x.log.size = s.log.size + k) ∧
      ∀ f, t.functions.get? f = (ds.reverse.find? fun d => d.name = f).or (s.functions.get? f) := by
  obtain ⟨ds, hds⟩ := (Semantics.runs_of_interpret h).logged
  have hlast := hds.get?_functions
  have hnatives : t.natives = s.natives := by
    have hp := (Stmt.everyOf_iff_parts p.statements).mpr fun _ _ => trivial
    have hs : s.Every (fun _ => True) Stmt.Any := fun _ d _ =>
      d.body.every_iff.mpr fun _ _ => trivial
    have hsane := Semantics.sane_interpret (fun _ _ _ _ => trivial) hp hs rounds
    exact (Semantics.keeps_of_sane h hsane).natives
  refine ⟨hnatives, fun f hf => ?_, fun f d hd => ?_, ds, hds.log, fun k d => ⟨hds.sound k d, ?_⟩,
    hlast⟩
  · rw [hasFunction, Bool.or_eq_true] at hf ⊢
    rw [hnatives]
    refine hf.imp id fun hstored => ?_
    rw [Table.contains, hlast, Option.isSome_or]
    exact Bool.or_eq_true_iff.mpr (.inr hstored)
  · rw [hlast, Option.or_eq_some_iff] at hd
    rcases hd with hfound | ⟨-, hold⟩
    · have hname : d.name = f := by simpa using List.find?_some hfound
      have hmem := List.mem_reverse.mp (List.mem_of_find?_eq_some hfound)
      obtain ⟨k, hk⟩ := List.mem_iff_getElem?.mp hmem
      obtain ⟨x, hx, -⟩ := hds.sound k d hk
      exact .inr ⟨hname, declares_knows hx⟩
    · exact .inl hold
  · intro hx
    obtain ⟨x, hx, hsize⟩ := hx
    obtain ⟨j, hj, hat⟩ := hds.complete d x hx
    obtain rfl : k = j := by omega
    exact hj

/-- The body of a call declares a function anew and fails; the new definition is there all the same. -/
theorem functions_of_interpret_failing :
    ∃ s t : Session, ∃ p : Program, ∃ r : Except RuntimeError Value, ∃ old new : Definition,
      interpret 0 p s = .ending r t ∧ r = .error ⟨.undefinedVariable "z", ⟨0, 0⟩⟩ ∧
      old.parameters ≠ new.parameters ∧ t.functions.get? "f" = some new ∧ s.Knows p new ∧
      ∃ ds : List Definition, t.log.toList = s.log.toList ++ ds.map Definition.registration ∧
        (ds.reverse.find? fun d => d.name = "f") = some new := by
  let sp : Span := ⟨0, 0⟩
  let body : Block := .mk [.return_ none sp] sp
  let outer : Block := .mk [.function "f" [] none body sp, .expression (.reference "z" sp) sp] sp
  let p : Program := ⟨[.function "f" [⟨"x", none, sp⟩] none body sp,
    .function "g" [] none outer sp, .expression (.call "g" [] sp) sp]⟩
  let s : Session := .fresh .unlimited
  let old : Definition := ⟨"f", ["x"], body⟩
  let new : Definition := ⟨"f", [], body⟩
  let t : Session := ((s.declare old).declare ⟨"g", [], outer⟩).declare new
  have hrun : interpret 0 p s = .ending (.error ⟨.undefinedVariable "z", sp⟩) t := rfl
  obtain ⟨-, -, hknows, ds, hlog, -, hlast⟩ := functions_of_interpret hrun
  have hstored : t.functions.get? "f" = some new := rfl
  have hfound : (ds.reverse.find? fun d => d.name = "f") = some new := by
    have hempty : s.functions.get? "f" = none := rfl
    rw [← hstored, hlast "f", hempty, Option.or_none]
  rcases hknows "f" new hstored with hbefore | ⟨-, hdeclared⟩
  · cases hbefore
  · exact ⟨s, t, p, _, old, new, hrun, rfl, by decide, hstored, hdeclared, ds, hlog, hfound⟩

end Session
end Dvilipi
