import Dvilipi.Console.Repl
import Dvilipi.Console.Script
import Dvilipi.Proofs.Parser.Located
import Dvilipi.Proofs.Session.Invariant

/-!
Where the errors of a session point. A body keeps the spans of the text that it was declared in, so an
error that is raised in it points into that text, whichever text is run.
-/

namespace Dvilipi
set_option autoImplicit false

/-- The span does not leave the text, and for an undefined variable it covers the name. -/
structure Error.PointsInto (cs : List Char) (e : Error) : Prop where
  within : e.span.Within cs
  name : ∀ x sp, e = .runtime ⟨.undefinedVariable x, sp⟩ → sp.slice cs = x.toList

variable {cs : List Char}

theorem Error.pointsInto_of_parse {e : ParseError} (h : e.span.Within cs) :
    (Error.parse e).PointsInto cs := ⟨h, nofun⟩

theorem Error.pointsInto_of_raisedAt {natives : Table Native} {err : RuntimeError} {e : Expr}
    (he : e.Points cs) (h : err.RaisedAt natives e) : (Error.runtime err).PointsInto cs := by
  cases e with
  | reference x sp =>
    obtain rfl : err = ⟨.undefinedVariable x, sp⟩ := h
    refine ⟨he.1, fun y sp' heq => ?_⟩
    cases heq
    exact he.2
  | call f es sp =>
    rcases h with rfl | rfl | ⟨-, detail, rfl⟩
    · exact ⟨he.1, nofun⟩
    · exact ⟨he.1, nofun⟩
    · exact ⟨he.1, nofun⟩
  | _ => exact h.elim

namespace Session

/-- Sessions in which the given texts have been run, the last of them first. -/
inductive After : List String → Session → Prop where
  | fresh (sink : Sink) : After [] (.fresh sink)
  | register {texts : List String} {s : Session} (h : After texts s) (name : String)
      (native : Native) : After texts (s.register name native)
  | redirect {texts : List String} {s : Session} (h : After texts s) (sink : Sink) :
      After texts { s with sink }
  | run {texts : List String} {s t : Session} {rounds : Nat} {source : String}
      {r : Except Error Value} (h : After texts s) (hr : Session.run rounds source s = .ending r t) :
      After (source :: texts) t

/-- The expression points into one of the texts. -/
def PointsIntoOne (texts : List String) (e : Expr) : Prop := ∃ text ∈ texts, e.Points text.toList

variable {texts : List String} {rounds : Nat} {source : String} {s t : Session}

/-- A run keeps what holds throughout the stored bodies and the program of the text, and where it holds
runtime errors are raised. -/
theorem sane_run {P : Expr → Prop} (hs : s.Every P Stmt.Any)
    (hp : ∀ p, Program.ofSource source = .ok p → p.Every P Stmt.Any) {r : Except Error Value}
    (h : run rounds source s = .ending r t) :
    t.Every P Stmt.Any ∧ ∀ err, r = .error (.runtime err) → err.Raised P s.natives := by
  unfold run at h
  dsimp only at h
  split at h
  · obtain ⟨rfl, rfl⟩ := Reply.failed_ending h
    exact ⟨hs, nofun⟩
  · next p hok =>
    have hevery : ((s.record (.parsing source.length)).record
      (.interpreting p.statements.length)).Every P Stmt.Any := hs
    have hsane := Semantics.sane_interpret (fun _ _ _ => id) (hp p hok) hevery rounds
    split at h
    · next v u hu =>
      rw [hu] at hsane
      obtain ⟨rfl, rfl⟩ := Reply.ok_ending h
      exact ⟨hsane.bodies, nofun⟩
    · next err u hu =>
      rw [hu] at hsane
      obtain ⟨rfl, rfl⟩ := Reply.failed_ending h
      refine ⟨hsane.2.bodies, fun err' heq => ?_⟩
      cases heq
      exact hsane.1
    · cases r <;> cases h

section

variable {R : String → Expr → Prop}

/-- A run keeps that each stored body belongs to one of the texts that have been run, and what belongs to
one of them raises its error. -/
theorem sane_run_texts (hR : ∀ text p, Program.ofSource text = .ok p → p.Every (R text) Stmt.Any)
    (hs : s.Every (fun e => ∃ text ∈ texts, R text e) Stmt.Any) {r : Except Error Value}
    (h : run rounds source s = .ending r t) :
    t.Every (fun e => ∃ text ∈ source :: texts, R text e) Stmt.Any ∧ ∀ err,
      r = .error (.runtime err) → err.Raised (fun e => ∃ text ∈ source :: texts, R text e) s.natives := by
  refine sane_run (hs.imp ?_ fun _ => id) (fun p hp => ?_) h
  · rintro e ⟨text, htext, he⟩
    exact ⟨text, List.mem_cons_of_mem _ htext, he⟩
  · exact (hR source p hp).imp (fun e he => ⟨source, List.mem_cons_self, he⟩) fun _ => id

theorem After.every (hR : ∀ text p, Program.ofSource text = .ok p → p.Every (R text) Stmt.Any)
    (h : After texts s) : s.Every (fun e => ∃ text ∈ texts, R text e) Stmt.Any := by
  induction h with
  | fresh sink => exact every_fresh _ _ _
  | register _ name native ih => exact ih
  | redirect _ sink ih => exact ih
  | run _ hr ih => exact (sane_run_texts hR ih hr).1

end

theorem After.every_points (h : After texts s) : s.Every (PointsIntoOne texts) Stmt.Any :=
  h.every fun _ _ => Program.every_points_of_ofSource

theorem error_points {P : Expr → Prop} {e : Error} (hs : s.Every P Stmt.Any)
    (hp : ∀ p, Program.ofSource source = .ok p → p.Every P Stmt.Any)
    (h : run rounds source s = .failed e t) :
    e.PointsInto source.toList ∨ ∃ err a, e = .runtime err ∧ P a ∧ err.RaisedAt s.natives a := by
  cases e with
  | parse e =>
    refine .inl (Error.pointsInto_of_parse ?_)
    unfold run at h
    dsimp only at h
    split at h
    · next hparse =>
      cases h
      exact Program.error_within_of_ofSource hparse
    · split at h <;> cases h
  | runtime err =>
    obtain ⟨a, ha, hraised⟩ := (sane_run (r := .error (.runtime err)) hs hp h).2 err rfl
    exact .inr ⟨err, a, rfl, ha, hraised⟩

/-- An error of a run points into the text that is run, unless a body raises it that was stored before;
then it points into one of the texts that were run before. Either way the console shows it in the text
that is run. A script starts with no stored bodies, so the place of its error can always be shown. -/
theorem run_error_points (h : After texts s) {e : Error} (hrun : run rounds source s = .failed e t) :
    (e.PointsInto source.toList ∨
        ∃ err name d a, e = .runtime err ∧ s.functions.get? name = some d ∧ a ∈ d.body.parts ∧
          err.RaisedAt s.natives a ∧ ∃ text ∈ texts, e.PointsInto text.toList) ∧
      (∀ u : Session, s = { u with sink := .unlimited } →
        Repl.runText rounds u source =
          .stay (.ofBytes t.sink.stored ++ .ofDiagnostic (.ofError e source none)) t) ∧
      ∀ filename, s = .fresh .unlimited →
        Script.run rounds source filename =
            (.ofBytes t.sink.stored ++ .ofDiagnostic (.ofError e source filename), .failed) ∧
          (Diagnostic.ofError e source filename).place.isSome = true := by
  let stored : Expr → Prop := fun a => ∃ name d, s.functions.get? name = some d ∧ a ∈ d.body.parts
  have hbodies : s.Every (fun a => a.Points source.toList ∨ stored a ∧ PointsIntoOne texts a)
      Stmt.Any := by
    intro name d hd
    refine (Block.every_iff d.body).2 fun a ha => .inr ⟨⟨name, d, hd, ha⟩, ?_⟩
    exact (Block.every_iff d.body).1 (h.every_points name d hd) a ha
  have hpoints := error_points hbodies
    (fun p hp => (Program.every_points_of_ofSource hp).imp (fun _ => .inl) fun _ => id) hrun
  have hwhere : e.PointsInto source.toList ∨
      ∃ err name d a, e = .runtime err ∧ s.functions.get? name = some d ∧ a ∈ d.body.parts ∧
        err.RaisedAt s.natives a ∧ ∃ text ∈ texts, e.PointsInto text.toList := by
    rcases hpoints with hown | ⟨err, a, rfl, hown | ⟨⟨name, d, hd, ha⟩, text, htext, hat⟩, hraised⟩
    · exact .inl hown
    · exact .inl (Error.pointsInto_of_raisedAt hown hraised)
    · exact .inr ⟨err, name, d, a, rfl, hd, ha, hraised, text, htext,
        Error.pointsInto_of_raisedAt hat hraised⟩
  refine ⟨hwhere, ?_, ?_⟩
  · rintro u rfl
    unfold Repl.runText
    rw [hrun]
  · rintro filename rfl
    refine ⟨?_, Diagnostic.ofError_place_isSome.2 ?_⟩
    · unfold Script.run
      rw [hrun]
      rfl
    · rcases hwhere with hown | ⟨err, name, d, a, -, hd, -⟩
      · exact hown.within.fits
      · exact nomatch hd

/-- What a text fails with that is run after another one. -/
def errorAfter (first second : String) : Option Error :=
  match run 1 first (.fresh .unlimited) with
  | .ok _ s =>
    match run 1 second s with
    | .failed e _ => some e
    | _ => none
  | _ => none

theorem exists_of_errorAfter {first second : String} {e : Error}
    (h : errorAfter first second = some e) :
    ∃ s t, After [first] s ∧ run 1 second s = .failed e t := by
  unfold errorAfter at h
  split at h
  · next v s hfirst =>
    split at h
    · next e' t hsecond =>
      cases h
      exact ⟨s, t, .run (r := .ok v) (.fresh .unlimited) hfirst, hsecond⟩
    · cases h
  · cases h

/-- A body is run that an earlier text stored. The error covers seven characters of that text, and the
text that is run has only fourteen characters. -/
theorem exists_error_outside : ∃ s t, After ["fn f() \x7b return missing; \x7d"] s ∧
    run 1 "missing = f();" s = .failed (.runtime ⟨.undefinedVariable "missing", ⟨16, 23⟩⟩) t :=
  exists_of_errorAfter (by decide +kernel)

/-- The error of a run need not point into the text that is run. -/
theorem run_error_points_elsewhere :
    ¬ ∀ (texts : List String) (rounds : Nat) (source : String) (s t : Session) (e : Error),
      After texts s → run rounds source s = .failed e t → e.PointsInto source.toList := by
  intro h
  obtain ⟨s, t, hafter, hrun⟩ := exists_error_outside
  have hbound : 23 ≤ 14 := (h _ _ _ s t _ hafter hrun).within.2
  omega

/-- The error points into the text that declared the body. -/
theorem run_error_points_declaration :
    ∃ s t, After ["fn f() \x7b return missing; \x7d"] s ∧
      run 1 "missing = f();" s = .failed (.runtime ⟨.undefinedVariable "missing", ⟨16, 23⟩⟩) t ∧
      ∃ name d a, s.functions.get? name = some d ∧ a ∈ d.body.parts ∧
        RuntimeError.RaisedAt s.natives ⟨.undefinedVariable "missing", ⟨16, 23⟩⟩ a := by
  obtain ⟨s, t, hafter, hrun⟩ := exists_error_outside
  refine ⟨s, t, hafter, hrun, ?_⟩
  rcases (run_error_points hafter hrun).1 with hown | ⟨err, name, d, a, heq, hd, ha, hraised, -⟩
  · have hbound : 23 ≤ 14 := hown.within.2
    omega
  · cases heq
    exact ⟨name, d, a, hd, ha, hraised⟩

end Session
end Dvilipi
