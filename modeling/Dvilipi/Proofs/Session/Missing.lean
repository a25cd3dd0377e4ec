import Dvilipi.Proofs.Session.Balance
import Dvilipi.Proofs.Session.Frame

/-!
Parameters without an argument. A body starts with a copy of the variables of its caller, in which only
the parameters with an argument are bound anew. So a parameter that gets none is what the caller has
under this name: unbound if the caller has no such variable, and the variable of the caller otherwise.
-/

namespace Dvilipi.Semantics
set_option autoImplicit false

/-- The variables that are assigned in what the first task has run when it comes to the second. Parts
that are begun at once have nothing before them, and do not count here. -/
def Task.passed : Task → Task → List String
  | .expr (.binary _ a _ _), .expr _ => a.targets
  | .expr (.logical _ a _ _), .expr _ => a.targets
  | .list (e :: _), .list _ => e.targets
  | .statement (.ifThen c _ _), .sequence _ _ => c.targets
  | .statement (.ifElse c _ _ _), .sequence _ _ => c.targets
  | .statement (.while_ c _ _), .sequence _ _ => c.targets
  | .statement (.while_ c body _), .statement _ => c.targets ++ body.targets
  | .sequence _ (stmt :: _), .sequence _ _ => stmt.targets
  | _, _ => []

/-- The task `a`, begun in `s`, comes to begin `b` in `t`, in the same call, and has run nothing by then
that assigns `x`. -/
inductive ComesTo (x : String) : Task → Session → Task → Session → Prop where
  | here {a : Task} {s : Session} : ComesTo x a s a s
  | next {a b c : Task} {s t u : Session} (h : ComesTo x a s b t) (hbegins : Begins b t c u)
      (hcall : u.depth = t.depth) (hpassed : u = t ∨ x ∉ b.passed c) : ComesTo x a s c u

variable {x : String} {a b : Task} {s t : Session}

theorem Begins.binding?_eq (h : Begins a s b t) (hcall : t.depth = s.depth)
    (hpassed : t = s ∨ x ∉ a.passed b) : t.binding? x = s.binding? x := by
  rcases hpassed with rfl | hx
  · rfl
  cases h with
  | body hn hf hes hd =>
    -- The body of a call is begun one call deeper.
    rw [entered, hes.depth_eq] at hcall
    exact absurd hcall (Nat.succ_ne_self _)
  | binary_right ha => exact ha.binding?_eq hx
  | and_right ha _ => exact ha.binding?_eq hx
  | or_right ha _ => exact ha.binding?_eq hx
  | tail he => exact he.binding?_eq hx
  | then_taken hc _ => exact hc.binding?_eq hx
  | else_yes hc _ => exact hc.binding?_eq hx
  | else_no hc _ => exact hc.binding?_eq hx
  | while_body hc _ => exact hc.binding?_eq hx
  | while_again hc _ hbody =>
    have hround := hbody.binding?_eq (Block.notMem_targets (hx ∘ List.mem_append_right _))
    exact hround.trans (hc.binding?_eq (hx ∘ List.mem_append_left _))
  | following hs => exact hs.binding?_eq hx
  | _ => rfl

theorem ComesTo.binding?_eq (h : ComesTo x a s b t) : t.binding? x = s.binding? x := by
  induction h with
  | here => rfl
  | next _ hbegins hcall hpassed ih => exact (hbegins.binding?_eq hcall hpassed).trans ih

theorem EvaluatesAll.length_eq {es : List Expr} {vs : List Value} (h : EvaluatesAll es s (.ok vs) t) :
    vs.length = es.length := by
  induction es generalizing s vs with
  | nil =>
    cases h
    rfl
  | cons e es ih =>
    cases h with
    | cons _ hes => exact congrArg (· + 1) (ih hes)

theorem get?_bound {ps : List String} {vs : List Value} (hx : x ∉ ps.take vs.length)
    (scope : Environment) : (bound ps vs scope).get? x = scope.get? x := by
  induction ps generalizing vs scope with
  | nil => cases vs <;> rfl
  | cons p ps ih =>
    cases vs with
    | nil => rfl
    | cons v vs =>
      rw [List.length_cons, List.take_succ_cons] at hx
      have hrest := ih (List.not_mem_of_not_mem_cons hx) (scope.insert p v)
      rw [Table.get?_insert_of_ne (Ne.symm (List.ne_of_not_mem_cons hx))] at hrest
      exact hrest

theorem calleeState_binding? {d : Definition} {vs : List Value}
    (hx : x ∉ d.parameters.take vs.length) (s : Session) :
    (Run.calleeState d vs s).binding? x = s.binding? x := by
  rw [← entered_eq_calleeState]
  exact get?_bound hx s.environment

variable {rounds calls : Nat} {f : String} {es : List Expr} {d : Definition} {vs : List Value}

/-- A name that is none of the parameters with an argument, be it a parameter without one, is at the
start of the body what it is in the caller behind the arguments: bound to the same value, or unbound.
Until the body assigns it, reading it gives this value, or fails with the name if there is none. -/
theorem Called.missing (h : Called rounds calls f es s d vs t) {x : String}
    (hx : x ∉ d.parameters.take es.length) :
    (t.depth < 256 → ∀ sp, Begins (.expr (.call f es sp)) s (.sequence .nil d.body.statements)
        (Run.calleeState d vs t)) ∧
      (Run.calleeState d vs t).binding? x = t.binding? x ∧
      ∀ sp u, ComesTo x (.sequence .nil d.body.statements) (Run.calleeState d vs t)
          (.expr (.reference x sp)) u →
        (Expr.reference x sp).eval (Block.enter rounds calls) u = match t.binding? x with
          | some v => .ok v u
          | none => .failed ⟨.undefinedVariable x, sp⟩ u := by
  rw [← h.evaluatesAll.length_eq] at hx
  have hstart := calleeState_binding? hx t
  refine ⟨fun hdepth sp => ?_, hstart, fun sp u hu => ?_⟩
  · rw [← entered_eq_calleeState]
    exact .body h.natives h.functions h.evaluatesAll hdepth
  · rw [← hstart, ← hu.binding?_eq]
    rfl

/-- A function that returns its second parameter. -/
def second : Definition :=
  ⟨"second", ["a", "b"], .mk [.return_ (some (.reference "b" ⟨0, 0⟩)) ⟨0, 0⟩] ⟨0, 0⟩⟩

theorem exists_called_second : ∃ s : Session, s.Reachable ∧
    Called 1 1 "second" [.string "a" ⟨0, 0⟩] s second [.string "a"] s ∧
    s.binding? "b" = some (.string "caller") ∧ s.depth < 256 := by
  let p : Program := ⟨[.binding "b" false none (some (.string "caller" ⟨0, 0⟩)) ⟨0, 0⟩,
    .function "second" [⟨"a", none, ⟨0, 0⟩⟩, ⟨"b", none, ⟨0, 0⟩⟩] none second.body ⟨0, 0⟩]⟩
  let s : Session := ((Session.fresh .unlimited).define "b" (.string "caller")).declare second
  have hrun : Session.interpret 1 p (.fresh .unlimited) = .ending (.ok .nil) s := rfl
  exact ⟨s, .interpret (.fresh .unlimited) hrun, ⟨rfl, rfl, rfl⟩, rfl, by decide⟩

/-- The parameter without an argument reads the variable of the caller. -/
theorem Called.missing_second : ∃ s : Session, s.Reachable ∧
    Called 1 1 "second" [.string "a" ⟨0, 0⟩] s second [.string "a"] s ∧
    "b" ∈ second.parameters ∧ "b" ∉ second.parameters.take 1 ∧
    (Run.calleeState second [.string "a"] s).binding? "b" = some (.string "caller") ∧
    ∃ u, Visits (.expr (.call "second" [.string "a" ⟨0, 0⟩] ⟨0, 0⟩)) s
        (.expr (.reference "b" ⟨0, 0⟩)) u ∧
      (Expr.reference "b" ⟨0, 0⟩).eval (Block.enter 1 1) u = .ok (.string "caller") u := by
  obtain ⟨s, hreach, hcalled, hb, hdepth⟩ := exists_called_second
  obtain ⟨hbegins, hstart, hread⟩ := hcalled.missing (x := "b") (by decide)
  refine ⟨s, hreach, hcalled, by decide, by decide, hstart.trans hb, _,
    .next (.next (.next .here (hbegins hdepth ⟨0, 0⟩)) .first) .return_, ?_⟩
  have hcomes := hread ⟨0, 0⟩ _ (.next (.next .here .first rfl (.inl rfl)) .return_ rfl (.inl rfl))
  rwa [hb] at hcomes

/-- A parameter without an argument need not be unbound when the body starts. -/
theorem Called.missing_bound :
    ¬ ∀ (rounds calls : Nat) (f : String) (es : List Expr) (s t : Session) (d : Definition)
        (vs : List Value) (x : String), s.Reachable → Called rounds calls f es s d vs t →
      x ∈ d.parameters → x ∉ d.parameters.take es.length →
      (Run.calleeState d vs t).binding? x = none := by
  intro h
  obtain ⟨s, hreach, hcalled, hb, -⟩ := exists_called_second
  have hnone := h _ _ _ _ _ _ _ _ "b" hreach hcalled (by decide) (by decide)
  rw [calleeState_binding? (by decide), hb] at hnone
  cases hnone

end Dvilipi.Semantics
