import Dvilipi.Proofs.Semantics.Sound
import Dvilipi.Proofs.Session.Table
import Dvilipi.Proofs.Tree.Types

/-!
Running does not look at type names. To rename types in a program and in the stored bodies of a session
and then to run the program is to run it and then to rename types in the session that is left.
-/

namespace Dvilipi
set_option autoImplicit false

/-- The same reply, with the state that is left behind changed. -/
def Reply.onState {ε σ α : Type} (g : σ → σ) : Reply ε σ α → Reply ε σ α
  | .ok a s => .ok a (g s)
  | .failed e s => .failed e (g s)
  | .exhausted => .exhausted

namespace Action

variable {ε σ α β : Type} {g : σ → σ}

/-- In a changed state `p'` does what `p` does in the state itself, and the change stays. -/
def Follows (g : σ → σ) (p' p : Action ε σ α) : Prop := ∀ s, p' (g s) = (p s).onState g

namespace Follows

theorem pure (a : α) : Follows g (Pure.pure a : Action ε σ α) (Pure.pure a) := fun _ => rfl

theorem bind {p' p : Action ε σ α} {f' f : α → Action ε σ β} (h : Follows g p' p)
    (hf : ∀ a, Follows g (f' a) (f a)) : Follows g (p' >>= f') (p >>= f) := by
  intro s
  rw [bind_apply, bind_apply, h s]
  cases p s with
  | ok a t => exact hf a t
  | failed e t => rfl
  | exhausted => rfl

theorem modify {f' f : σ → σ} (h : ∀ s, f' (g s) = g (f s)) :
    Follows g (Action.modify f' : Action ε σ Unit) (Action.modify f) :=
  fun s => congrArg (Reply.ok ()) (h s)

end Follows

end Action

def Definition.mapTypes (k : TypeName → TypeName) (d : Definition) : Definition :=
  { d with body := d.body.mapTypes k }

namespace Session

variable (k : TypeName → TypeName)

def mapTypes (s : Session) : Session := { s with functions := s.functions.map (Definition.mapTypes k) }

theorem mapTypes_define (s : Session) (x : String) (v : Value) :
    (s.mapTypes k).define x v = (s.define x v).mapTypes k := rfl

theorem mapTypes_declare (s : Session) (d : Definition) :
    (s.mapTypes k).declare (d.mapTypes k) = (s.declare d).mapTypes k := by
  unfold declare
  simp only [mapTypes, Table.map_insert]
  rfl

theorem mapTypes_function? {s : Session} {f : String} {found : Option Definition}
    (h : s.functions.get? f = found) :
    (s.mapTypes k).functions.get? f = found.map (Definition.mapTypes k) := by
  rw [← h]
  exact Table.get?_map _ s.functions f

end Session

namespace Semantics

open Dvilipi.Action (Follows)

variable {k : TypeName → TypeName} {enter : Block → Run Flow} {rounds : Nat}

/-- `enter` does not look at the type names of bodies. -/
def Untyped (k : TypeName → TypeName) (enter : Block → Run Flow) : Prop :=
  ∀ b, Follows (Session.mapTypes k) (enter (b.mapTypes k)) (enter b)

theorem follows_lookup (x : String) (sp : Span) :
    Follows (Session.mapTypes k) (Run.lookup x sp) (Run.lookup x sp) := by
  intro s
  have henvironment : (s.mapTypes k).environment = s.environment := rfl
  unfold Run.lookup
  rw [henvironment]
  cases s.environment.get? x <;> rfl

theorem follows_callNative (n : Native) (vs : List Value) (sp : Span) :
    Follows (Session.mapTypes k) (Run.callNative n vs sp) (Run.callNative n vs sp) := by
  intro s
  have hsink : (s.mapTypes k).sink = s.sink := rfl
  unfold Run.callNative
  rw [hsink]
  rcases n vs s.sink with ⟨detail | v, sink⟩ <;> rfl

theorem follows_callUser (henter : Untyped k enter) (f : String) (d : Definition)
    (vs : List Value) (sp : Span) :
    Follows (Session.mapTypes k) (Run.callUser enter f (d.mapTypes k) vs sp)
      (Run.callUser enter f d vs sp) := by
  intro s
  have hcallee : Run.calleeState (d.mapTypes k) vs (s.mapTypes k) =
      (Run.calleeState d vs s).mapTypes k := rfl
  have hbody : enter (d.mapTypes k).body (Run.calleeState (d.mapTypes k) vs (s.mapTypes k)) =
      (enter d.body (Run.calleeState d vs s)).onState (Session.mapTypes k) :=
    hcallee ▸ henter d.body _
  unfold Run.callUser
  rw [hbody]
  change (if Session.maxDepth ≤ s.depth then _ else _) = _
  split
  · rfl
  · cases enter d.body (Run.calleeState d vs s) <;> rfl

mutual

theorem follows_eval (henter : Untyped k enter) :
    ∀ e : Expr, Follows (Session.mapTypes k) (e.eval enter) (e.eval enter)
  | .number x sp => .pure _
  | .string t sp => .pure _
  | .reference x sp => follows_lookup x sp
  | .assign x e sp => (follows_eval henter e).bind fun v =>
      (Follows.modify fun s => s.mapTypes_define k x v).bind fun _ => .pure _
  | .binary op a b sp =>
    (follows_eval henter a).bind fun _ => (follows_eval henter b).bind fun _ => .pure _
  | .logical op a b sp => (follows_eval henter a).bind fun v => by
      split
      · exact .pure _
      · exact follows_eval henter b
  | .unary op e sp => (follows_eval henter e).bind fun _ => .pure _
  | .call f es sp => by
    intro s
    cases hn : s.natives.get? f with
    | some n =>
      rw [eval_call_native hn, eval_call_native (s := s.mapTypes k) hn]
      exact (follows_evalList henter es).bind (fun vs => follows_callNative n vs sp) s
    | none =>
      cases hf : s.functions.get? f with
      | some d =>
        rw [eval_call_user hn hf,
          eval_call_user (s := s.mapTypes k) hn (Session.mapTypes_function? k hf)]
        exact (follows_evalList henter es).bind (fun vs => follows_callUser henter f d vs sp) s
      | none =>
        rw [eval_call_undefined hn hf,
          eval_call_undefined (s := s.mapTypes k) hn (Session.mapTypes_function? k hf)]
        rfl

theorem follows_evalList (henter : Untyped k enter) :
    ∀ es : List Expr, Follows (Session.mapTypes k) (Expr.evalList enter es) (Expr.evalList enter es)
  | [] => .pure _
  | e :: es =>
    (follows_eval henter e).bind fun _ => (follows_evalList henter es).bind fun _ => .pure _

end

theorem follows_iterate {test' test : Run Bool} {body' body : Run Flow}
    (htest : Follows (Session.mapTypes k) test' test)
    (hbody : Follows (Session.mapTypes k) body' body) (n : Nat) :
    Follows (Session.mapTypes k) (Run.iterate test' body' n) (Run.iterate test body n) := by
  induction n with
  | zero => exact fun _ => rfl
  | succ n ih =>
    intro s
    unfold Run.iterate
    rw [htest s]
    cases test s with
    | ok b t =>
      cases b with
      | false => rfl
      | true =>
        simp only [Reply.onState, hbody t]
        cases body t with
        | ok flow u =>
          cases flow with
          | next v => exact ih u
          | leaving v => rfl
        | failed e u => rfl
        | exhausted => rfl
    | failed e t => rfl
    | exhausted => rfl

mutual

theorem follows_exec (henter : Untyped k enter) : ∀ stmt : Stmt,
    Follows (Session.mapTypes k) ((stmt.mapTypes k).exec enter rounds) (stmt.exec enter rounds)
  | .function f ps r body sp => by
    have hparameters : (ps.map (Parameter.mapType k)).map Parameter.name = ps.map Parameter.name := by
      rw [List.map_map]
      rfl
    simp only [Stmt.mapTypes, Stmt.exec, hparameters]
    exact (Follows.modify fun s => s.mapTypes_declare k ⟨f, ps.map Parameter.name, body⟩).bind
      fun _ => .pure _
  | .binding x constant t none sp => .pure _
  | .binding x constant t (some e) sp => (follows_eval henter e).bind fun v =>
      (Follows.modify fun s => s.mapTypes_define k x v).bind fun _ => .pure _
  | .expression e sp => (follows_eval henter e).bind fun _ => .pure _
  | .ifThen c yes sp => (follows_eval henter c).bind fun v => by
      split
      · exact follows_block henter yes
      · exact .pure _
  | .ifElse c yes no sp => (follows_eval henter c).bind fun v => by
      split
      · exact follows_block henter yes
      · exact follows_block henter no
  | .while_ c body sp => follows_iterate ((follows_eval henter c).bind fun _ => .pure _)
      (follows_block henter body) rounds
  | .return_ none sp => .pure _
  | .return_ (some e) sp => (follows_eval henter e).bind fun _ => .pure _

theorem follows_block (henter : Untyped k enter) : ∀ body : Block,
    Follows (Session.mapTypes k) ((body.mapTypes k).exec enter rounds) (body.exec enter rounds)
  | .mk stmts _ => follows_execFrom henter .nil stmts

theorem follows_execFrom (henter : Untyped k enter) (last : Value) : ∀ stmts : List Stmt,
    Follows (Session.mapTypes k) (Stmt.execFrom enter rounds last (Stmt.mapTypesList k stmts))
      (Stmt.execFrom enter rounds last stmts)
  | [] => .pure _
  | stmt :: stmts => (follows_exec henter stmt).bind fun flow => by
      cases flow with
      | next v => exact follows_execFrom henter v stmts
      | leaving v => exact .pure _

end

theorem untyped_enter (k : TypeName → TypeName) (rounds calls : Nat) :
    Untyped k (Block.enter rounds calls) := by
  induction calls with
  | zero => exact fun _ _ => rfl
  | succ calls ih => exact fun b => follows_block ih b

theorem follows_interpret (k : TypeName → TypeName) (rounds : Nat) (p : Program) :
    Follows (Session.mapTypes k) (Session.interpret rounds (p.mapTypes k))
      (Session.interpret rounds p) :=
  (follows_execFrom (untyped_enter k rounds Session.maxDepth) .nil p.statements).bind
    fun _ => .pure _

end Semantics
end Dvilipi
