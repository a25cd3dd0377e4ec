import Dvilipi.Proofs.Session.Alike
import Dvilipi.Proofs.Tree.Every

/-!
Sessions that programs do not tell apart. A relation between sessions is unseen if lookups and calls
find the same in related sessions, and if what a single step does to both keeps them related; then whole
runs of one program in related sessions give the same, in sessions that are related again.
-/

namespace Dvilipi.Semantics
set_option autoImplicit false

/-- Programs throughout which `P` and `Q` hold do not tell sessions related by `S` apart. A call is
resolved before its arguments are run, so it enters its body in other sessions than it was resolved
in. -/
structure Unseen (P : Expr → Prop) (Q : Stmt → Prop) (S : Session → Session → Prop) : Prop where
  natives {s t : Session} : S s t → s.natives = t.natives
  functions {s t : Session} {f : String} : S s t → s.natives.get? f = none →
    s.functions.get? f = t.functions.get? f
  sink {s t : Session} : S s t → s.sink = t.sink
  depth {s t : Session} : S s t → s.depth = t.depth
  reference {s t : Session} {x : String} {sp : Span} : P (.reference x sp) → S s t →
    s.environment.get? x = t.environment.get? x
  bodies {s t : Session} {f : String} {d : Definition} : S s t → s.natives.get? f = none →
    s.functions.get? f = some d → d.body.Every P Q
  write {s t : Session} (sink : Sink) : S s t → S { s with sink } { t with sink }
  assign {s t : Session} {x : String} {e : Expr} {sp : Span} {v : Value} : P (.assign x e sp) →
    S s t → S (s.define x v) (t.define x v)
  binding {s t : Session} {x : String} {constant : Bool} {type : Option TypeName} {e : Expr}
    {sp : Span} {v : Value} : Q (.binding x constant type (some e) sp) → S s t →
    S (s.define x v) (t.define x v)
  declare {s t : Session} {f : String} {ps : List Parameter} {result : Option TypeName}
    {body : Block} {sp : Span} : (Stmt.function f ps result body sp).Every P Q → S s t →
    S (s.declare ⟨f, ps.map Parameter.name, body⟩) (t.declare ⟨f, ps.map Parameter.name, body⟩)
  callee {s t s' t' : Session} {f : String} {d : Definition} (vs : List Value) : S s t →
    s.natives.get? f = none → s.functions.get? f = some d → S s' t' →
    S (Run.calleeState d vs s') (Run.calleeState d vs t')
  caller {s t s' t' : Session} : S s t → S s' t' →
    S (Run.callerState s s') (Run.callerState t t')

/-- Whatever `S` relates, `enter` runs a body in which `P` and `Q` hold alike. -/
def Steady (P : Expr → Prop) (Q : Stmt → Prop) (S : Session → Session → Prop)
    (enter : Block → Run Flow) : Prop :=
  ∀ {body : Block} {s t : Session}, body.Every P Q → S s t →
    (enter body s).Related Eq S (enter body t)

variable {P : Expr → Prop} {Q : Stmt → Prop} {S : Session → Session → Prop}
  {enter : Block → Run Flow} {s t : Session}

namespace Unseen

theorem lookup (hS : Unseen P Q S) {x : String} {sp : Span} (hx : P (.reference x sp))
    (h : S s t) : (Run.lookup x sp s).Related Eq S (Run.lookup x sp t) := by
  unfold Run.lookup
  rw [hS.reference hx h]
  split
  · exact .ok h
  · exact .failed rfl h

theorem callNative (hS : Unseen P Q S) {n : Native} {vs : List Value} {sp : Span} (h : S s t) :
    (Run.callNative n vs sp s).Related Eq S (Run.callNative n vs sp t) := by
  unfold Run.callNative
  rw [hS.sink h]
  split
  · exact .ok (hS.write _ h)
  · exact .failed rfl (hS.write _ h)

theorem callUser (hS : Unseen P Q S) (henter : Steady P Q S enter) {f : String} {d : Definition}
    {vs : List Value} {sp : Span} {s' t' : Session} (h : S s t) (hn : s.natives.get? f = none)
    (hf : s.functions.get? f = some d) (h' : S s' t') :
    (Run.callUser enter f d vs sp s').Related Eq S (Run.callUser enter f d vs sp t') := by
  have hbody := henter (hS.bodies h hn hf) (hS.callee vs h hn hf h')
  unfold Run.callUser
  rw [hS.depth h']
  split
  · exact .failed rfl h'
  · generalize enter d.body (Run.calleeState d vs s') = r,
      enter d.body (Run.calleeState d vs t') = r' at hbody
    cases hbody with
    | ok hu => exact .ok (hS.caller h' hu)
    | failed he hu => exact .failed he (hS.caller h' hu)
    | exhausted => exact .exhausted

mutual

theorem eval (hS : Unseen P Q S) (henter : Steady P Q S enter) (e : Expr) (he : e.Every P)
    {s t : Session} (h : S s t) : (e.eval enter s).Related Eq S (e.eval enter t) := by
  cases e with
  | number x sp => exact .ok h
  | string text sp => exact .ok h
  | reference x sp => exact hS.lookup he h
  | assign x e sp =>
    exact (hS.eval henter e he.2 h).bind fun v s' t' h' => .ok (hS.assign he.1 h')
  | binary op a b sp =>
    refine (hS.eval henter a he.2.1 h).bind fun v s' t' h' => ?_
    exact (hS.eval henter b he.2.2 h').bind fun w u u' hu => .ok hu
  | logical op a b sp =>
    refine (hS.eval henter a he.2.1 h).bind fun v s' t' h' => ?_
    split
    · exact .ok h'
    · exact hS.eval henter b he.2.2 h'
  | unary op e sp => exact (hS.eval henter e he.2 h).bind fun v s' t' h' => .ok h'
  | call f es sp =>
    cases hn : s.natives.get? f with
    | some n =>
      rw [eval_call_native hn, eval_call_native (hS.natives h ▸ hn)]
      exact (hS.evalList henter es he.2 h).bind fun vs s' t' h' => hS.callNative h'
    | none =>
      have hn' : t.natives.get? f = none := hS.natives h ▸ hn
      cases hf : s.functions.get? f with
      | some d =>
        rw [eval_call_user hn hf, eval_call_user hn' (hS.functions h hn ▸ hf)]
        exact (hS.evalList henter es he.2 h).bind fun vs s' t' h' =>
          hS.callUser henter h hn hf h'
      | none =>
        rw [eval_call_undefined hn hf, eval_call_undefined hn' (hS.functions h hn ▸ hf)]
        exact .failed rfl h
termination_by structural e

theorem evalList (hS : Unseen P Q S) (henter : Steady P Q S enter) (es : List Expr)
    (hes : Expr.EveryOf P es) {s t : Session} (h : S s t) :
    (Expr.evalList enter es s).Related Eq S (Expr.evalList enter es t) := by
  cases es with
  | nil => exact .ok h
  | cons e es =>
    refine (hS.eval henter e hes.1 h).bind fun v s' t' h' => ?_
    exact (hS.evalList henter es hes.2 h').bind fun vs u u' hu => .ok hu
termination_by structural es

end

theorem iterate {test : Run Bool} {body : Run Flow}
    (htest : ∀ {s t : Session}, S s t → (test s).Related Eq S (test t))
    (hbody : ∀ {s t : Session}, S s t → (body s).Related Eq S (body t)) (n : Nat) (h : S s t) :
    (Run.iterate test body n s).Related Eq S (Run.iterate test body n t) := by
  induction n generalizing s t with
  | zero => exact .exhausted
  | succ n ih =>
    have ht := htest h
    unfold Run.iterate
    generalize test s = r, test t = r' at ht
    cases ht with
    | @ok b s' t' h' =>
      cases b with
      | false => exact .ok h'
      | true =>
        have hb := hbody h'
        dsimp only
        generalize body s' = r, body t' = r' at hb
        cases hb with
        | @ok flow u u' hu =>
          cases flow with
          | next v => exact ih hu
          | leaving v => exact .ok hu
        | failed he hu => exact .failed he hu
        | exhausted => exact .exhausted
    | failed he h' => exact .failed he h'
    | exhausted => exact .exhausted

variable {rounds : Nat}

mutual

theorem exec (hS : Unseen P Q S) (henter : Steady P Q S enter) (stmt : Stmt)
    (hstmt : stmt.Every P Q) {s t : Session} (h : S s t) :
    (stmt.exec enter rounds s).Related Eq S (stmt.exec enter rounds t) := by
  cases stmt with
  | function f ps result body sp => exact .ok (hS.declare hstmt h)
  | binding x constant type initial sp =>
    cases initial with
    | none => exact .ok h
    | some e =>
      exact (hS.eval henter e (hstmt.2 e rfl) h).bind fun v s' t' h' =>
        .ok (hS.binding hstmt.1 h')
  | expression e sp => exact (hS.eval henter e hstmt.2 h).bind fun v s' t' h' => .ok h'
  | ifThen c yes sp =>
    obtain ⟨-, hc, hyes⟩ := hstmt
    refine (hS.eval henter c hc h).bind fun v s' t' h' => ?_
    split
    · exact hS.block henter yes hyes h'
    · exact .ok h'
  | ifElse c yes no sp =>
    obtain ⟨-, hc, hyes, hno⟩ := hstmt
    refine (hS.eval henter c hc h).bind fun v s' t' h' => ?_
    split
    · exact hS.block henter yes hyes h'
    · exact hS.block henter no hno h'
  | while_ c body sp =>
    obtain ⟨-, hc, hbody⟩ := hstmt
    refine iterate (fun h' => ?_) (fun h' => hS.block henter body hbody h') rounds h
    exact (hS.eval henter c hc h').bind fun v u u' hu => .ok hu
  | return_ value sp =>
    cases value with
    | none => exact .ok h
    | some e => exact (hS.eval henter e (hstmt.2 e rfl) h).bind fun v s' t' h' => .ok h'
termination_by structural stmt

theorem block (hS : Unseen P Q S) (henter : Steady P Q S enter) (body : Block)
    (hbody : body.Every P Q) {s t : Session} (h : S s t) :
    (body.exec enter rounds s).Related Eq S (body.exec enter rounds t) := by
  cases body with
  | mk stmts sp => exact hS.execFrom henter stmts hbody h
termination_by structural body

theorem execFrom (hS : Unseen P Q S) (henter : Steady P Q S enter) (stmts : List Stmt)
    (hstmts : Stmt.EveryOf P Q stmts) {last : Value} {s t : Session} (h : S s t) :
    (Stmt.execFrom enter rounds last stmts s).Related Eq S
      (Stmt.execFrom enter rounds last stmts t) := by
  cases stmts with
  | nil => exact .ok h
  | cons stmt stmts =>
    refine (hS.exec henter stmt hstmts.1 h).bind fun flow s' t' h' => ?_
    cases flow with
    | next v => exact hS.execFrom henter stmts hstmts.2 h'
    | leaving v => exact .ok h'
termination_by structural stmts

end

/-- Calls may be nested as deep as they like: each level runs bodies alike if the next one does. -/
theorem steady (hS : Unseen P Q S) (rounds calls : Nat) :
    Steady P Q S (Block.enter rounds calls) := by
  induction calls with
  | zero => exact fun _ _ => .exhausted
  | succ calls ih => exact fun {body _ _} hbody h => hS.block ih body hbody h

theorem interpret (hS : Unseen P Q S) {p : Program} (hp : p.Every P Q) (h : S s t)
    (rounds : Nat) :
    (Session.interpret rounds p s).Related Eq S (Session.interpret rounds p t) := by
  have henter : Steady P Q S (Block.enter rounds Session.maxDepth) :=
    hS.steady rounds Session.maxDepth
  exact (hS.execFrom henter p.statements hp h).bind fun flow s' t' h' => .ok h'

end Unseen
end Dvilipi.Semantics
