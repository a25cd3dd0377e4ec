import Dvilipi.Proofs.Semantics.Sound
import Dvilipi.Proofs.Tree.Bare

/-!
Running does not look at spans. Trees with the same bare tree, run in sessions that differ in the spans
of stored bodies and in the log only, give the same values, the same causes of errors and again such
sessions.
-/

namespace Dvilipi
set_option autoImplicit false

mutual

theorem Expr.bare_bare (e : Expr) : e.bare.bare = e.bare := by
  cases e with
  | number x sp => rfl
  | string t sp => rfl
  | reference x sp => rfl
  | assign x e sp => simp only [Expr.bare, e.bare_bare]
  | binary op a b sp => simp only [Expr.bare, a.bare_bare, b.bare_bare]
  | logical op a b sp => simp only [Expr.bare, a.bare_bare, b.bare_bare]
  | unary op e sp => simp only [Expr.bare, e.bare_bare]
  | call f es sp => simp only [Expr.bare, Expr.bareList_bareList es]
termination_by structural e

theorem Expr.bareList_bareList (es : List Expr) :
    Expr.bareList (Expr.bareList es) = Expr.bareList es := by
  cases es with
  | nil => rfl
  | cons e es => simp only [Expr.bareList, e.bare_bare, Expr.bareList_bareList es]
termination_by structural es

end

theorem Expr.optional_bare_bare (e : Option Expr) :
    (e.map Expr.bare).map Expr.bare = e.map Expr.bare := by
  cases e with
  | none => rfl
  | some e => exact congrArg some e.bare_bare

theorem TypeName.bare_bare (t : Option TypeName) :
    (t.map TypeName.bare).map TypeName.bare = t.map TypeName.bare := by
  cases t <;> rfl

theorem Parameter.bare_bare (p : Parameter) : p.bare.bare = p.bare :=
  congrArg (Parameter.mk p.name · .blank) (TypeName.bare_bare p.ascription)

mutual

theorem Stmt.bare_bare (s : Stmt) : s.bare.bare = s.bare := by
  cases s with
  | function f ps r body sp =>
    have hps : (ps.map Parameter.bare).map Parameter.bare = ps.map Parameter.bare := by
      rw [List.map_map]
      exact List.map_congr_left fun p _ => p.bare_bare
    simp only [Stmt.bare, hps, TypeName.bare_bare, body.bare_bare]
  | binding x constant t e sp => simp only [Stmt.bare, TypeName.bare_bare, Expr.optional_bare_bare]
  | expression e sp => simp only [Stmt.bare, e.bare_bare]
  | ifThen c yes sp => simp only [Stmt.bare, c.bare_bare, yes.bare_bare]
  | ifElse c yes no sp => simp only [Stmt.bare, c.bare_bare, yes.bare_bare, no.bare_bare]
  | while_ c body sp => simp only [Stmt.bare, c.bare_bare, body.bare_bare]
  | return_ e sp => simp only [Stmt.bare, Expr.optional_bare_bare]
termination_by structural s

theorem Block.bare_bare (b : Block) : b.bare.bare = b.bare := by
  cases b with
  | mk statements sp => simp only [Block.bare, Stmt.bareList_bareList statements]
termination_by structural b

theorem Stmt.bareList_bareList (ss : List Stmt) :
    Stmt.bareList (Stmt.bareList ss) = Stmt.bareList ss := by
  cases ss with
  | nil => rfl
  | cons s ss => simp only [Stmt.bareList, s.bare_bare, Stmt.bareList_bareList ss]
termination_by structural ss

end

/-- Both replies are the same value, or errors related by `E`, with states related by `S`; or both give
up. -/
inductive Reply.Related {ε σ α : Type} (E : ε → ε → Prop) (S : σ → σ → Prop) :
    Reply ε σ α → Reply ε σ α → Prop where
  | ok {a : α} {s t : σ} (h : S s t) : Related E S (.ok a s) (.ok a t)
  | failed {d e : ε} {s t : σ} (he : E d e) (h : S s t) : Related E S (.failed d s) (.failed e t)
  | exhausted : Related E S .exhausted .exhausted

namespace Reply.Related

variable {ε σ α β : Type} {E : ε → ε → Prop} {S : σ → σ → Prop} {r r' r'' : Reply ε σ α}

theorem symm (hE : ∀ {d e}, E d e → E e d) (hS : ∀ {s t}, S s t → S t s) (h : r.Related E S r') :
    r'.Related E S r := by
  cases h with
  | ok h => exact .ok (hS h)
  | failed he h => exact .failed (hE he) (hS h)
  | exhausted => exact .exhausted

theorem trans (hE : ∀ {c d e}, E c d → E d e → E c e) (hS : ∀ {s t u}, S s t → S t u → S s u)
    (h : r.Related E S r') (h' : r'.Related E S r'') : r.Related E S r'' := by
  cases h with
  | ok h =>
    cases h' with
    | ok h' => exact .ok (hS h h')
  | failed he h =>
    cases h' with
    | failed he' h' => exact .failed (hE he he') (hS h h')
  | exhausted => exact h'

theorem bind {p p' : Action ε σ α} {f f' : α → Action ε σ β} {s s' : σ}
    (h : (p s).Related E S (p' s')) (hf : ∀ a t t', S t t' → (f a t).Related E S (f' a t')) :
    ((p >>= f) s).Related E S ((p' >>= f') s') := by
  rw [Action.bind_apply, Action.bind_apply]
  generalize p s = r, p' s' = r' at h
  cases h with
  | ok h => exact hf _ _ _ h
  | failed he h => exact .failed he h
  | exhausted => exact .exhausted

/-- More may be known of the states in which the replies end than that they are related. -/
theorem ending {S' : σ → σ → Prop} (h : r.Related E S r')
    (hS : ∀ {a b : Except ε α} {s t : σ}, r = .ending a s → r' = .ending b t → S s t → S' s t) :
    r.Related E S' r' := by
  cases h with
  | @ok a s t h => exact .ok (hS (a := .ok a) (b := .ok a) rfl rfl h)
  | @failed d e s t he h => exact .failed he (hS (a := .error d) (b := .error e) rfl rfl h)
  | exhausted => exact .exhausted

end Reply.Related

def Definition.bare (d : Definition) : Definition := { d with body := d.body.bare }

namespace Session

/-- The sessions differ in the spans of stored bodies and in the log only. -/
structure Alike (s t : Session) : Prop where
  natives : s.natives = t.natives
  functions : ∀ name,
    (s.functions.get? name).map Definition.bare = (t.functions.get? name).map Definition.bare
  environment : s.environment = t.environment
  sink : s.sink = t.sink
  depth : s.depth = t.depth

namespace Alike

variable {s t u : Session}

theorem refl (s : Session) : s.Alike s := ⟨rfl, fun _ => rfl, rfl, rfl, rfl⟩

theorem symm (h : s.Alike t) : t.Alike s :=
  ⟨h.natives.symm, fun name => (h.functions name).symm, h.environment.symm, h.sink.symm,
    h.depth.symm⟩

theorem trans (h : s.Alike t) (h' : t.Alike u) : s.Alike u :=
  ⟨h.natives.trans h'.natives, fun name => (h.functions name).trans (h'.functions name),
    h.environment.trans h'.environment, h.sink.trans h'.sink, h.depth.trans h'.depth⟩

theorem record (s : Session) (event : Event) : s.Alike (s.record event) :=
  ⟨rfl, fun _ => rfl, rfl, rfl, rfl⟩

theorem define (h : s.Alike t) (x : String) (v : Value) : (s.define x v).Alike (t.define x v) :=
  ⟨h.natives, h.functions, congrArg (·.insert x v) h.environment, h.sink, h.depth⟩

theorem declare (h : s.Alike t) {d e : Definition} (hde : d.bare = e.bare) :
    (s.declare d).Alike (t.declare e) := by
  refine ⟨h.natives, fun name => ?_, h.environment, h.sink, h.depth⟩
  obtain ⟨hname, -, -⟩ := Definition.mk.inj hde
  simp only [Session.declare]
  rw [Table.get?_insert, Table.get?_insert, hname]
  split
  · exact congrArg some hde
  · exact h.functions name

end Alike

end Session

namespace Semantics

open Session (Alike)

variable {s s' : Session} {enter : Block → Run Flow}

/-- The replies of two runs that differ in spans only. -/
abbrev Same {α : Type} : Reply RuntimeError Session α → Reply RuntimeError Session α → Prop :=
  Reply.Related (fun d e => d.cause = e.cause) Alike

theorem Same.symm {α : Type} {r r' : Reply RuntimeError Session α} (h : Same r r') : Same r' r :=
  Reply.Related.symm Eq.symm Alike.symm h

theorem Same.trans {α : Type} {r r' r'' : Reply RuntimeError Session α} (h : Same r r')
    (h' : Same r' r'') : Same r r'' :=
  Reply.Related.trans Eq.trans Alike.trans h h'

/-- `enter` does not look at the spans of bodies. -/
def Blind (enter : Block → Run Flow) : Prop :=
  ∀ {b b' : Block} {s s' : Session}, b.bare = b'.bare → s.Alike s' → Same (enter b s) (enter b' s')

theorem same_lookup {x : String} {sp sp' : Span} (hs : s.Alike s') :
    Same (Run.lookup x sp s) (Run.lookup x sp' s') := by
  unfold Run.lookup
  rw [hs.environment]
  split
  · exact .ok hs
  · exact .failed rfl hs

theorem same_callNative {n : Native} {vs : List Value} {sp sp' : Span} (hs : s.Alike s') :
    Same (Run.callNative n vs sp s) (Run.callNative n vs sp' s') := by
  unfold Run.callNative
  rw [hs.sink]
  have hsink : ∀ sink, Alike { s with sink } { s' with sink } := fun sink =>
    ⟨hs.natives, hs.functions, hs.environment, rfl, hs.depth⟩
  split
  · exact .ok (hsink _)
  · exact .failed rfl (hsink _)

theorem same_callUser (henter : Blind enter) {f : String} {d d' : Definition} {vs : List Value}
    {sp sp' : Span} (hd : d.bare = d'.bare) (hs : s.Alike s') :
    Same (Run.callUser enter f d vs sp s) (Run.callUser enter f d' vs sp' s') := by
  obtain ⟨-, hparameters, hbare⟩ := Definition.mk.inj hd
  have hcallee : (Run.calleeState d vs s).Alike (Run.calleeState d' vs s') := by
    refine ⟨hs.natives, hs.functions, ?_, hs.sink, congrArg (· + 1) hs.depth⟩
    simp only [Run.calleeState, hparameters, hs.environment]
  have hcaller : ∀ t t', t.Alike t' → (Run.callerState s t).Alike (Run.callerState s' t') :=
    fun t t' ht =>
      ⟨ht.natives, ht.functions, hs.environment, ht.sink, congrArg (· - 1) ht.depth⟩
  have hbody := henter hbare hcallee
  unfold Run.callUser
  rw [hs.depth]
  split
  · exact .failed rfl hs
  · generalize enter d.body _ = r, enter d'.body _ = r' at hbody
    cases hbody with
    | ok ht => exact .ok (hcaller _ _ ht)
    | failed he ht => exact .failed he (hcaller _ _ ht)
    | exhausted => exact .exhausted

mutual

theorem same_eval (henter : Blind enter) (e : Expr) {s s' : Session} (hs : s.Alike s') :
    Same (e.eval enter s) (e.bare.eval enter s') := by
  cases e with
  | number x sp => exact .ok hs
  | string text sp => exact .ok hs
  | reference x sp => exact same_lookup hs
  | assign x e sp =>
    exact (same_eval henter e hs).bind fun v t t' ht => .ok (ht.define x v)
  | binary op a b sp =>
    refine (same_eval henter a hs).bind fun v t t' ht => ?_
    exact (same_eval henter b ht).bind fun w u u' hu => .ok hu
  | logical op a b sp =>
    refine (same_eval henter a hs).bind fun v t t' ht => ?_
    split
    · exact .ok ht
    · exact same_eval henter b ht
  | unary op e sp => exact (same_eval henter e hs).bind fun v t t' ht => .ok ht
  | call f es sp =>
    cases hn : s.natives.get? f with
    | some n =>
      rw [eval_call_native hn, Expr.bare, eval_call_native (hs.natives ▸ hn)]
      exact (same_evalList henter es hs).bind fun vs t t' ht => same_callNative ht
    | none =>
      have hn' : s'.natives.get? f = none := hs.natives ▸ hn
      have hfunctions := hs.functions f
      cases hf : s.functions.get? f with
      | some d =>
        rw [hf] at hfunctions
        obtain ⟨d', hf', hd⟩ := Option.map_eq_some_iff.mp hfunctions.symm
        rw [eval_call_user hn hf, Expr.bare, eval_call_user hn' hf']
        exact (same_evalList henter es hs).bind fun vs t t' ht => same_callUser henter hd.symm ht
      | none =>
        rw [hf] at hfunctions
        have hf' := Option.map_eq_none_iff.mp hfunctions.symm
        rw [eval_call_undefined hn hf, Expr.bare, eval_call_undefined hn' hf']
        exact .failed rfl hs
termination_by structural e

theorem same_evalList (henter : Blind enter) (es : List Expr) {s s' : Session}
    (hs : s.Alike s') :
    Same (Expr.evalList enter es s) (Expr.evalList enter (Expr.bareList es) s') := by
  cases es with
  | nil => exact .ok hs
  | cons e es =>
    refine (same_eval henter e hs).bind fun v t t' ht => ?_
    exact (same_evalList henter es ht).bind fun vs u u' hu => .ok hu
termination_by structural es

end

theorem same_iterate {test test' : Run Bool} {body body' : Run Flow}
    (htest : ∀ {s s' : Session}, s.Alike s' → Same (test s) (test' s'))
    (hbody : ∀ {s s' : Session}, s.Alike s' → Same (body s) (body' s')) (n : Nat)
    (hs : s.Alike s') : Same (Run.iterate test body n s) (Run.iterate test' body' n s') := by
  induction n generalizing s s' with
  | zero => exact .exhausted
  | succ n ih =>
    have ht := htest hs
    unfold Run.iterate
    generalize test s = r, test' s' = r' at ht
    cases ht with
    | @ok b t t' ht =>
      cases b with
      | false => exact .ok ht
      | true =>
        have hb := hbody ht
        dsimp only
        generalize body t = r, body' t' = r' at hb
        cases hb with
        | @ok flow u u' hu =>
          cases flow with
          | next v => exact ih hu
          | leaving v => exact .ok hu
        | failed he hu => exact .failed he hu
        | exhausted => exact .exhausted
    | failed he ht => exact .failed he ht
    | exhausted => exact .exhausted

variable {rounds : Nat}

mutual

theorem same_exec (henter : Blind enter) (stmt : Stmt) {s s' : Session} (hs : s.Alike s') :
    Same (stmt.exec enter rounds s) (stmt.bare.exec enter rounds s') := by
  cases stmt with
  | function f ps result body sp =>
    refine .ok (hs.declare ?_)
    have hparameters : (ps.map Parameter.bare).map Parameter.name = ps.map Parameter.name := by
      rw [List.map_map]
      rfl
    rw [Definition.bare, Definition.bare, hparameters, body.bare_bare]
  | binding x constant type initial sp =>
    cases initial with
    | none => exact .ok hs
    | some e => exact (same_eval henter e hs).bind fun v t t' ht => .ok (ht.define x v)
  | expression e sp => exact (same_eval henter e hs).bind fun v t t' ht => .ok ht
  | ifThen c yes sp =>
    refine (same_eval henter c hs).bind fun v t t' ht => ?_
    split
    · exact same_block henter yes ht
    · exact .ok ht
  | ifElse c yes no sp =>
    refine (same_eval henter c hs).bind fun v t t' ht => ?_
    split
    · exact same_block henter yes ht
    · exact same_block henter no ht
  | while_ c body sp =>
    refine same_iterate (fun ht => ?_) (fun ht => same_block henter body ht) rounds hs
    exact (same_eval henter c ht).bind fun v u u' hu => .ok hu
  | return_ value sp =>
    cases value with
    | none => exact .ok hs
    | some e => exact (same_eval henter e hs).bind fun v t t' ht => .ok ht
termination_by structural stmt

theorem same_block (henter : Blind enter) (body : Block) {s s' : Session} (hs : s.Alike s') :
    Same (body.exec enter rounds s) (body.bare.exec enter rounds s') := by
  cases body with
  | mk stmts sp => exact same_execFrom henter stmts hs
termination_by structural body

theorem same_execFrom (henter : Blind enter) (stmts : List Stmt) {last : Value}
    {s s' : Session} (hs : s.Alike s') :
    Same (Stmt.execFrom enter rounds last stmts s)
      (Stmt.execFrom enter rounds last (Stmt.bareList stmts) s') := by
  cases stmts with
  | nil => exact .ok hs
  | cons stmt stmts =>
    refine (same_exec henter stmt hs).bind fun flow t t' ht => ?_
    cases flow with
    | next v => exact same_execFrom henter stmts ht
    | leaving v => exact .ok ht
termination_by structural stmts

end

theorem blind_enter (rounds calls : Nat) : Blind (Block.enter rounds calls) := by
  induction calls with
  | zero => exact fun _ _ => .exhausted
  | succ calls ih =>
    intro b b' s s' hb hs
    have hleft : Same (Block.enter rounds (calls + 1) b s) (Block.enter rounds (calls + 1) b.bare s') :=
      same_block ih b hs
    rw [hb] at hleft
    exact hleft.trans (same_block ih b' (.refl s')).symm

theorem same_of_bareList (henter : Blind enter) {ss ss' : List Stmt} {last : Value}
    (h : Stmt.bareList ss = Stmt.bareList ss') (hs : s.Alike s') :
    Same (Stmt.execFrom enter rounds last ss s) (Stmt.execFrom enter rounds last ss' s') := by
  have hleft : Same (Stmt.execFrom enter rounds last ss s)
      (Stmt.execFrom enter rounds last (Stmt.bareList ss) s') := same_execFrom henter ss hs
  rw [h] at hleft
  exact hleft.trans (same_execFrom henter ss' (.refl s')).symm

end Semantics
end Dvilipi
