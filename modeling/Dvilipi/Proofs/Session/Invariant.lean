import Dvilipi.Proofs.Semantics.Sound
import Dvilipi.Proofs.Tree.Every

/-!
What a run keeps. The bodies that a session stores come from the program or were there before, so what
holds throughout both holds of all that is ever run. Errors are raised by calls and by references to
variables, and only loops can use up the rounds.
-/

namespace Dvilipi
set_option autoImplicit false

/-- `I` holds of the state that is left behind and `E` of the error; if there is neither, `X` holds. -/
def Reply.Within {ε σ α : Type} (I : σ → Prop) (E : ε → Prop) (X : Prop) : Reply ε σ α → Prop
  | .ok _ s => I s
  | .failed e s => E e ∧ I s
  | .exhausted => X

theorem Reply.Within.bind {ε σ α β : Type} {I : σ → Prop} {E : ε → Prop} {X : Prop}
    {p : Action ε σ α} {f : α → Action ε σ β} {s : σ} (h : (p s).Within I E X)
    (hf : ∀ a t, I t → (f a t).Within I E X) : ((p >>= f) s).Within I E X := by
  rw [Action.bind_apply]
  cases hp : p s with
  | ok a t =>
    rw [hp] at h
    exact hf a t h
  | failed e t =>
    rw [hp] at h
    exact h
  | exhausted =>
    rw [hp] at h
    exact h

/-- The error is one that the expression itself can raise, with the span of the expression. -/
def RuntimeError.RaisedAt (natives : Table Native) (err : RuntimeError) : Expr → Prop
  | .reference x sp => err = ⟨.undefinedVariable x, sp⟩
  | .call f _ sp =>
    err = ⟨.undefinedFunction f, sp⟩ ∨ err = ⟨.callDepthExceeded f Session.maxDepth, sp⟩ ∨
      natives.contains f = true ∧ ∃ detail, err = ⟨.outputFailed detail, sp⟩
  | _ => False

/-- The error is raised at an expression of which `P` holds. -/
def RuntimeError.Raised (P : Expr → Prop) (natives : Table Native) (err : RuntimeError) : Prop :=
  ∃ e, P e ∧ err.RaisedAt natives e

namespace Session

/-- `P` and `Q` hold throughout the bodies that the session stores. -/
def Every (P : Expr → Prop) (Q : Stmt → Prop) (s : Session) : Prop :=
  ∀ name d, s.functions.get? name = some d → d.body.Every P Q

theorem every_fresh (P : Expr → Prop) (Q : Stmt → Prop) (sink : Sink) : (fresh sink).Every P Q :=
  nofun

theorem Every.imp {P P' : Expr → Prop} {Q Q' : Stmt → Prop} {s : Session} (hP : ∀ e, P e → P' e)
    (hQ : ∀ stmt, Q stmt → Q' stmt) (h : s.Every P Q) : s.Every P' Q' :=
  fun name d hd => (h name d hd).imp hP hQ

theorem Every.declare {P : Expr → Prop} {Q : Stmt → Prop} {s : Session} {d : Definition}
    (h : s.Every P Q) (hd : d.body.Every P Q) : (s.declare d).Every P Q := by
  intro name d' hd'
  have hget : (s.functions.insert d.name d).get? name = some d' := hd'
  rw [Table.get?_insert] at hget
  split at hget
  · cases hget
    exact hd
  · exact h name d' hget

/-- What stays the same at one depth of calls. -/
structure Keeps (P : Expr → Prop) (Q : Stmt → Prop) (natives : Table Native) (depth : Nat)
    (s : Session) : Prop where
  bodies : s.Every P Q
  natives : s.natives = natives
  depth : s.depth = depth

end Session

namespace Semantics

variable {P : Expr → Prop} {Q : Stmt → Prop} {X : Prop} {natives : Table Native} {depth : Nat}
  {enter : Block → Run Flow} {s : Session}

/-- The reply of a run at some depth of calls. -/
abbrev Sane (P : Expr → Prop) (Q : Stmt → Prop) (X : Prop) (natives : Table Native) (depth : Nat)
    {α : Type} : Reply RuntimeError Session α → Prop :=
  Reply.Within (Session.Keeps P Q natives depth) (RuntimeError.Raised P natives) X

/-- `enter` runs bodies as they should be run by the calls of some depth. -/
def Admits (P : Expr → Prop) (Q : Stmt → Prop) (X : Prop) (natives : Table Native) (depth : Nat)
    (enter : Block → Run Flow) : Prop :=
  depth < 256 → ∀ {body : Block} {s : Session}, body.Every P Q →
    s.Keeps P Q natives (depth + 1) → Sane P Q X natives (depth + 1) (enter body s)

theorem sane_lookup {x : String} {sp : Span} (hP : P (.reference x sp))
    (hs : s.Keeps P Q natives depth) : Sane P Q X natives depth (Run.lookup x sp s) := by
  unfold Run.lookup
  split
  · exact hs
  · exact ⟨⟨_, hP, rfl⟩, hs⟩

theorem sane_callNative {f : String} {es : List Expr} {sp : Span} {n : Native} {vs : List Value}
    (hP : P (.call f es sp)) (hf : natives.get? f = some n) (hs : s.Keeps P Q natives depth) :
    Sane P Q X natives depth (Run.callNative n vs sp s) := by
  obtain ⟨hbodies, hnatives, hdepth⟩ := hs
  have hcontains : natives.contains f = true := by rw [Table.contains, hf]; rfl
  unfold Run.callNative
  split
  · exact ⟨hbodies, hnatives, hdepth⟩
  · exact ⟨⟨_, hP, .inr (.inr ⟨hcontains, _, rfl⟩)⟩, hbodies, hnatives, hdepth⟩

theorem sane_callUser (henter : Admits P Q X natives depth enter) {f : String} {es : List Expr}
    {sp : Span} {d : Definition} {vs : List Value} (hP : P (.call f es sp))
    (hd : d.body.Every P Q) (hs : s.Keeps P Q natives depth) :
    Sane P Q X natives depth (Run.callUser enter f d vs sp s) := by
  unfold Run.callUser
  split
  · exact ⟨⟨_, hP, .inr (.inl rfl)⟩, hs⟩
  · next hle =>
    have hlt : depth < 256 := hs.depth ▸ Nat.lt_of_not_le hle
    have hcallee : (Run.calleeState d vs s).Keeps P Q natives (depth + 1) :=
      ⟨hs.bodies, hs.natives, congrArg (· + 1) hs.depth⟩
    have hbody := henter hlt hd hcallee
    have hcaller : ∀ u, u.Keeps P Q natives (depth + 1) →
        (Run.callerState s u).Keeps P Q natives depth := fun u hu =>
      ⟨hu.bodies, hu.natives, congrArg (· - 1) hu.depth⟩
    split
    · next flow u heq =>
      rw [heq] at hbody
      exact hcaller u hbody
    · next err u heq =>
      rw [heq] at hbody
      exact ⟨hbody.1, hcaller u hbody.2⟩
    · next heq =>
      rw [heq] at hbody
      exact hbody

mutual

theorem sane_eval (henter : Admits P Q X natives depth enter) (e : Expr) (he : e.Every P)
    {s : Session} (hs : s.Keeps P Q natives depth) : Sane P Q X natives depth (e.eval enter s) := by
  cases e with
  | number x sp => exact hs
  | string text sp => exact hs
  | reference x sp => exact sane_lookup he hs
  | assign x e sp =>
    refine (sane_eval henter e he.2 hs).bind fun v t ht => ?_
    exact ⟨ht.bodies, ht.natives, ht.depth⟩
  | binary op a b sp =>
    refine (sane_eval henter a he.2.1 hs).bind fun v t ht => ?_
    exact (sane_eval henter b he.2.2 ht).bind fun w u hu => hu
  | logical op a b sp =>
    refine (sane_eval henter a he.2.1 hs).bind fun v t ht => ?_
    split
    · exact ht
    · exact sane_eval henter b he.2.2 ht
  | unary op e sp => exact (sane_eval henter e he.2 hs).bind fun v t ht => ht
  | call f es sp =>
    cases hn : s.natives.get? f with
    | some n =>
      rw [eval_call_native hn]
      refine (sane_evalList henter es he.2 hs).bind fun vs t ht => ?_
      exact sane_callNative he.1 (hs.natives ▸ hn) ht
    | none =>
      cases hf : s.functions.get? f with
      | some d =>
        rw [eval_call_user hn hf]
        refine (sane_evalList henter es he.2 hs).bind fun vs t ht => ?_
        exact sane_callUser henter he.1 (hs.bodies f d hf) ht
      | none =>
        rw [eval_call_undefined hn hf]
        exact ⟨⟨_, he.1, .inl rfl⟩, hs⟩
termination_by structural e

theorem sane_evalList (henter : Admits P Q X natives depth enter) (es : List Expr)
    (hes : Expr.EveryOf P es) {s : Session} (hs : s.Keeps P Q natives depth) :
    Sane P Q X natives depth (Expr.evalList enter es s) := by
  cases es with
  | nil => exact hs
  | cons e es =>
    refine (sane_eval henter e hes.1 hs).bind fun v t ht => ?_
    exact (sane_evalList henter es hes.2 ht).bind fun vs u hu => hu
termination_by structural es

end

theorem sane_iterate {test : Run Bool} {body : Run Flow} (hX : X)
    (htest : ∀ {s : Session}, s.Keeps P Q natives depth → Sane P Q X natives depth (test s))
    (hbody : ∀ {s : Session}, s.Keeps P Q natives depth → Sane P Q X natives depth (body s))
    (n : Nat) {s : Session} (hs : s.Keeps P Q natives depth) :
    Sane P Q X natives depth (Run.iterate test body n s) := by
  induction n generalizing s with
  | zero => exact hX
  | succ n ih =>
    have ht := htest hs
    unfold Run.iterate
    split
    · next t heq =>
      rw [heq] at ht
      have hb := hbody ht
      split
      · next v u hu =>
        rw [hu] at hb
        exact ih hb
      all_goals
        next hu =>
        rw [hu] at hb
        exact hb
    all_goals
      next heq =>
      rw [heq] at ht
      exact ht

variable {rounds : Nat}

mutual

theorem sane_exec (hloop : ∀ c body sp, Q (.while_ c body sp) → X)
    (henter : Admits P Q X natives depth enter) (stmt : Stmt) (hstmt : stmt.Every P Q)
    {s : Session} (hs : s.Keeps P Q natives depth) :
    Sane P Q X natives depth (stmt.exec enter rounds s) := by
  cases stmt with
  | function f ps result body sp => exact ⟨hs.bodies.declare hstmt.2, hs.natives, hs.depth⟩
  | binding x constant type initial sp =>
    cases initial with
    | none => exact hs
    | some e =>
      refine (sane_eval henter e (hstmt.2 e rfl) hs).bind fun v t ht => ?_
      exact ⟨ht.bodies, ht.natives, ht.depth⟩
  | expression e sp => exact (sane_eval henter e hstmt.2 hs).bind fun v t ht => ht
  | ifThen c yes sp =>
    obtain ⟨-, hc, hyes⟩ := hstmt
    refine (sane_eval henter c hc hs).bind fun v t ht => ?_
    split
    · exact sane_block hloop henter yes hyes ht
    · exact ht
  | ifElse c yes no sp =>
    obtain ⟨-, hc, hyes, hno⟩ := hstmt
    refine (sane_eval henter c hc hs).bind fun v t ht => ?_
    split
    · exact sane_block hloop henter yes hyes ht
    · exact sane_block hloop henter no hno ht
  | while_ c body sp =>
    obtain ⟨hwhile, hc, hbody⟩ := hstmt
    refine sane_iterate (hloop c body sp hwhile) (fun ht => ?_) (fun ht => ?_) rounds hs
    · exact (sane_eval henter c hc ht).bind fun v u hu => hu
    · exact sane_block hloop henter body hbody ht
  | return_ value sp =>
    cases value with
    | none => exact hs
    | some e => exact (sane_eval henter e (hstmt.2 e rfl) hs).bind fun v t ht => ht
termination_by structural stmt

theorem sane_block (hloop : ∀ c body sp, Q (.while_ c body sp) → X)
    (henter : Admits P Q X natives depth enter) (body : Block) (hbody : body.Every P Q)
    {s : Session} (hs : s.Keeps P Q natives depth) :
    Sane P Q X natives depth (body.exec enter rounds s) := by
  cases body with
  | mk stmts sp => exact sane_execFrom hloop henter stmts hbody hs
termination_by structural body

theorem sane_execFrom (hloop : ∀ c body sp, Q (.while_ c body sp) → X)
    (henter : Admits P Q X natives depth enter) (stmts : List Stmt)
    (hstmts : Stmt.EveryOf P Q stmts) {last : Value} {s : Session} (hs : s.Keeps P Q natives depth) :
    Sane P Q X natives depth (Stmt.execFrom enter rounds last stmts s) := by
  cases stmts with
  | nil => exact hs
  | cons stmt stmts =>
    refine (sane_exec hloop henter stmt hstmts.1 hs).bind fun flow t ht => ?_
    cases flow with
    | next v => exact sane_execFrom hloop henter stmts hstmts.2 ht
    | leaving v => exact ht
termination_by structural stmts

end

theorem admits_enter (hloop : ∀ c body sp, Q (.while_ c body sp) → X) {calls : Nat}
    (hcalls : 256 ≤ depth + calls) : Admits P Q X natives depth (Block.enter rounds calls) := by
  induction calls generalizing depth with
  | zero =>
    intro hlt
    omega
  | succ calls ih =>
    intro _ body s hbody hs
    exact sane_block hloop (ih (by omega)) body hbody hs

/-- Throughout a run the session keeps what holds of its bodies and of the program. -/
theorem sane_interpret (hloop : ∀ c body sp, Q (.while_ c body sp) → X) {p : Program}
    (hp : p.Every P Q) (hs : s.Every P Q) (rounds : Nat) :
    Sane P Q X s.natives s.depth (Session.interpret rounds p s) := by
  have henter : Admits P Q X s.natives s.depth (Block.enter rounds Session.maxDepth) :=
    admits_enter hloop (Nat.le_add_left _ _)
  exact (sane_execFrom hloop henter p.statements hp ⟨hs, rfl, rfl⟩).bind fun flow t ht => ht

end Semantics
end Dvilipi
