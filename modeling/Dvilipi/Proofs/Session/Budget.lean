import Dvilipi.Proofs.Semantics.Unique
import Dvilipi.Proofs.Semantics.Visits

/-!
Runs with a sink that fills up. A run whose sink takes a limited number of bytes does what the same run
does with an unlimited sink, up to the line that does not fit; there it stores what still fits and fails.
So one run is compared with itself under a limit: both sessions are the same but for the limit until the
line is written, and from then on the first only makes its output longer.
-/

namespace Dvilipi
set_option autoImplicit false

theorem Run.iterate_succ (test : Run Bool) (body : Run Flow) (n : Nat) :
    Run.iterate test body (n + 1) = (do
      if ← test then
        match ← body with
        | .next _ => Run.iterate test body n
        | .leaving v => return .leaving v
      else return .next .nil) := by
  funext s
  rw [Run.iterate, Action.bind_apply]
  cases test s with
  | ok b t =>
    cases b with
    | false => rfl
    | true =>
      simp only [if_true, Action.bind_apply]
      cases body t with
      | ok flow u => cases flow <;> rfl
      | failed e u => rfl
      | exhausted => rfl
  | failed e t => rfl
  | exhausted => rfl

namespace Sink

def limitedTo (n : Nat) (s : Sink) : Sink := { s with limit := some n }

variable {n : Nat} {s : Sink} {text : String}

theorem write_limitedTo_of_le (h : s.stored.size + text.utf8ByteSize ≤ n) :
    (s.limitedTo n).write text =
      (.ok (), { s with stored := s.stored ++ text.toUTF8 }.limitedTo n) := by
  have hsize : text.toUTF8.size = text.utf8ByteSize := String.size_toByteArray
  have hfits : ¬ min text.toUTF8.size (n - s.stored.size) < text.toUTF8.size := by omega
  unfold write
  simp only [accepted, limitedTo]
  exact if_neg hfits

theorem write_limitedTo_of_lt (hs : s.stored.size ≤ n)
    (h : n < s.stored.size + text.utf8ByteSize) :
    (s.limitedTo n).write text =
      (.error full, { s with stored := (s.stored ++ text.toUTF8).extract 0 n }.limitedTo n) := by
  have hsize : text.toUTF8.size = text.utf8ByteSize := String.size_toByteArray
  have hroom : min text.toUTF8.size (n - s.stored.size) = n - s.stored.size := by omega
  have hcut : n - s.stored.size < text.toUTF8.size := by omega
  have hstored : (s.stored ++ text.toUTF8).extract 0 n =
      s.stored ++ text.toUTF8.extract 0 (n - s.stored.size) := by
    have hall : s.stored.extract 0 n = s.stored := by
      rw [← ByteArray.extract_zero_size (b := s.stored), ByteArray.extract_extract]
      simp [hs]
    rw [ByteArray.extract_append, Nat.zero_sub, hall]
  unfold write
  simp only [accepted, limitedTo, hroom, if_pos hcut, hstored]

end Sink

namespace Session

/-- The session, with a sink that stores no more than `n` bytes. -/
def limited (n : Nat) (s : Session) : Session := { s with sink := s.sink.limitedTo n }

def Unlimited (s : Session) : Prop := s.sink.limit = none

end Session

namespace Semantics

/-- While `a` is run from `s`, no natives are called but those that every session begins with. -/
def UsesBuiltins (a : Task) (s : Session) : Prop :=
  ∀ f es sp t native, Visits a s (.expr (.call f es sp)) t → t.natives.get? f = some native →
    native = Native.print ∨ native = Native.typeOf

/-- While `a` is run from `s`, a call of `print` with the span `sp` is reached whose arguments leave no
more than `n` bytes stored, and its line goes beyond them. -/
def Crosses (n : Nat) (a : Task) (s : Session) (sp : Span) : Prop :=
  ∃ f es vs t u, Visits a s (.expr (.call f es sp)) t ∧ t.natives.get? f = some Native.print ∧
    EvaluatesAll es t (.ok vs) u ∧ u.sink.stored.size ≤ n ∧
    n < u.sink.stored.size + (Native.printedLine vs).utf8ByteSize

/-- A run from `s` ended with `r` in `t`. With the limit `n` its reply is the same if the output fits; if
it does not, the output was cut off at a place of which `C` holds. -/
structure Capped (n : Nat) (C : Span → Prop) {α : Type} (s : Session)
    (r : Except RuntimeError α) (t : Session) (reply : Reply RuntimeError Session α) : Prop where
  unlimited : t.Unlimited
  grows : ∃ more, t.sink.stored = s.sink.stored ++ more
  within : t.sink.stored.size ≤ n → reply = .ending r (t.limited n)
  beyond : s.sink.stored.size ≤ n → n < t.sink.stored.size →
    ∃ sp u, C sp ∧ reply = .ending (.error ⟨.outputFailed Sink.full, sp⟩) u ∧
      u.sink.stored = t.sink.stored.extract 0 n

/-- The run `p` from `s`, if it ends, against the same run with the limit `n`. -/
def Caps (n : Nat) (C : Span → Prop) {α : Type} (p : Run α) (s : Session) : Prop :=
  ∀ r t, p s = .ending r t → Capped n C s r t (p (s.limited n))

section

variable {n : Nat} {C : Span → Prop} {α β : Type} {s t : Session}

theorem Caps.silent {p : Run α} {r : Except RuntimeError α} (h : p s = .ending r t)
    (ht : t.Unlimited) (hsink : t.sink = s.sink)
    (hlimited : p (s.limited n) = .ending r (t.limited n)) : Caps n C p s := by
  intro r' t' h'
  obtain ⟨rfl, rfl⟩ := Reply.ending_inj (h'.symm.trans h)
  refine ⟨ht, ⟨.empty, ?_⟩, fun _ => hlimited, fun hle hlt => ?_⟩
  · rw [hsink, ByteArray.append_empty]
  · rw [hsink] at hlt
    exact absurd hle (Nat.not_le_of_lt hlt)

theorem Caps.congr {p q : Run α} (h : p s = q s) (hlimited : p (s.limited n) = q (s.limited n))
    (hq : Caps n C q s) : Caps n C p s := by
  intro r t hrun
  rw [hlimited]
  exact hq r t (h ▸ hrun)

theorem Caps.pure (hs : s.Unlimited) (a : α) : Caps n C (pure a) s :=
  .silent (r := .ok a) rfl hs rfl rfl

theorem extract_of_grows {a b more : ByteArray} (h : b = a ++ more) (hn : n ≤ a.size) :
    b.extract 0 n = a.extract 0 n := by
  rw [h, ByteArray.extract_append, Nat.zero_sub, Nat.sub_eq_zero_of_le hn]
  have hnone : more.extract 0 0 = .empty := by simp
  rw [hnone, ByteArray.append_empty]

theorem Caps.bind {p : Run α} {f : α → Run β} (h : Caps n C p s)
    (hf : ∀ a t, p s = .ok a t → t.Unlimited → Caps n C (f a) t) :
    Caps n C (p >>= f) s := by
  intro r t hrun
  rcases Action.bind_ending hrun with ⟨a, u, hp, hrest⟩ | ⟨e, rfl, hp⟩
  · have hfirst := h _ _ hp
    have hthen := hf a u hp hfirst.unlimited r t hrest
    obtain ⟨more, hmore⟩ := hfirst.grows
    obtain ⟨more', hmore'⟩ := hthen.grows
    refine ⟨hthen.unlimited, ⟨more ++ more', ?_⟩, fun hle => ?_, fun hs hlt => ?_⟩
    · rw [hmore', hmore, ByteArray.append_assoc]
    · have hu : u.sink.stored.size ≤ n := by
        rw [hmore', ByteArray.size_append] at hle
        omega
      rw [Action.bind_apply, hfirst.within hu]
      exact hthen.within hle
    · by_cases hu : u.sink.stored.size ≤ n
      · rw [Action.bind_apply, hfirst.within hu]
        exact hthen.beyond hu hlt
      · obtain ⟨sp, x, hsp, hreply, hx⟩ := hfirst.beyond hs (Nat.lt_of_not_le hu)
        refine ⟨sp, x, hsp, ?_, ?_⟩
        · rw [Action.bind_apply, hreply]
          rfl
        · rw [hx, extract_of_grows hmore' (Nat.le_of_not_le hu)]
  · have hfirst := h _ _ hp
    refine ⟨hfirst.unlimited, hfirst.grows, fun hle => ?_, fun hs hlt => ?_⟩
    · rw [Action.bind_apply, hfirst.within hle]
      rfl
    · obtain ⟨sp, x, hsp, hreply, hx⟩ := hfirst.beyond hs hlt
      refine ⟨sp, x, hsp, ?_, hx⟩
      rw [Action.bind_apply, hreply]
      rfl

theorem Caps.modify {f : Session → Session} (hs : (f s).Unlimited)
    (hsink : (f s).sink = s.sink) (hlimited : f (s.limited n) = (f s).limited n) :
    Caps n C (Action.modify f) s :=
  .silent (r := .ok ()) rfl hs hsink (congrArg (Reply.ok ()) hlimited)

theorem caps_lookup (hs : s.Unlimited) (x : String) (sp : Span) :
    Caps n C (Run.lookup x sp) s := by
  cases hx : s.environment.get? x with
  | some v =>
    have hlookup : ∀ t : Session, t.environment = s.environment → Run.lookup x sp t = .ok v t := by
      intro t ht
      rw [Run.lookup, ht, hx]
    exact .silent (r := .ok v) (hlookup s rfl) hs rfl (hlookup (s.limited n) rfl)
  | none =>
    have hlookup : ∀ t : Session, t.environment = s.environment →
        Run.lookup x sp t = .failed ⟨.undefinedVariable x, sp⟩ t := by
      intro t ht
      rw [Run.lookup, ht, hx]
    exact .silent (r := .error _) (hlookup s rfl) hs rfl (hlookup (s.limited n) rfl)

/-- What a call of `print` gives when its line is written. -/
def flushed (sp : Span) (sink : Sink) : Except RuntimeError Value :=
  match sink.flush with
  | .ok () => .ok .nil
  | .error detail => .error ⟨.outputFailed detail, sp⟩

theorem callNative_print {vs : List Value} {sp : Span} {sink : Sink}
    (h : s.sink.write (Native.printedLine vs) = (.ok (), sink)) :
    Run.callNative Native.print vs sp s = .ending (flushed sp sink) { s with sink } := by
  simp only [Run.callNative, Native.print, h, flushed]
  cases sink.flush <;> rfl

theorem callNative_print_error {vs : List Value} {sp : Span} {detail : String} {sink : Sink}
    (h : s.sink.write (Native.printedLine vs) = (.error detail, sink)) :
    Run.callNative Native.print vs sp s =
      .ending (.error ⟨.outputFailed detail, sp⟩) { s with sink } := by
  simp only [Run.callNative, Native.print, h]
  rfl

/-- A line is written: this is where the output grows, and where it may go beyond the limit. -/
theorem caps_print (hs : s.Unlimited) {vs : List Value} {sp : Span}
    (hC : s.sink.stored.size ≤ n →
      n < s.sink.stored.size + (Native.printedLine vs).utf8ByteSize → C sp) :
    Caps n C (Run.callNative Native.print vs sp) s := by
  intro r t hrun
  have hwrite := s.sink.write_unlimited hs (Native.printedLine vs)
  obtain ⟨rfl, rfl⟩ := Reply.ending_inj ((callNative_print hwrite).symm.trans hrun)
  have hsize : (s.sink.stored ++ (Native.printedLine vs).toUTF8).size =
      s.sink.stored.size + (Native.printedLine vs).utf8ByteSize := ByteArray.size_append
  refine ⟨hs, ⟨_, rfl⟩, fun hle => ?_, fun hle hlt => ?_⟩
  · exact callNative_print (s := s.limited n) (Sink.write_limitedTo_of_le (hsize ▸ hle))
  · have hcross : n < s.sink.stored.size + (Native.printedLine vs).utf8ByteSize := hsize ▸ hlt
    have hfull := Sink.write_limitedTo_of_lt hle hcross
    exact ⟨sp, _, hC hle hcross, callNative_print_error (s := s.limited n) hfull, rfl⟩

theorem caps_typeOf (hs : s.Unlimited) (vs : List Value) (sp : Span) :
    Caps n C (Run.callNative Native.typeOf vs sp) s := by
  cases vs with
  | nil => exact .silent (r := .ok _) rfl hs rfl rfl
  | cons v vs => exact .silent (r := .ok _) rfl hs rfl rfl

theorem callUser_eq_ending {enter : Block → Run Flow} {f : String} {d : Definition}
    {vs : List Value} {sp : Span} {r : Except RuntimeError Value} (hlt : s.depth < 256) :
    Run.callUser enter f d vs sp s = .ending r t ↔
      ∃ r' u, enter d.body (Run.calleeState d vs s) = .ending r' u ∧
        r = r'.map Flow.value ∧ t = Run.callerState s u := by
  rw [Run.callUser, if_neg (Nat.not_le_of_lt hlt : ¬ Session.maxDepth ≤ s.depth)]
  constructor
  · intro h
    split at h
    · next flow u hbody =>
      obtain ⟨rfl, rfl⟩ := Reply.ok_ending h
      exact ⟨.ok flow, u, hbody, rfl, rfl⟩
    · next err u hbody =>
      obtain ⟨rfl, rfl⟩ := Reply.failed_ending h
      exact ⟨.error err, u, hbody, rfl, rfl⟩
    · cases r <;> cases h
  · rintro ⟨r', u, hbody, rfl, rfl⟩
    rw [hbody]
    cases r' <;> rfl

theorem caps_callUser {enter : Block → Run Flow} {d : Definition} {vs : List Value}
    (hs : s.Unlimited)
    (hbody : s.depth < 256 → Caps n C (enter d.body) (Run.calleeState d vs s)) (f : String)
    (sp : Span) : Caps n C (Run.callUser enter f d vs sp) s := by
  by_cases hlt : s.depth < 256
  · intro r t hrun
    obtain ⟨r', u, hu, rfl, rfl⟩ := (callUser_eq_ending hlt).mp hrun
    have hcapped := hbody hlt r' u hu
    refine ⟨hcapped.unlimited,
      hcapped.grows, fun hle => ?_, fun hle hcross => ?_⟩
    · exact (callUser_eq_ending (s := s.limited n) hlt).mpr ⟨_, _, hcapped.within hle, rfl, rfl⟩
    · obtain ⟨sp', x, hsp', hreply, hx⟩ := hcapped.beyond hle hcross
      exact ⟨sp', Run.callerState (s.limited n) x, hsp',
        (callUser_eq_ending (s := s.limited n) hlt).mpr ⟨_, _, hreply, rfl, rfl⟩, hx⟩
  · have hle : 256 ≤ s.depth := Nat.le_of_not_lt hlt
    exact .silent (callUser_of_depth_le hle) hs rfl (callUser_of_depth_le (s := s.limited n) hle)

end

section

variable {n : Nat} {a : Task} {origin : Session} {enter : Block → Run Flow}

/-- `enter` runs the bodies that are reached from the origin as the rules have it, and with a limit as
without one. -/
structure Metered (n : Nat) (a : Task) (origin : Session)
    (enter : Block → Run Flow) : Prop where
  sound : Sound enter
  builtins : UsesBuiltins a origin
  caps : ∀ {body : Block} {s : Session}, s.Unlimited → Visits a origin (.sequence .nil body.statements) s →
    Caps n (Crosses n a origin) (enter body) s

mutual

theorem caps_eval (henter : Metered n a origin enter) (e : Expr) {s : Session} (hs : s.Unlimited)
    (hvisit : Visits a origin (.expr e) s) : Caps n (Crosses n a origin) (e.eval enter) s := by
  cases e with
  | number x sp => exact .pure hs _
  | string text sp => exact .pure hs _
  | reference x sp => exact caps_lookup hs x sp
  | assign x e sp =>
    refine (caps_eval henter e hs (hvisit.next .assign)).bind fun v t _ ht => ?_
    refine Caps.bind (.modify ht rfl rfl) fun _ u _ hu => ?_
    exact .pure hu v
  | binary op b c sp =>
    refine (caps_eval henter b hs (hvisit.next .binary_left)).bind fun v t hv ht => ?_
    have hleft := evaluates_of_eval henter.sound b (r := .ok v) hv
    refine (caps_eval henter c ht (hvisit.next (.binary_right hleft))).bind
      fun w u _ hu => ?_
    exact .pure hu _
  | logical op b c sp =>
    refine (caps_eval henter b hs (hvisit.next .logical_left)).bind fun v t hv ht => ?_
    have hleft := evaluates_of_eval henter.sound b (r := .ok v) hv
    split
    · exact .pure ht v
    · next hopen =>
      refine caps_eval henter c ht (hvisit.next ?_)
      cases op with
      | and => exact .and_right hleft (by simpa [LogicalOp.decides] using hopen)
      | or => exact .or_right hleft (by simpa [LogicalOp.decides] using hopen)
  | unary op e sp =>
    exact (caps_eval henter e hs (hvisit.next .unary)).bind fun v t _ ht => .pure ht _
  | call f es sp =>
    cases hn : s.natives.get? f with
    | some native =>
      refine .congr (eval_call_native hn) (eval_call_native (s := s.limited n) hn) ?_
      have hlist := hvisit.next (.arguments (hasFunction_native hn))
      refine (caps_evalList henter es hs hlist).bind fun vs t hvs ht => ?_
      have hes := evaluatesAll_of_evalList henter.sound es (r := .ok vs) hvs
      rcases henter.builtins f es sp s native hvisit hn with rfl | rfl
      · exact caps_print ht fun hle hcross => ⟨f, es, vs, s, t, hvisit, hn, hes, hle, hcross⟩
      · exact caps_typeOf ht vs sp
    | none =>
      cases hf : s.functions.get? f with
      | some d =>
        refine .congr (eval_call_user hn hf) (eval_call_user (s := s.limited n) hn hf) ?_
        have hlist := hvisit.next (.arguments (hasFunction_user hf))
        refine (caps_evalList henter es hs hlist).bind fun vs t hvs ht => ?_
        have hes := evaluatesAll_of_evalList henter.sound es (r := .ok vs) hvs
        refine caps_callUser ht (fun hlt => ?_) f sp
        refine henter.caps ht ?_
        rw [← entered_eq_calleeState]
        exact hvisit.next (.body hn hf hes hlt)
      | none =>
        exact .silent (r := .error ⟨.undefinedFunction f, sp⟩) (eval_call_undefined hn hf) hs rfl
          (eval_call_undefined (s := s.limited n) hn hf)
termination_by structural e

theorem caps_evalList (henter : Metered n a origin enter) (es : List Expr) {s : Session} (hs : s.Unlimited)
    (hvisit : Visits a origin (.list es) s) :
    Caps n (Crosses n a origin) (Expr.evalList enter es) s := by
  cases es with
  | nil => exact .pure hs _
  | cons e es =>
    refine (caps_eval henter e hs (hvisit.next .head)).bind fun v t hv ht => ?_
    have hhead := evaluates_of_eval henter.sound e (r := .ok v) hv
    refine (caps_evalList henter es ht (hvisit.next (.tail hhead))).bind fun vs u _ hu => ?_
    exact .pure hu _
termination_by structural es

end

theorem caps_iterate (henter : Metered n a origin enter) {c : Expr} {body : Block}
    {sp : Span} {run : Run Flow}
    (hsound : ∀ {s t : Session} {r : Except RuntimeError Flow},
      run s = .ending r t → Sequence .nil body.statements s r t)
    (hrun : ∀ {s : Session}, s.Unlimited →
      Visits a origin (.sequence .nil body.statements) s →
      Caps n (Crosses n a origin) run s)
    (k : Nat) {s : Session} (hs : s.Unlimited)
    (hvisit : Visits a origin (.statement (.while_ c body sp)) s) :
    Caps n (Crosses n a origin) (Run.iterate (test enter c) run k) s := by
  induction k generalizing s with
  | zero =>
    intro r t h
    cases r <;> cases h
  | succ k ih =>
    rw [Run.iterate_succ]
    have htest : Caps n (Crosses n a origin) (test enter c) s :=
      (caps_eval henter c hs (hvisit.next .while_condition)).bind fun v t _ ht => .pure ht _
    refine htest.bind fun b t hb ht => ?_
    obtain ⟨v, u, hv, hpure⟩ := Action.bind_eq_ok.mp hb
    cases hpure
    have hcondition := evaluates_of_eval henter.sound c (r := .ok v) hv
    split
    · next htrue =>
      have hbegins := hvisit.next (.while_body hcondition htrue)
      refine (hrun ht hbegins).bind fun flow x hflow hx => ?_
      cases flow with
      | next w =>
        have hround := hsound (r := .ok (.next w)) hflow
        exact ih hx (hvisit.next (.while_again hcondition htrue hround))
      | leaving w => exact .pure hx _
    · exact .pure ht _

variable {rounds : Nat}

mutual

theorem caps_exec (henter : Metered n a origin enter) (stmt : Stmt) {s : Session}
    (hs : s.Unlimited) (hvisit : Visits a origin (.statement stmt) s) :
    Caps n (Crosses n a origin) (stmt.exec enter rounds) s := by
  cases stmt with
  | function f ps result body sp =>
    exact Caps.bind (.modify hs rfl rfl) fun _ t _ ht => .pure ht _
  | binding x constant type initial sp =>
    cases initial with
    | none => exact .pure hs _
    | some e =>
      refine (caps_eval henter e hs (hvisit.next .binding)).bind fun v t _ ht => ?_
      refine Caps.bind (.modify ht rfl rfl) fun _ u _ hu => ?_
      exact .pure hu _
  | expression e sp =>
    exact (caps_eval henter e hs (hvisit.next .expression)).bind
      fun v t _ ht => .pure ht _
  | ifThen c yes sp =>
    refine (caps_eval henter c hs (hvisit.next .then_condition)).bind fun v t hv ht => ?_
    have hcondition := evaluates_of_eval henter.sound c (r := .ok v) hv
    split
    · next htrue =>
      exact caps_block henter yes ht (hvisit.next (.then_taken hcondition htrue))
    · exact .pure ht _
  | ifElse c yes no sp =>
    refine (caps_eval henter c hs (hvisit.next .else_condition)).bind fun v t hv ht => ?_
    have hcondition := evaluates_of_eval henter.sound c (r := .ok v) hv
    split
    · next htrue =>
      exact caps_block henter yes ht (hvisit.next (.else_yes hcondition htrue))
    · next hfalse =>
      have hbegins := hvisit.next (.else_no hcondition (eq_false_of_ne_true hfalse))
      exact caps_block henter no ht hbegins
  | while_ c body sp =>
    refine caps_iterate henter (fun h => sequence_of_exec henter.sound body h) (fun ht hbegins => ?_)
      rounds hs hvisit
    exact caps_block henter body ht hbegins
  | return_ value sp =>
    cases value with
    | none => exact .pure hs _
    | some e =>
      exact (caps_eval henter e hs (hvisit.next .return_)).bind
        fun v t _ ht => .pure ht _
termination_by structural stmt

theorem caps_block (henter : Metered n a origin enter) (body : Block) {s : Session}
    (hs : s.Unlimited) (hvisit : Visits a origin (.sequence .nil body.statements) s) :
    Caps n (Crosses n a origin) (body.exec enter rounds) s := by
  cases body with
  | mk stmts sp => exact caps_execFrom henter stmts hs hvisit
termination_by structural body

theorem caps_execFrom (henter : Metered n a origin enter) (stmts : List Stmt) {last : Value} {s : Session}
    (hs : s.Unlimited) (hvisit : Visits a origin (.sequence last stmts) s) :
    Caps n (Crosses n a origin) (Stmt.execFrom enter rounds last stmts) s := by
  cases stmts with
  | nil => exact .pure hs _
  | cons stmt stmts =>
    refine (caps_exec henter stmt hs (hvisit.next .first)).bind fun flow t hflow ht => ?_
    cases flow with
    | next v =>
      have hfirst := executes_of_exec henter.sound stmt (r := .ok (.next v)) hflow
      exact caps_execFrom henter stmts ht (hvisit.next (.following hfirst))
    | leaving v => exact .pure ht _
termination_by structural stmts

end

end

theorem metered_enter (n : Nat) {a : Task} {origin : Session} (h : UsesBuiltins a origin)
    (rounds calls : Nat) : Metered n a origin (Block.enter rounds calls) := by
  induction calls with
  | zero =>
    refine ⟨sound_enter rounds 0, h, fun _ _ r t hrun => ?_⟩
    cases r <;> cases hrun
  | succ calls ih =>
    exact ⟨sound_enter rounds (calls + 1), h, fun hs hvisit => caps_block ih _ hs hvisit⟩

theorem caps_interpret (n : Nat) {p : Program} {s : Session}
    (h : UsesBuiltins (.sequence .nil p.statements) s) (hs : s.Unlimited) (rounds : Nat) :
    Caps n (Crosses n (.sequence .nil p.statements) s) (Session.interpret rounds p) s :=
  (caps_execFrom (metered_enter n h rounds Session.maxDepth) p.statements hs .here).bind
    fun _ _ _ ht => .pure ht _

end Semantics
end Dvilipi
