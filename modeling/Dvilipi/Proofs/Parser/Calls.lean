import Dvilipi.Proofs.Parser.OnDemand
import Dvilipi.Proofs.Token.Cursor
import Dvilipi.Proofs.Tree.Determined

/-!
A parser that is called again and again, whether it succeeds or fails. Each call goes on where the one
before it stopped, so the tokens that are read for them are consecutive pieces of what the lexer gives.
A lexical error is final: the parser stays where it is, and no later call succeeds.
-/

namespace Dvilipi
set_option autoImplicit false

namespace Token.Stream

variable {stream : Stream} {t : Token} {e : LexError} {n : Nat}

theorem drop_drop (stream : Stream) (m n : Nat) : (stream.drop m).drop n = stream.drop (m + n) := by
  simp only [drop, List.drop_drop]

theorem drop_of_head (h : (stream.drop n).head = .ok t) (ht : t.isEnd = false) :
    stream.tokens.drop n = t :: stream.tokens.drop (n + 1) := by
  unfold head at h
  split at h
  · next u us hcons =>
    cases h
    have htokens : stream.tokens.drop n = t :: us := hcons
    rw [← List.drop_drop, htokens, List.drop_one, List.tail_cons]
  · rw [stream.last_isEnd t h] at ht
    cases ht

theorem ends_of_head (h : (stream.drop n).head = .error e) :
    stream.tokens.drop n = [] ∧ stream.last = .error e := by
  unfold head at h
  split at h
  · cases h
  · next hnil => exact ⟨hnil, h⟩

end Token.Stream

namespace Parser

inductive Call where
  | expression
  | program
  deriving DecidableEq, Repr

inductive Answer where
  | expression (reply : Except ParseError Expr)
  | program (reply : Except ParseError Program)

def Answer.error? : Answer → Option ParseError
  | .expression (.error e) => some e
  | .program (.error e) => some e
  | _ => none

theorem Answer.error?_expression {reply : Except ParseError Expr} {x : ParseError} :
    (expression reply).error? = some x ↔ reply = .error x := by
  cases reply <;> simp [error?]

theorem Answer.error?_program {reply : Except ParseError Program} {x : ParseError} :
    (program reply).error? = some x ↔ reply = .error x := by
  cases reply <;> simp [error?]

section Calls

variable {σ : Type} [TokenSource σ]

def perform (p : Parser σ) : Call → Answer × Parser σ
  | .expression => (.expression p.parseExpression.1, p.parseExpression.2)
  | .program => (.program p.parseProgram.1, p.parseProgram.2)

def after (p : Parser σ) (calls : List Call) : Parser σ :=
  calls.foldl (fun q call => (q.perform call).2) p

def answers (p : Parser σ) : List Call → List Answer
  | [] => []
  | call :: calls => (p.perform call).1 :: (p.perform call).2.answers calls

end Calls

/-- The token in view stands at the place `n` of the stream, and the lexer behind it. -/
structure At (stream : Token.Stream) (n : Nat) (p : Parser Lexer) : Prop where
  current : (stream.drop n).head = .ok p.current
  source : p.source.stream = stream.drop (n + 1)

/-- How a call ends that has read the tokens `ts` from the place `n` on, with the token `view` in view:
with a value that stands in the relation to these tokens, with a complaint about one of them or the token
in view, or with the error that the stream ends with, right behind the token in view. -/
inductive Outcome {α : Type} (stream : Token.Stream) (n : Nat) (R : List Token → α → Prop)
    (ts : List Token) (view : Token) : Except ParseError α → Prop where
  | ok {a : α} (h : R ts a) : Outcome stream n R ts view (.ok a)
  | rejected {expected : Expected} {found : Token} (h : found ∈ ts ++ [view]) :
      Outcome stream n R ts view (.error (.grammatical ⟨expected, found⟩))
  | stuck {e : LexError} (hrest : stream.tokens.drop n = ts ++ [view])
      (h : stream.last = .error e) : Outcome stream n R ts view (.error (.lexical e))

/-- An expression is read from at least one token, a program from all that are left. -/
def Answer.Fits (stream : Token.Stream) (n : Nat) (ts : List Token) (view : Token) : Answer → Prop
  | .expression r => Outcome stream n (fun ts e => ts ≠ [] ∧ e.ReadFrom ts) ts view r
  | .program r => Outcome stream n
      (fun ts a => Stmt.AllReadFrom a.statements ts ∧ view.content = .endOfInput) ts view r

/-- From the place `n` of the stream on, each of the calls reads its tokens, where the one before it
stopped. -/
inductive Serves (stream : Token.Stream) : Nat → Parser Lexer → List Call → List (List Token) → Prop where
  | nil {n : Nat} {p : Parser Lexer} (h : p.At stream n) : Serves stream n p [] []
  | cons {n : Nat} {p q : Parser Lexer} {call : Call} {answer : Answer} {calls : List Call}
      {ts : List Token} {segments : List (List Token)} (h : p.At stream n)
      (hcall : p.perform call = (answer, q)) (hts : ts <+: stream.tokens.drop n)
      (hfits : answer.Fits stream n ts q.current)
      (hrest : Serves stream (n + ts.length) q calls segments) :
      Serves stream n p (call :: calls) (ts :: segments)

variable {stream : Token.Stream} {n : Nat} {p q r : Parser Lexer} {ts : List Token} {e : LexError}

theorem failed_of_advance (h : advance q = .failed (.lexical e) r) :
    q.source.next = (.error e, r.source) ∧ r.current = q.current := by
  unfold advance at h
  split at h
  · cases h
  · next hnext =>
    cases h
    exact ⟨hnext, rfl⟩

namespace At

theorem advance {t : Token} (h : p.At stream n) (hstep : Parser.advance p = .ok t q) :
    q.At stream (n + 1) := by
  obtain ⟨hhead, htail⟩ := p.source.next_eq_head
  rw [next_of_advance hstep, h.source] at hhead htail
  exact ⟨hhead.symm, by rw [htail, Token.Stream.drop_drop]⟩

theorem consumed (h : p.At stream n) (hts : Consumed p ts q) :
    q.At stream (n + ts.length) ∧ ts <+: stream.tokens.drop n := by
  induction hts generalizing n with
  | nil => exact ⟨h, List.nil_prefix⟩
  | cons hend hstep _ ih =>
    obtain ⟨hat, hprefix⟩ := ih (h.advance hstep)
    rw [Token.Stream.drop_of_head h.current (Token.isEnd_eq_false_iff.mpr hend)]
    refine ⟨?_, List.cons_prefix_cons.mpr ⟨rfl, hprefix⟩⟩
    rwa [List.length_cons, Nat.add_comm _ 1, ← Nat.add_assoc]

/-- Where the lexer fails, the parser stays, and the token in view is the last of the stream. -/
theorem stuck (h : q.At stream n) (hend : q.current.content ≠ .endOfInput)
    (hstep : Parser.advance q = .failed (.lexical e) r) :
    r.At stream n ∧ stream.tokens.drop n = [q.current] ∧ stream.last = .error e := by
  obtain ⟨hnext, hcurrent⟩ := failed_of_advance hstep
  obtain ⟨hhead, htail⟩ := q.source.next_eq_head
  rw [hnext, h.source] at hhead htail
  obtain ⟨hnil, hlast⟩ := Token.Stream.ends_of_head hhead.symm
  refine ⟨⟨hcurrent ▸ h.current, ?_⟩, ?_, hlast⟩
  · rw [htail]
    simp only [Token.Stream.drop, hnil, List.drop_nil]
  · rw [Token.Stream.drop_of_head h.current (Token.isEnd_eq_false_iff.mpr hend), hnil]

end At

namespace Outcome

variable {α : Type} {R S : List Token → α → Prop} {view : Token} {reply : Except ParseError α}

theorem imp (h : Outcome stream n R ts view reply) (hRS : ∀ a, reply = .ok a → R ts a → S ts a) :
    Outcome stream n S ts view reply := by
  cases h with
  | ok h => exact .ok (hRS _ rfl h)
  | rejected h => exact .rejected h
  | stuck hrest h => exact .stuck hrest h

end Outcome

theorem At.outcome {α : Type} {R : List Token → α → Prop} {reply : Reply ParseError (Parser Lexer) α}
    {P : Unit → Production Lexer α} (h : p.At stream n) (hreads : Reads p R reply)
    (hrepeats : Repeats P p reply) (hends : reply ≠ .exhausted) : ∃ ts,
      ts <+: stream.tokens.drop n ∧ (reply.settled hends).2.At stream (n + ts.length) ∧
        Outcome stream n R ts (reply.settled hends).2.current (reply.settled hends).1 := by
  cases reply with
  | ok a q =>
    obtain ⟨ts, hts, hR⟩ := hreads
    obtain ⟨hat, hprefix⟩ := h.consumed hts
    exact ⟨ts, hprefix, hat, .ok hR⟩
  | failed x q =>
    cases x with
    | grammatical x =>
      cases hreads with
      | @current _ ts expected hts =>
        obtain ⟨hat, hprefix⟩ := h.consumed hts
        exact ⟨ts, hprefix, hat, .rejected (List.mem_append_right _ List.mem_cons_self)⟩
      | @consumed _ ts expected found hts hfound =>
        obtain ⟨hat, hprefix⟩ := h.consumed hts
        exact ⟨ts, hprefix, hat, .rejected (List.mem_append_left _ hfound)⟩
    | lexical e =>
      obtain ⟨ts, m, hts, hend, hstep, -⟩ := hrepeats
      obtain ⟨hat, hprefix⟩ := h.consumed hts
      obtain ⟨hat', hrest, hlast⟩ := hat.stuck hend hstep
      have hview : q.current = m.current := (failed_of_advance hstep).2
      refine ⟨ts, hprefix, hat', .stuck ?_ hlast⟩
      obtain ⟨us, hus⟩ := hprefix
      rw [← List.drop_drop, ← hus, List.drop_left] at hrest
      rw [← hus, hrest]
      exact congrArg (fun t => ts ++ [t]) hview.symm
  | exhausted => exact absurd rfl hends

theorem At.perform (h : p.At stream n) (call : Call) : ∃ ts, ts <+: stream.tokens.drop n ∧
    (p.perform call).2.At stream (n + ts.length) ∧
      (p.perform call).1.Fits stream n ts (p.perform call).2.current := by
  cases call with
  | expression =>
    obtain ⟨ts, hts, hat, hout⟩ := h.outcome (reads_expression p.budget p)
      (repeats_expression p.budget (fun _ => 0) p) p.expression_ne_exhausted
    exact ⟨ts, hts, hat, hout.imp fun e _ he => ⟨he.ne_nil, he⟩⟩
  | program =>
    obtain ⟨ts, hts, hat, hout⟩ := h.outcome (reads_program p.budget p)
      (repeats_program p.budget (fun _ => 0) p) p.program_ne_exhausted
    refine ⟨ts, hts, hat, hout.imp fun a ha hread => ⟨hread, ?_⟩⟩
    have hok : p.parseProgram = (.ok a, p.parseProgram.2) := Prod.ext ha rfl
    exact end_of_program ((Reply.settled_eq_ok p.program_ne_exhausted).mp hok)

theorem At.serves (h : p.At stream n) (calls : List Call) : ∃ segments,
    Serves stream n p calls segments := by
  induction calls generalizing n p with
  | nil => exact ⟨[], .nil h⟩
  | cons call calls ih =>
    obtain ⟨ts, hts, hat, hfits⟩ := h.perform call
    obtain ⟨segments, hsegments⟩ := ih hat
    exact ⟨ts :: segments, .cons h rfl hts hfits hsegments⟩

/-- Nothing is lost between the calls and nothing is read twice. -/
theorem Serves.flatten_prefix {calls : List Call} {segments : List (List Token)}
    (h : Serves stream n p calls segments) : segments.flatten <+: stream.tokens.drop n := by
  induction h with
  | nil => exact List.nil_prefix
  | cons _ _ hts _ _ ih =>
    obtain ⟨us, hus⟩ := hts
    rw [← List.drop_drop, ← hus, List.drop_left] at ih
    rw [List.flatten_cons, ← hus]
    exact List.prefix_append_right_inj _ |>.mpr ih

/-- The lexer fails, and will fail again, behind a token that is not the end token. -/
structure Stuck (e : LexError) (q : Parser Lexer) : Prop where
  not_end : q.current.content ≠ .endOfInput
  failed : Parser.advance q = .failed (.lexical e) q

theorem stuck_of_advance (hend : q.current.content ≠ .endOfInput)
    (h : Parser.advance q = .failed (.lexical e) r) : Stuck e r := by
  unfold Parser.advance at h
  split at h
  · cases h
  · next m hnext =>
    cases h
    refine ⟨hend, ?_⟩
    have hagain : TokenSource.next m = (.error e, m) := Lexer.next_error_again hnext
    simp only [Parser.advance, hagain]

namespace Stuck

variable {α : Type}

theorem consumed (h : Stuck e q) (hts : Consumed q ts r) : ts = [] ∧ r = q := by
  cases hts with
  | nil => exact ⟨rfl, rfl⟩
  | cons _ hstep _ =>
    rw [h.failed] at hstep
    cases hstep

/-- A stuck parser answers with the error or complains about the token in view, and stays stuck. -/
theorem settled {R : List Token → α → Prop} {reply : Reply ParseError (Parser Lexer) α}
    (h : Stuck e q) (hreads : Reads q R reply) (hends : reply ≠ .exhausted)
    (hok : ∀ a, reply = .ok a q → ¬ R [] a) : ∃ x, reply.settled hends = (.error x, q) ∧
      (x = .lexical e ∨ ∃ expected, x = .grammatical ⟨expected, q.current⟩) := by
  cases reply with
  | ok a r =>
    obtain ⟨ts, hts, hR⟩ := hreads
    obtain ⟨rfl, rfl⟩ := h.consumed hts
    exact absurd hR (hok a rfl)
  | failed x r =>
    cases hreads with
    | @current _ ts expected hts =>
      obtain ⟨rfl, rfl⟩ := h.consumed hts
      exact ⟨_, rfl, .inr ⟨expected, rfl⟩⟩
    | consumed hts hfound =>
      obtain ⟨rfl, rfl⟩ := h.consumed hts
      cases hfound
    | source hts hstep =>
      obtain ⟨rfl, rfl⟩ := h.consumed hts
      rw [h.failed] at hstep
      cases hstep
      exact ⟨_, rfl, .inl rfl⟩
  | exhausted => exact absurd rfl hends

theorem perform (h : Stuck e q) (call : Call) : (q.perform call).2 = q ∧
    ((q.perform call).1.error? = some (.lexical e) ∨
      ∃ expected, (q.perform call).1.error? = some (.grammatical ⟨expected, q.current⟩)) := by
  cases call with
  | expression =>
    obtain ⟨x, hx, hcases⟩ := h.settled (reads_expression q.budget q) q.expression_ne_exhausted
      fun a _ hread => hread.ne_nil rfl
    have hparse : q.parseExpression = (.error x, q) := hx
    simp only [Parser.perform, hparse, Answer.error?_expression, Except.error.injEq]
    exact ⟨trivial, hcases⟩
  | program =>
    obtain ⟨x, hx, hcases⟩ := h.settled (reads_program q.budget q) q.program_ne_exhausted
      fun a ha _ => h.not_end (end_of_program ha)
    have hparse : q.parseProgram = (.error x, q) := hx
    simp only [Parser.perform, hparse, Answer.error?_program, Except.error.injEq]
    exact ⟨trivial, hcases⟩

end Stuck

theorem stuck_of_repeats {α : Type} {reply : Reply ParseError (Parser Lexer) α}
    {P : Unit → Production Lexer α} (h : Repeats P p reply) (hends : reply ≠ .exhausted)
    (he : (reply.settled hends).1 = .error (.lexical e)) : Stuck e (reply.settled hends).2 := by
  cases reply with
  | ok a q => cases he
  | failed x q =>
    cases he
    obtain ⟨ts, m, -, hend, hstep, -⟩ := h
    exact stuck_of_advance hend hstep
  | exhausted => exact absurd rfl hends

theorem stuck_of_perform {call : Call} (h : (p.perform call).1.error? = some (.lexical e)) :
    Stuck e (p.perform call).2 := by
  cases call with
  | expression =>
    exact stuck_of_repeats (repeats_expression p.budget (fun _ => 0) p) p.expression_ne_exhausted
      (Answer.error?_expression.mp h)
  | program =>
    exact stuck_of_repeats (repeats_program p.budget (fun _ => 0) p) p.program_ne_exhausted
      (Answer.error?_program.mp h)

theorem Stuck.after (h : Stuck e q) (calls : List Call) : q.after calls = q := by
  induction calls with
  | nil => rfl
  | cons call calls ih =>
    change (q.perform call).2.after calls = q
    rw [(h.perform call).1, ih]

theorem Stuck.answers (h : Stuck e q) (calls : List Call) : ∀ answer ∈ q.answers calls,
    answer.error? = some (.lexical e) ∨
      ∃ expected, answer.error? = some (.grammatical ⟨expected, q.current⟩) := by
  induction calls with
  | nil => exact List.forall_mem_nil _
  | cons call calls ih =>
    obtain ⟨hstay, hanswer⟩ := h.perform call
    refine List.forall_mem_cons.mpr ⟨hanswer, ?_⟩
    rwa [hstay]

theorem at_ofSource {l : Lexer} (h : ofSource l = .ok p) : p.At l.stream 0 := by
  obtain ⟨hhead, htail⟩ := l.next_eq_head
  rw [next_of_ofSource h] at hhead htail
  exact ⟨hhead.symm, htail⟩

/-- A parser that is called again and again reads what the lexer gives, piece by piece: nothing is lost
and nothing is read twice, whether the calls succeed or not, and each expression takes at least one
token. Once a call has failed with a lexical error, the parser stays where it is, and every later call
fails with this error or for the token that is then in view. -/
theorem calls_consecutive {source : String} (hp : ofSource (Lexer.ofSource source) = .ok p) :
    (∀ calls, ∃ segments, Serves (Lexer.ofSource source).stream 0 p calls segments ∧
      segments.flatten <+: (Lexer.ofSource source).stream.tokens) ∧
    ∀ before call e, ((p.after before).perform call).1.error? = some (.lexical e) →
      let q := ((p.after before).perform call).2
      ∀ later, q.after later = q ∧ ∀ answer ∈ q.answers later,
        answer.error? = some (.lexical e) ∨
          ∃ expected, answer.error? = some (.grammatical ⟨expected, q.current⟩) := by
  constructor
  · intro calls
    obtain ⟨segments, hsegments⟩ := (at_ofSource hp).serves calls
    exact ⟨segments, hsegments, hsegments.flatten_prefix⟩
  · intro before call e he q later
    have hstuck : Stuck e q := stuck_of_perform he
    exact ⟨hstuck.after later, hstuck.answers later⟩

/-- Three tokens are read for a call that fails, and then the lexer stops a call at its first token. -/
theorem calls_consecutive_failing :
    let p : Parser Lexer := ⟨(Lexer.ofSource "x (y z @").next.2, ⟨.identifier "x", ⟨1, 1⟩, ⟨0, 1⟩⟩, 0⟩
    let q := ((p.after [.expression]).perform .expression).2
    ofSource (Lexer.ofSource "x (y z @") = .ok p ∧
      (∃ segments, Serves (Lexer.ofSource "x (y z @").stream 0 p [.expression, .program] segments) ∧
      ((p.after [.expression]).perform .expression).1.error? =
        some (.lexical ⟨'@', ⟨1, 8⟩, ⟨7, 8⟩⟩) ∧
      q.after [.program, .expression] = q := by
  intro p q
  have hp : ofSource (Lexer.ofSource "x (y z @") = .ok p := rfl
  have hfails : ((p.after [.expression]).perform .expression).1.error? =
      some (.lexical ⟨'@', ⟨1, 8⟩, ⟨7, 8⟩⟩) := by decide +kernel
  obtain ⟨hserves, hstuck⟩ := calls_consecutive hp
  obtain ⟨segments, hsegments, -⟩ := hserves [.expression, .program]
  exact ⟨hp, ⟨segments, hsegments⟩, hfails, (hstuck _ _ _ hfails [.program, .expression]).1⟩

end Parser
end Dvilipi
