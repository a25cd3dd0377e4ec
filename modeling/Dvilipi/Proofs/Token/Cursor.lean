import Dvilipi.Proofs.Token.Partition

/-!
A lexer is a cursor. What a source gives is fixed: tokens, and then the end token or a failure for ever.
In whatever order a lexer is asked for a token, for all tokens or to start again, it answers like a place
in this stream.
-/

namespace Dvilipi
set_option autoImplicit false

/-- Tokens, none of them the end token, and behind them for ever the end token or a failure. -/
structure Token.Stream where
  tokens : List Token
  last : Except LexError Token
  tokens_isEnd : ∀ t ∈ tokens, t.isEnd = false
  last_isEnd : ∀ t, last = .ok t → t.isEnd = true

namespace Token.Stream

def failing (e : LexError) : Stream := ⟨[], .error e, by simp, nofun⟩

def ended (t : Token) (ht : t.isEnd = true) : Stream :=
  ⟨[], .ok t, by simp, fun u hu => by cases hu; exact ht⟩

def cons (t : Token) (ht : t.isEnd = false) (stream : Stream) : Stream :=
  ⟨t :: stream.tokens, stream.last, List.forall_mem_cons.mpr ⟨ht, stream.tokens_isEnd⟩,
    stream.last_isEnd⟩

def head (stream : Stream) : Except LexError Token :=
  match stream.tokens with
  | t :: _ => .ok t
  | [] => stream.last

def drop (n : Nat) (stream : Stream) : Stream :=
  ⟨stream.tokens.drop n, stream.last,
    fun t ht => stream.tokens_isEnd t (List.mem_of_mem_drop ht), stream.last_isEnd⟩

end Token.Stream

/-- A place in a stream, the one behind all tokens included. -/
structure Cursor (stream : Token.Stream) where
  index : Nat
  index_le : index ≤ stream.tokens.length

namespace Cursor

variable {stream : Token.Stream}

def origin : Cursor stream := ⟨0, Nat.zero_le _⟩

def terminal : Cursor stream := ⟨stream.tokens.length, Nat.le_refl _⟩

/-- What stands at the place. The cursor moves on behind a token and stays at the last place. -/
def next (c : Cursor stream) : Except LexError Token × Cursor stream :=
  if h : c.index < stream.tokens.length then (.ok stream.tokens[c.index], ⟨c.index + 1, h⟩)
  else (stream.last, c)

def scanAll (c : Cursor stream) : Except LexError (List Token) × Cursor stream :=
  (stream.last.map fun t => stream.tokens.drop c.index ++ [t], terminal)

end Cursor

namespace Lexer

inductive Call where
  | next
  | scanAll
  | reset
  deriving DecidableEq, Repr

inductive Answer where
  | entry (reply : Except LexError Token)
  | entries (reply : Except LexError (List Token))
  | done

/-- What a lexer gives, up to the first end token or failure. -/
def stream (l : Lexer) : Token.Stream :=
  match h : l.next with
  | (.error e, _) => .failing e
  | (.ok t, m) =>
    if ht : t.isEnd then .ended t ht
    else
      have : m.rest.length < l.rest.length := next_length h (by simpa using ht)
      .cons t (by simpa using ht) (stream m)
termination_by l.rest.length

def perform (l : Lexer) : Call → Answer × Lexer
  | .next => (.entry l.next.1, l.next.2)
  | .scanAll => (.entries l.scanAll.1, l.scanAll.2)
  | .reset => (.done, l.reset)

def answers {σ : Type} (perform : σ → Call → Answer × σ) (s : σ) : List Call → List Answer
  | [] => []
  | call :: calls => (perform s call).1 :: answers perform (perform s call).2 calls

end Lexer

def Cursor.perform {stream : Token.Stream} (c : Cursor stream) :
    Lexer.Call → Lexer.Answer × Cursor stream
  | .next => (.entry c.next.1, c.next.2)
  | .scanAll => (.entries c.scanAll.1, c.scanAll.2)
  | .reset => (.done, origin)

namespace Lexer

variable {l m : Lexer} {t : Token} {e : LexError}

theorem stream_error (h : l.next = (.error e, m)) : l.stream = .failing e := by
  rw [stream]
  split <;> simp_all

theorem stream_end (h : l.next = (.ok t, m)) (ht : t.isEnd = true) : l.stream = .ended t ht := by
  rw [stream]
  split <;> simp_all

theorem stream_cons (h : l.next = (.ok t, m)) (ht : t.isEnd = false) :
    l.stream = .cons t ht m.stream := by
  rw [stream]
  split <;> simp_all

theorem token_source (l : Lexer) : l.token.2.source = l.source := by
  unfold token
  split
  · rfl
  · split <;> rfl

theorem next_source (l : Lexer) : l.next.2.source = l.source := l.skipTrivia.token_source

theorem scanAll_source (l : Lexer) : l.scanAll.2.source = l.source := by
  induction l using scanAll.induct with
  | case1 l e m hnext =>
    rw [scanAll_error hnext, ← l.next_source, hnext]
  | case2 l t m hnext ht =>
    rw [scanAll_end hnext ht, ← l.next_source, hnext]
  | case3 l t m hnext ht _ ih =>
    rw [scanAll_cons hnext (by simpa using ht), ← l.next_source, hnext]
    exact ih

theorem token_end (h : l.token = (.ok t, m)) (ht : t.isEnd = true) : m = l := by
  unfold token at h
  split at h
  · cases h
    rfl
  · split at h
    · cases h
    · next x hx =>
      cases h
      exact absurd (Token.isEnd_iff.mp ht) (Lexeme.first?_content_ne_end hx)

theorem next_again {r : Except LexError Token} (h : l.next = (r, m)) (hstay : m = l.skipTrivia) :
    m.next = (r, m) := by
  subst hstay
  rw [next, skipTrivia_skipTrivia]
  exact h

theorem next_error_again (h : l.next = (.error e, m)) : m.next = (.error e, m) :=
  next_again h (token_error h)

theorem next_end_again (h : l.next = (.ok t, m)) (ht : t.isEnd = true) : m.next = (.ok t, m) :=
  next_again h (token_end h ht)

/-- A lexer gives what its stream begins with, and then the rest of the stream. -/
theorem next_eq_head (l : Lexer) :
    l.next.1 = l.stream.head ∧ l.next.2.stream = l.stream.drop 1 := by
  cases hnext : l.next with
  | mk r m =>
    cases r with
    | error e =>
      rw [stream_error hnext]
      exact ⟨rfl, stream_error (next_error_again hnext)⟩
    | ok t =>
      cases ht : t.isEnd with
      | true =>
        rw [stream_end hnext ht]
        exact ⟨rfl, stream_end (next_end_again hnext ht) ht⟩
      | false =>
        rw [stream_cons hnext ht]
        exact ⟨rfl, rfl⟩

theorem scanAll_eq_stream (l : Lexer) :
    l.scanAll.1 = l.stream.last.map (fun t => l.stream.tokens ++ [t]) ∧
      l.scanAll.2.stream = l.stream.drop l.stream.tokens.length := by
  induction l using scanAll.induct with
  | case1 l e m hnext =>
    rw [scanAll_error hnext, stream_error hnext]
    exact ⟨rfl, stream_error (next_error_again hnext)⟩
  | case2 l t m hnext ht =>
    rw [scanAll_end hnext ht, stream_end hnext ht]
    exact ⟨rfl, stream_end (next_end_again hnext ht) ht⟩
  | case3 l t m hnext ht _ ih =>
    have ht' : t.isEnd = false := by simpa using ht
    rw [scanAll_cons hnext ht', stream_cons hnext ht', ih.1]
    refine ⟨?_, ih.2⟩
    simp only [Token.Stream.cons]
    cases m.stream.last <;> rfl

/-- The lexer stands at the place of the cursor, in the stream of its source. -/
structure At {stream : Token.Stream} (c : Cursor stream) (l : Lexer) : Prop where
  source : l.reset.stream = stream
  ahead : l.stream = stream.drop c.index

variable {stream : Token.Stream} {c : Cursor stream}

theorem At.next (h : l.At c) : l.next.1 = c.next.1 ∧ l.next.2.At c.next.2 := by
  obtain ⟨hhead, htail⟩ := l.next_eq_head
  rw [h.ahead] at hhead htail
  have hsource : l.next.2.reset.stream = stream := by
    rw [reset, l.next_source]
    exact h.source
  unfold Cursor.next
  split
  · next hlt =>
    refine ⟨?_, hsource, ?_⟩
    · rw [hhead, Token.Stream.head, Token.Stream.drop]
      dsimp only
      rw [List.drop_eq_getElem_cons hlt]
    · rw [htail]
      simp only [Token.Stream.drop, List.drop_drop]
  · next hge =>
    have hnil : stream.tokens.drop c.index = [] := List.drop_eq_nil_of_le (Nat.le_of_not_lt hge)
    refine ⟨?_, hsource, ?_⟩
    · rw [hhead, Token.Stream.head, Token.Stream.drop]
      dsimp only
      rw [hnil]
    · rw [htail]
      simp only [Token.Stream.drop, hnil, List.drop_nil]

theorem At.scanAll (h : l.At c) : l.scanAll.1 = c.scanAll.1 ∧ l.scanAll.2.At c.scanAll.2 := by
  obtain ⟨hentries, hrest⟩ := l.scanAll_eq_stream
  rw [h.ahead] at hentries hrest
  have hsource : l.scanAll.2.reset.stream = stream := by
    rw [reset, l.scanAll_source]
    exact h.source
  refine ⟨hentries, hsource, ?_⟩
  rw [hrest]
  have hbehind : c.index + (stream.tokens.length - c.index) = stream.tokens.length := by
    have hle := c.index_le
    omega
  simp only [Token.Stream.drop, List.drop_drop, List.length_drop, hbehind, Cursor.scanAll,
    Cursor.terminal]

theorem At.perform (h : l.At c) (call : Call) :
    (l.perform call).1 = (c.perform call).1 ∧ (l.perform call).2.At (c.perform call).2 := by
  cases call with
  | next => exact ⟨congrArg Answer.entry h.next.1, h.next.2⟩
  | scanAll => exact ⟨congrArg Answer.entries h.scanAll.1, h.scanAll.2⟩
  | reset => exact ⟨rfl, h.source, h.source⟩

theorem At.answers (h : l.At c) (calls : List Call) :
    answers Lexer.perform l calls = answers Cursor.perform c calls := by
  induction calls generalizing l c with
  | nil => rfl
  | cons call calls ih =>
    obtain ⟨hanswer, hat⟩ := h.perform call
    exact congrArg₂ List.cons hanswer (ih hat)

/-- Whatever is asked of a lexer in whatever order, it answers like a cursor that starts at the origin
of the stream of its source. -/
theorem answers_ofSource (source : String) (calls : List Call) :
    answers Lexer.perform (ofSource source) calls =
      answers Cursor.perform (Cursor.origin : Cursor (ofSource source).stream) calls :=
  At.answers (l := ofSource source) ⟨rfl, rfl⟩ calls

end Lexer
end Dvilipi
