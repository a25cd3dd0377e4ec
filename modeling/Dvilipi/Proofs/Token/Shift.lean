import Dvilipi.Proofs.Token.Partition

/-!
The same text further on. A lexer that reads a text from another place on gives the same tokens, or fails
at the same character, displaced by as many characters; the place tells what becomes of lines and
columns. Behind a newline the columns stay as they are.
-/

namespace Dvilipi
set_option autoImplicit false

/-- The span of the same text, `n` characters further on. -/
def Span.shift (n : Nat) (s : Span) : Span := ⟨s.start + n, s.stop + n⟩

/-- The same place, `n` characters further on and that many lines below. -/
def Place.shift (n lines : Nat) (p : Place) : Place :=
  ⟨p.offset + n, ⟨p.position.line + lines, p.position.column⟩⟩

def Token.shift (n lines : Nat) (t : Token) : Token :=
  ⟨t.content, ⟨t.position.line + lines, t.position.column⟩, t.span.shift n⟩

variable {n lines : Nat}

theorem Span.shift_to (a b : Span) : (a.«to» b).shift n = (a.shift n).«to» (b.shift n) := by
  simp only [Span.shift, Span.«to», Nat.add_max_add_right]

namespace Place

theorem shift_step (p : Place) (c : Char) : (p.shift n lines).step c = (p.step c).shift n lines := by
  by_cases hc : c = '\n'
  · simp only [shift, step, Position.step, if_pos hc, Nat.add_right_comm]
  · simp only [shift, step, Position.step, if_neg hc, Nat.add_right_comm]

theorem shift_after (p : Place) (cs : List Char) :
    (p.shift n lines).after cs = (p.after cs).shift n lines := by
  induction cs generalizing p with
  | nil => rfl
  | cons c cs ih => rw [after_cons, after_cons, shift_step, ih]

theorem offset_after_origin (cs : List Char) : (origin.after cs).offset = cs.length :=
  (after_offset _ _).trans (Nat.zero_add _)

/-- Behind a newline a text stands as at the origin, but for what stands before it. -/
theorem step_newline (cs : List Char) : (origin.after cs).step '\n' =
    origin.shift (cs.length + 1) (cs.count '\n' + 1) := by
  rw [step, offset_after_origin, after_position]
  simp only [Position.step, if_pos, shift, origin, Position.origin, Nat.zero_add, Nat.add_comm 1]

end Place

namespace Token

theorem content_shift {t : Token} {c : Content} (h : t.content = c) :
    (t.shift n lines).content = c := h

theorem contents_shift (ts : List Token) : contents (ts.map (shift n lines)) = contents ts := by
  rw [contents, List.map_map]
  rfl

theorem stopAfter_shift (k : Nat) (ts : List Token) :
    stopAfter (k + n) (ts.map (shift n lines)) = stopAfter k ts + n := by
  induction ts generalizing k with
  | nil => rfl
  | cons t ts ih => exact ih t.span.stop

end Token

/-- The place `n` characters further on, at the position that `g` tells. -/
def Place.carry (n : Nat) (g : Position → Position) (p : Place) : Place := ⟨p.offset + n, g p.position⟩

def Token.carry (n : Nat) (g : Position → Position) (t : Token) : Token :=
  ⟨t.content, g t.position, t.span.shift n⟩

def LexError.carry (n : Nat) (g : Position → Position) (e : LexError) : LexError :=
  ⟨e.character, g e.position, e.span.shift n⟩

theorem Span.single_shift (offset : Nat) : (Span.single offset).shift n = .single (offset + n) := by
  rw [Span.shift, Span.single, Span.single, Nat.add_right_comm]

namespace Lexer

variable {l m k : Lexer} {t : Token} {ts : List Token} {g : Position → Position}

/-- The lexers read the same text, and wherever they get to in it, the first of them is at the carried
place. -/
structure Carries (n : Nat) (g : Position → Position) (k l : Lexer) : Prop where
  rest : k.rest = l.rest
  place : ∀ cs, k.place.after cs = (l.place.after cs).carry n g

namespace Carries

theorem skipTrivia (h : Carries n g k l) : Carries n g k.skipTrivia l.skipTrivia := by
  constructor
  · simp only [Lexer.skipTrivia, h.rest]
  · intro cs
    rw [Lexer.skipTrivia, Lexer.skipTrivia, h.rest, ← Place.after_append, ← Place.after_append,
      h.place]

theorem next (h : Carries n g k.skipTrivia l.skipTrivia) :
    k.next.1 = (l.next.1.mapError (LexError.carry n g)).map (Token.carry n g) ∧
      Carries n g k.next.2 l.next.2 := by
  have hhere := h.place []
  rw [Place.after_nil, Place.after_nil] at hhere
  unfold Lexer.next token
  rw [h.rest, hhere]
  split
  · exact ⟨rfl, h⟩
  · split
    · refine ⟨?_, h⟩
      rw [Except.mapError, LexError.carry, Span.single_shift]
      rfl
    · next x hx =>
      have hstop := h.place x.raw
      rw [hhere] at hstop
      refine ⟨?_, rfl, fun cs => ?_⟩
      · rw [hstop]
        rfl
      · rw [← hhere, ← Place.after_append, ← Place.after_append, h.place]

theorem next_ok (h : Carries n g k.skipTrivia l.skipTrivia) (hnext : l.next = (.ok t, m)) :
    ∃ j, k.next = (.ok (t.carry n g), j) ∧ Carries n g j m := by
  obtain ⟨hreply, hcarries⟩ := h.next
  rw [hnext] at hreply hcarries
  exact ⟨k.next.2, Prod.ext hreply rfl, hcarries⟩

theorem next_error (h : Carries n g k.skipTrivia l.skipTrivia) {e : LexError}
    (hnext : l.next = (.error e, m)) : k.next = (.error (e.carry n g), k.next.2) := by
  obtain ⟨hreply, -⟩ := h.next
  rw [hnext] at hreply
  exact Prod.ext hreply rfl

theorem scanAll (h : Carries n g k.skipTrivia l.skipTrivia) : k.scanAll.1 =
    (l.scanAll.1.mapError (LexError.carry n g)).map (List.map (Token.carry n g)) := by
  induction l using scanAll.induct generalizing k with
  | case1 l e m hnext =>
    rw [scanAll_error (h.next_error hnext), scanAll_error hnext]
    rfl
  | case2 l t m hnext ht =>
    obtain ⟨j, hj, -⟩ := h.next_ok hnext
    rw [scanAll_end hj ht, scanAll_end hnext ht]
    rfl
  | case3 l t m hnext ht _ ih =>
    have hne : t.isEnd = false := by simpa using ht
    obtain ⟨j, hj, hcarries⟩ := h.next_ok hnext
    rw [scanAll_cons hj hne, scanAll_cons hnext hne, ih hcarries.skipTrivia]
    cases m.scanAll.1 <;> rfl

end Carries

/-- The lexers read the same text, the first of them further on. -/
structure Beyond (n lines : Nat) (k l : Lexer) : Prop where
  rest : k.rest = l.rest
  place : k.place = l.place.shift n lines

theorem beyond_iff_carries :
    Beyond n lines k l ↔ Carries n (fun p => ⟨p.line + lines, p.column⟩) k l := by
  constructor
  · intro h
    refine ⟨h.rest, fun cs => ?_⟩
    rw [h.place]
    exact Place.shift_after _ cs
  · exact fun h => ⟨h.rest, h.place []⟩

theorem Beyond.skipTrivia (h : Beyond n lines k l) : Beyond n lines k.skipTrivia l.skipTrivia :=
  beyond_iff_carries.mpr (beyond_iff_carries.mp h).skipTrivia

theorem Beyond.next (h : Beyond n lines k.skipTrivia l.skipTrivia) (hnext : l.next = (.ok t, m)) :
    ∃ j, k.next = (.ok (t.shift n lines), j) ∧ Beyond n lines j m := by
  obtain ⟨j, hj, hcarries⟩ := (beyond_iff_carries.mp h).next_ok hnext
  exact ⟨j, hj, beyond_iff_carries.mpr hcarries⟩

theorem Beyond.scans (h : Beyond n lines k.skipTrivia l.skipTrivia) (hts : l.Scans ts) :
    k.Scans (ts.map (Token.shift n lines)) := by
  induction hts generalizing k with
  | last hnext ht =>
    obtain ⟨j, hj, -⟩ := h.next hnext
    exact .last hj ht
  | cons hnext ht _ ih =>
    obtain ⟨j, hj, hbeyond⟩ := h.next hnext
    exact .cons hj ht (ih hbeyond.skipTrivia)

end Lexer
end Dvilipi
