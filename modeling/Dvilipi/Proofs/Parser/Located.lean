import Dvilipi.Proofs.Parser.Accepts
import Dvilipi.Proofs.Parser.Trees
import Dvilipi.Proofs.Tree.Every

/-!
Where trees and errors of a text point: into the text. A reference covers the name in it, a call begins
with the name of the function, and what a parser complains about stands there.
-/

namespace Dvilipi
set_option autoImplicit false

/-- The tokens stand in the text, one behind the other. -/
structure Token.Placed (cs : List Char) (ts : List Token) : Prop where
  stands : ∀ t ∈ ts, t.StandsIn cs
  ordered : ts.Pairwise fun t u => t.span.stop ≤ u.span.start

namespace Token.Placed

variable {cs : List Char} {t : Token} {ts us : List Token}

theorem tail (h : Placed cs (t :: ts)) : Placed cs ts :=
  ⟨fun u hu => h.stands u (List.mem_cons_of_mem _ hu), (List.pairwise_cons.mp h.ordered).2⟩

theorem left (h : Placed cs (ts ++ us)) : Placed cs ts :=
  ⟨fun u hu => h.stands u (List.mem_append_left _ hu), (List.pairwise_append.mp h.ordered).1⟩

theorem right (h : Placed cs (ts ++ us)) : Placed cs us :=
  ⟨fun u hu => h.stands u (List.mem_append_right _ hu), (List.pairwise_append.mp h.ordered).2.1⟩

end Token.Placed

theorem Lexer.StandsAfter.error_within {l m : Lexer} {before cs : List Char} {e : LexError}
    (hl : l.StandsAfter before cs) (h : l.next = (.error e, m)) : e.span.Within cs := by
  have hlength := congrArg List.length hl.1
  rw [List.length_append, ← Trivia.split_append .blank l.rest, List.length_append] at hlength
  unfold next token at h
  split at h
  · cases h
  · next c rest hrest =>
    split at h
    · cases h
      have hskip : (Trivia.split .blank l.rest).2 = c :: rest := hrest
      rw [hskip, List.length_cons] at hlength
      refine ⟨Nat.le_succ _, ?_⟩
      change l.skipTrivia.place.offset + 1 ≤ cs.length
      rw [skipTrivia, Place.after_offset, hl.offset, hlength]
      omega
    · cases h

namespace Parser

/-- The parser is in the text: the token in view stands there, and the lexer right behind it. -/
structure InText (cs : List Char) (p : Parser Lexer) : Prop where
  current : p.current.StandsIn cs
  source : ∃ before, p.source.StandsAfter before cs ∧ before.length = p.current.span.stop

variable {cs : List Char} {p q : Parser Lexer} {ts : List Token}

theorem inText_of_next {l m : Lexer} {t : Token} {before : List Char}
    (hl : l.StandsAfter before cs) (h : l.next = (.ok t, m)) (n : Nat) :
    InText cs ⟨m, t, n⟩ ∧ before.length ≤ t.span.start := by
  obtain ⟨gap, raw, hstep⟩ := Lexer.step_of_next h
  have hspan := hl.span hstep
  refine ⟨⟨hl.standsIn hstep, _, hl.step hstep, ?_⟩, ?_⟩
  · dsimp only
    rw [hspan]
    simp only [List.length_append, Nat.add_assoc]
  · rw [hspan, List.length_append]
    exact Nat.le_add_right _ _

theorem InText.advance (hp : InText cs p) {t : Token} (h : advance p = .ok t q) :
    InText cs q ∧ p.current.span.stop ≤ q.current.span.start := by
  obtain ⟨before, hsource, hlength⟩ := hp.source
  unfold Parser.advance at h
  split at h
  · next u rest hnext =>
    cases h
    have hq := inText_of_next hsource hnext p.current.span.stop
    rwa [hlength] at hq
  · cases h

theorem InText.consumed (hp : InText cs p) (h : Consumed p ts q) :
    InText cs q ∧ Token.Placed cs ts ∧ ∀ t ∈ ts, p.current.span.start ≤ t.span.start := by
  induction h with
  | nil => exact ⟨hp, ⟨by simp, .nil⟩, by simp⟩
  | @cons p q r ts _ hstep _ ih =>
    obtain ⟨hq, hle⟩ := hp.advance hstep
    obtain ⟨hr, hplaced, hafter⟩ := ih hq
    have hstop : ∀ t ∈ ts, p.current.span.stop ≤ t.span.start := fun t ht =>
      Nat.le_trans hle (hafter t ht)
    refine ⟨hr, ⟨List.forall_mem_cons.mpr ⟨hp.current, hplaced.stands⟩,
      List.pairwise_cons.mpr ⟨hstop, hplaced.ordered⟩⟩, ?_⟩
    exact List.forall_mem_cons.mpr ⟨Nat.le_refl _, fun t ht =>
      Nat.le_trans hp.current.within.1 (hstop t ht)⟩

theorem InText.error_within (hp : InText cs p) {e : ParseError} (h : Fails p e q) :
    e.span.Within cs := by
  cases h with
  | current h => exact (hp.consumed h).1.current.within
  | consumed h hfound => exact ((hp.consumed h).2.1.stands _ hfound).within
  | @source q' r ts e h hstep =>
    obtain ⟨before, hsource, -⟩ := (hp.consumed h).1.source
    unfold Parser.advance at hstep
    split at hstep
    · cases hstep
    · next d rest hnext =>
      cases hstep
      exact hsource.error_within hnext

end Parser

/-- A reference covers its name, and a call begins with the name of its function. -/
def Expr.Points (cs : List Char) : Expr → Prop
  | .reference x sp => sp.Within cs ∧ sp.slice cs = x.toList
  | .call f _ sp => sp.Within cs ∧ f.toList <+: sp.slice cs
  | _ => True

variable {cs : List Char}

theorem Token.StandsIn.slice_eq {t : Token} {x : String} (h : t.StandsIn cs)
    (ht : t.content = .identifier x) : t.span.slice cs = x.toList := by
  have htext := h.text (by rw [ht]; trivial)
  rw [Token.text, ht] at htext
  exact htext.symm

theorem Expr.points_call {t r : Token} {us : List Token} {f : String} {es : List Expr}
    (h : Token.Placed cs (t :: us)) (ht : t.content = .identifier f) (hr : r ∈ us) :
    (Expr.call f es ⟨t.span.start, r.span.stop⟩).Points cs := by
  have htstands := h.stands t List.mem_cons_self
  have hrstands := h.stands r (List.mem_cons_of_mem _ hr)
  have horder : t.span.stop ≤ r.span.start := (List.pairwise_cons.mp h.ordered).1 r hr
  obtain ⟨ht1, -⟩ := htstands.within
  obtain ⟨hr1, hr2⟩ := hrstands.within
  have hstop : t.span.stop ≤ r.span.stop := Nat.le_trans horder hr1
  refine ⟨⟨Nat.le_trans ht1 hstop, hr2⟩, ?_⟩
  rw [← htstands.slice_eq ht]
  exact Span.slice_prefix (a := t.span) (b := ⟨t.span.start, r.span.stop⟩) rfl hstop cs

theorem Expr.every_points_ofInfix {op : Infix} {a b : Expr} (ha : a.Every (Expr.Points cs))
    (hb : b.Every (Expr.Points cs)) : (Expr.ofInfix op a b).Every (Expr.Points cs) := by
  cases op with
  | binary op => exact ⟨trivial, ha, hb⟩
  | logical op => exact ⟨trivial, ha, hb⟩

mutual

theorem Expr.ReadFrom.every_points {e : Expr} {ts : List Token} (h : e.ReadFrom ts)
    (hts : Token.Placed cs ts) : e.Every (Expr.Points cs) := by
  match h with
  | .number _ => trivial
  | .string _ => trivial
  | .reference ht =>
    have hstands := hts.stands _ List.mem_cons_self
    exact ⟨hstands.within, hstands.slice_eq ht⟩
  | .call ht _ hes _ =>
    exact ⟨Expr.points_call hts ht (by simp), hes.every_points hts.tail.tail.left⟩
  | .group _ he _ => exact he.every_points hts.tail.left
  | .unary _ he => exact ⟨trivial, he.every_points hts.tail⟩
  | .joined ha _ hb =>
    exact Expr.every_points_ofInfix (ha.every_points hts.left) (hb.every_points hts.right.tail)
  | .assign _ _ he => exact ⟨trivial, he.every_points hts.right.tail⟩
termination_by structural h

theorem Expr.AllReadFrom.every_points {es : List Expr} {ts : List Token}
    (h : Expr.AllReadFrom es ts) (hts : Token.Placed cs ts) :
    Expr.EveryOf (Expr.Points cs) es := by
  match h with
  | .nil => trivial
  | .single he => exact ⟨he.every_points hts, trivial⟩
  | .cons he _ hes => exact ⟨he.every_points hts.left, hes.every_points hts.right.tail⟩
termination_by structural h

end

theorem announced_every_points {before : List Token.Content} {e : Option Expr} {ts : List Token}
    (h : Announced before Expr.ReadFrom e ts) (hts : Token.Placed cs ts) :
    ∀ a ∈ e, a.Every (Expr.Points cs) := by
  cases h with
  | none => nofun
  | some _ he =>
    intro a ha
    cases ha
    exact he.every_points hts.right

mutual

theorem Stmt.ReadFrom.every_points {s : Stmt} {ts : List Token} (h : s.ReadFrom ts)
    (hts : Token.Placed cs ts) : s.Every (Expr.Points cs) Stmt.Any := by
  match h with
  | .function _ _ _ _ _ _ hbody heq =>
    subst heq
    exact ⟨trivial, hbody.every_points hts.tail.tail.tail.right.tail.right⟩
  | .binding _ _ _ hinitial _ heq =>
    subst heq
    exact ⟨trivial, announced_every_points hinitial hts.tail.tail.right.left⟩
  | .expression he _ heq =>
    subst heq
    exact ⟨trivial, he.every_points hts.left⟩
  | .ifThen _ hc hyes heq =>
    subst heq
    exact ⟨trivial, hc.every_points hts.tail.left, hyes.every_points hts.tail.right⟩
  | .ifElse _ hc hyes _ hno heq =>
    subst heq
    have hbranches := hts.tail.right
    exact ⟨trivial, hc.every_points hts.tail.left, hyes.every_points hbranches.left,
      hno.every_points hbranches.right.tail⟩
  | .while_ _ hc hbody heq =>
    subst heq
    exact ⟨trivial, hc.every_points hts.tail.left, hbody.every_points hts.tail.right⟩
  | .return_ _ hvalue _ heq =>
    subst heq
    exact ⟨trivial, announced_every_points hvalue hts.tail.left⟩
termination_by structural h

theorem Stmt.BracedFrom.every_points {b : Block} {ts : List Token} (h : BracedFrom b ts)
    (hts : Token.Placed cs ts) : b.Every (Expr.Points cs) Stmt.Any := by
  match h with
  | .mk _ hss _ heq =>
    subst heq
    exact hss.every_points hts.tail.left
termination_by structural h

theorem Stmt.BranchFrom.every_points {b : Block} {ts : List Token} (h : BranchFrom b ts)
    (hts : Token.Placed cs ts) : b.Every (Expr.Points cs) Stmt.Any := by
  match h with
  | .block hb => exact hb.every_points hts
  | .conditional _ hs => exact ⟨hs.every_points hts, trivial⟩
termination_by structural h

theorem Stmt.AllReadFrom.every_points {ss : List Stmt} {ts : List Token}
    (h : Stmt.AllReadFrom ss ts) (hts : Token.Placed cs ts) :
    Stmt.EveryOf (Expr.Points cs) Stmt.Any ss := by
  match h with
  | .nil => trivial
  | .cons hs hss => exact ⟨hs.every_points hts.left, hss.every_points hts.right⟩
termination_by structural h

end

namespace Program

variable {source : String}

theorem ofSource_eq_error {e : ParseError} {p : Parser Lexer}
    (hp : Parser.ofSource (Lexer.ofSource source) = .ok p) (h : ofSource source = .error e) :
    ∃ q, Parser.program p.budget p = .failed e q := by
  rw [ofSource, hp] at h
  change p.parseProgram.1 = .error e at h
  exact ⟨p.parseProgram.2, (Reply.settled_eq_error p.program_ne_exhausted).mp (Prod.ext h rfl)⟩

theorem inText_of_ofSource {p : Parser Lexer}
    (hp : Parser.ofSource (Lexer.ofSource source) = .ok p) : p.InText source.toList := by
  unfold Parser.ofSource at hp
  split at hp
  · next t m hnext =>
    cases hp
    exact (Parser.inText_of_next (Lexer.standsAfter_ofChars source.toList) hnext 0).1
  · cases hp

theorem every_points_of_ofSource {a : Program} (h : ofSource source = .ok a) :
    a.Every (Expr.Points source.toList) Stmt.Any := by
  cases hp : Parser.ofSource (Lexer.ofSource source) with
  | error e =>
    rw [ofSource, hp] at h
    cases h
  | ok p =>
    obtain ⟨q, hq⟩ := (ofSource_eq_ok hp).mp h
    have hreads := Parser.reads_program p.budget p
    rw [hq] at hreads
    obtain ⟨ts, hts, ha⟩ := hreads
    exact ha.every_points ((inText_of_ofSource hp).consumed hts).2.1

theorem error_within_of_ofSource {e : ParseError} (h : ofSource source = .error e) :
    e.span.Within source.toList := by
  cases hp : Parser.ofSource (Lexer.ofSource source) with
  | error d =>
    rw [ofSource, hp] at h
    cases h
    unfold Parser.ofSource at hp
    split at hp
    · cases hp
    · next d m hnext =>
      cases hp
      exact (Lexer.standsAfter_ofChars source.toList).error_within hnext
  | ok p =>
    obtain ⟨q, hq⟩ := ofSource_eq_error hp h
    have hreads := Parser.reads_program p.budget p
    rw [hq] at hreads
    exact (inText_of_ofSource hp).error_within hreads

end Program
end Dvilipi
