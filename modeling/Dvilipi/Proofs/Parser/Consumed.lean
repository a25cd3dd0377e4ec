import Dvilipi.Proofs.Parser.Steps
import Dvilipi.Proofs.Tree.ReadFrom

/-!
The tokens themselves that a parser takes, with their places. A production reads a relation if a success
has consumed tokens that stand in the relation to its value; a failure complains about the token in view
or one that was consumed, or it is the failure of the source.
-/

namespace Dvilipi.Parser
set_option autoImplicit false

variable {σ α β : Type} [TokenSource σ]

/-- From `p` to `q` by consuming the tokens `ts`, none of them the end token. -/
inductive Consumed : Parser σ → List Token → Parser σ → Prop where
  | nil (p : Parser σ) : Consumed p [] p
  | cons {p q r : Parser σ} {ts : List Token} (hend : p.current.content ≠ .endOfInput)
      (hstep : advance p = .ok p.current q) (htail : Consumed q ts r) :
      Consumed p (p.current :: ts) r

theorem previousStop_of_advance {p q : Parser σ} {t : Token} (h : advance p = .ok t q) :
    q.previousStop = p.current.span.stop := by
  unfold advance at h
  split at h
  · cases h
    rfl
  · cases h

namespace Consumed

variable {p q r : Parser σ} {ts us : List Token}

theorem single (hend : p.current.content ≠ .endOfInput) (hstep : advance p = .ok p.current q) :
    Consumed p [p.current] q := .cons hend hstep (.nil q)

theorem trans (h : Consumed p ts q) (h' : Consumed q us r) : Consumed p (ts ++ us) r := by
  induction h with
  | nil => exact h'
  | cons hend hstep _ ih => exact .cons hend hstep (ih h')

theorem previousStop (h : Consumed p ts q) :
    q.previousStop = Token.stopAfter p.previousStop ts := by
  induction h with
  | nil => rfl
  | cons _ hstep _ ih => rw [ih, previousStop_of_advance hstep, Token.stopAfter]

/-- The tokens reach from the one that was in view to the end of the last one. -/
theorem extent (h : Consumed p ts q) (hne : ts ≠ []) :
    Token.extent ts = ⟨p.current.span.start, q.previousStop⟩ := by
  rw [h.previousStop]
  cases h with
  | nil => exact absurd rfl hne
  | cons => rfl

end Consumed

/-- How a parser can fail from `p` on: it complains about the token in view or about one that it has
consumed, or the source gives no further token. -/
inductive Fails (p : Parser σ) : ParseError → Parser σ → Prop where
  | current {q : Parser σ} {ts : List Token} {expected : Expected} (h : Consumed p ts q) :
      Fails p (.grammatical ⟨expected, q.current⟩) q
  | consumed {q : Parser σ} {ts : List Token} {expected : Expected} {found : Token}
      (h : Consumed p ts q) (hfound : found ∈ ts) : Fails p (.grammatical ⟨expected, found⟩) q
  | source {q r : Parser σ} {ts : List Token} {e : LexError} (h : Consumed p ts q)
      (hstep : advance q = .failed (.lexical e) r) : Fails p (.lexical e) r

theorem Fails.after {p q r : Parser σ} {ts : List Token} {e : ParseError} (hq : Consumed p ts q)
    (h : Fails q e r) : Fails p e r := by
  cases h with
  | current h => exact .current (hq.trans h)
  | consumed h hfound => exact .consumed (hq.trans h) (List.mem_append_right _ hfound)
  | source h hstep => exact .source (hq.trans h) hstep

theorem fails_of_advance {p q : Parser σ} {e : ParseError} (h : advance p = .failed e q) :
    Fails p e q := by
  cases e with
  | lexical e => exact .source (.nil p) h
  | grammatical e =>
    unfold advance at h
    split at h <;> cases h

/-- A success has consumed tokens that stand in the relation to its value. -/
def Reads (p : Parser σ) (R : List Token → α → Prop) : Reply ParseError (Parser σ) α → Prop
  | .ok a q => ∃ ts, Consumed p ts q ∧ R ts a
  | .failed e q => Fails p e q
  | .exhausted => True

section Reads

variable {p q : Parser σ} {us : List Token}

theorem Reads.mono {R S : List Token → α → Prop} {r : Reply ParseError (Parser σ) α}
    (h : Reads p R r) (hRS : ∀ ts a, R ts a → S ts a) : Reads p S r := by
  cases r with
  | ok a q =>
    obtain ⟨ts, hts, hR⟩ := h
    exact ⟨ts, hts, hRS ts a hR⟩
  | failed e q => exact h
  | exhausted => trivial

theorem Reads.after {R : List Token → α → Prop} {r : Reply ParseError (Parser σ) α}
    (hq : Consumed p us q) (h : Reads q (fun ts a => R (us ++ ts) a) r) : Reads p R r := by
  cases r with
  | ok a q =>
    obtain ⟨ts, hts, hR⟩ := h
    exact ⟨us ++ ts, hq.trans hts, hR⟩
  | failed e q => exact Fails.after hq h
  | exhausted => trivial

/-- A sequence of actions at `q`, where some tokens from `p` on may have been consumed already. -/
theorem Reads.seq {R : List Token → α → Prop} {S : List Token → β → Prop} {P : Production σ α}
    {f : α → Production σ β} (h : Reads p R (P q))
    (hf : ∀ a r us, Consumed p us r → R us a → Reads p S (f a r)) : Reads p S ((P >>= f) q) := by
  rw [Action.bind_apply]
  cases hq : P q with
  | ok a r =>
    rw [hq] at h
    obtain ⟨us, hus, hR⟩ := h
    exact hf a r us hus hR
  | failed e r =>
    rw [hq] at h
    exact h
  | exhausted => trivial

theorem Reads.bind {R : List Token → α → Prop} {S : List Token → β → Prop} {P : Production σ α}
    {f : α → Production σ β} (h : Reads p R (P p))
    (hf : ∀ a q us, Consumed p us q → R us a → Reads q (fun vs b => S (us ++ vs) b) (f a q)) :
    Reads p S ((P >>= f) p) :=
  h.seq fun a q us hus hR => (hf a q us hus hR).after hus

theorem reads_pure {R : List Token → α → Prop} {a : α} (h : R [] a) :
    Reads p R ((pure a : Production σ α) p) := ⟨[], .nil p, h⟩

theorem reads_reject (R : List Token → α → Prop) (expected : Expected) :
    Reads p R ((reject expected : Production σ α) p) := .current (.nil p)

theorem reads_rejectAt (R : List Token → α → Prop) (expected : Expected) {t : Token}
    (h : Consumed p us q) (ht : t ∈ us) :
    Reads p R ((rejectAt expected t : Production σ α) q) := .consumed h ht

theorem Reads.map {R : List Token → α → Prop} {S : List Token → β → Prop} {P : Production σ α}
    {g : α → β} (h : Reads p R (P p)) (hg : ∀ a q us, Consumed p us q → R us a → S us (g a)) :
    Reads p S ((P >>= fun a => pure (g a)) p) :=
  h.seq fun a q us hus hR => ⟨us, hus, hg a q us hus hR⟩

theorem reads_advance {c : Token.Content} (hc : p.current.content = c) (hend : c ≠ .endOfInput) :
    Reads p (fun ts t => ts = [t] ∧ t = p.current) (advance p) := by
  cases ha : advance p with
  | ok t q =>
    obtain rfl := advance_eq_ok ha
    exact ⟨_, .single (hc ▸ hend) ha, rfl, rfl⟩
  | failed e q => exact fails_of_advance ha
  | exhausted => trivial

theorem Reads.advance {S : List Token → β → Prop} {f : Token → Production σ β} {c : Token.Content}
    (hc : p.current.content = c) (hend : c ≠ .endOfInput)
    (hf : ∀ q, Consumed p [p.current] q →
      Reads q (fun vs b => S (p.current :: vs) b) (f p.current q)) :
    Reads p S ((Parser.advance >>= f) p) := by
  refine (reads_advance hc hend).bind fun t q us hq hus => ?_
  obtain ⟨rfl, rfl⟩ := hus
  exact hf q hq

theorem Reads.expect {S : List Token → β → Prop} {f : Token → Production σ β} {c : Token.Content}
    (hend : c ≠ .endOfInput) (expected : Expected)
    (hf : ∀ q, p.current.content = c → Consumed p [p.current] q →
      Reads q (fun vs b => S (p.current :: vs) b) (f p.current q)) :
    Reads p S ((Parser.expect c expected >>= f) p) := by
  unfold Parser.expect
  rw [Action.bind_assoc, content_bind]
  split
  · next hc => exact .advance hc hend fun q hq => hf q hc hq
  · exact reads_reject _ expected

theorem Reads.identifier {S : List Token → β → Prop} {f : String × Span → Production σ β}
    (expected : Expected)
    (hf : ∀ name q, p.current.content = .identifier name → Consumed p [p.current] q →
      Reads q (fun vs b => S (p.current :: vs) b) (f (name, p.current.span) q)) :
    Reads p S ((Parser.identifier expected >>= f) p) := by
  unfold Parser.identifier
  rw [Action.bind_assoc, content_bind]
  cases hc : p.current.content with
  | identifier name =>
    dsimp only
    rw [Action.bind_assoc]
    exact .advance hc Token.Content.noConfusion fun q hq => hf name q hc hq
  | _ => exact reads_reject _ expected

theorem reads_lastStop {R : List Token → β → Prop} {f : Nat → Production σ β}
    (h : Reads p R (f p.previousStop p)) : Reads p R ((lastStop >>= f) p) := h

theorem reads_currentStart {R : List Token → β → Prop} {f : Nat → Production σ β}
    (h : Reads p R (f p.current.span.start p)) : Reads p R ((currentStart >>= f) p) := h

end Reads

variable {item : Production σ α} {R : α → List Token → Prop}

theorem reads_commaList (h : ∀ p, Reads p (fun ts a => R a ts) (item p)) :
    ∀ n p, Reads p (fun ts as => as ≠ [] ∧ Separated R as ts) (commaList item n p) := by
  intro n
  induction n with
  | zero => exact fun p => trivial
  | succ n ih =>
    intro p
    unfold commaList
    apply (h p).bind
    intro a q us hq ha
    rw [accept_bind]
    split
    · next hc =>
      refine .advance hc Token.Content.noConfusion fun r hr => ?_
      refine (ih r).map fun as s ws hs hws => ?_
      obtain ⟨hne, has⟩ := hws
      refine ⟨List.cons_ne_nil _ _, ?_⟩
      cases as with
      | nil => exact absurd rfl hne
      | cons b as => exact .cons ha hc has
    · refine reads_pure ⟨List.cons_ne_nil _ _, ?_⟩
      rw [List.append_nil]
      exact .single ha

theorem reads_commaList? (h : ∀ p, Reads p (fun ts a => R a ts) (item p)) (n : Nat)
    (p : Parser σ) : Reads p (fun ts as => Separated R as ts) (commaList? item n p) := by
  unfold commaList?
  rw [content_bind]
  split
  · exact reads_pure .nil
  · exact (reads_commaList h n p).mono fun ts as has => has.2

end Dvilipi.Parser
