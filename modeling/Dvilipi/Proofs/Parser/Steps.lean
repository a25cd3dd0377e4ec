import Dvilipi.Parser.Progress

/-!
What a parser takes. `Took p us q` says that `p` becomes `q` by taking tokens that say `us`. A reply
yields a relation if a success took tokens that stand in the relation to its value; it completes at a
parser if it is a success that leaves this parser behind.
-/

namespace Dvilipi.Parser
set_option autoImplicit false

variable {σ α β : Type} [TokenSource σ]

/-- From `p` to `q` by taking tokens, none of them the end token. -/
inductive Took : Parser σ → List Token.Content → Parser σ → Prop where
  | nil (p : Parser σ) : Took p [] p
  | cons {p q r : Parser σ} {us : List Token.Content} (hend : p.current.content ≠ .endOfInput)
      (hstep : advance p = .ok p.current q) (htail : Took q us r) :
      Took p (p.current.content :: us) r

theorem advance_eq_ok {p q : Parser σ} {t : Token} (h : advance p = .ok t q) : t = p.current := by
  unfold advance at h
  split at h
  · cases h
    rfl
  · cases h

theorem isKeyword_content {word : Keyword} {c : Token.Content} (h : isKeyword word c = true) :
    ∃ script, c = .keyword word script := by
  cases c with
  | keyword other script =>
    have hword : other = word := by simpa [isKeyword, Token.Content.kind] using h
    exact ⟨script, by rw [hword]⟩
  | _ => simp [isKeyword, Token.Content.kind] at h

namespace Took

variable {p q r : Parser σ} {us vs : List Token.Content} {c : Token.Content}

theorem single (hend : p.current.content ≠ .endOfInput) (hstep : advance p = .ok p.current q) :
    Took p [p.current.content] q := .cons hend hstep (.nil q)

theorem trans (h : Took p us q) (h' : Took q vs r) : Took p (us ++ vs) r := by
  induction h with
  | nil => exact h'
  | cons hend hstep _ ih => exact .cons hend hstep (ih h')

theorem nil_iff : Took p [] q ↔ p = q := by
  constructor
  · intro h
    cases h
    rfl
  · rintro rfl
    exact .nil p

theorem cons_iff : Took p (c :: us) r ↔
    c ≠ .endOfInput ∧ p.current.content = c ∧ ∃ q, advance p = .ok p.current q ∧ Took q us r := by
  constructor
  · intro h
    cases h with
    | cons hend hstep htail => exact ⟨hend, rfl, _, hstep, htail⟩
  · rintro ⟨hend, rfl, q, hstep, htail⟩
    exact .cons hend hstep htail

theorem append_iff : Took p (us ++ vs) r ↔ ∃ q, Took p us q ∧ Took q vs r := by
  constructor
  · intro h
    induction us generalizing p with
    | nil => exact ⟨p, .nil p, h⟩
    | cons u us ih =>
      obtain ⟨hend, hu, q, hstep, htail⟩ := cons_iff.mp h
      obtain ⟨m, hm, hr⟩ := ih htail
      exact ⟨m, cons_iff.mpr ⟨hend, hu, q, hstep, hm⟩, hr⟩
  · rintro ⟨q, h, h'⟩
    exact h.trans h'

theorem pending_le (h : Took p us q) : q.pending + us.length ≤ p.pending := by
  induction h with
  | nil => exact Nat.le_refl _
  | cons hend hstep _ ih =>
    have hb := below_advance hend
    rw [hstep] at hb
    have hlt : _ < _ := hb
    rw [List.length_cons]
    omega

theorem tokens_unique (h : Took p us q) (h' : Took p vs q) : us = vs := by
  induction h generalizing vs with
  | nil =>
    have hle := h'.pending_le
    exact (List.length_eq_zero_iff.mp (by omega)).symm
  | @cons p m q us hend hstep htail ih =>
    cases h' with
    | nil =>
      have hle := (single hend hstep).pending_le
      have hle' := htail.pending_le
      rw [List.length_singleton] at hle
      omega
    | cons _ hstep' htail' =>
      rw [hstep] at hstep'
      cases hstep'
      rw [ih htail']

theorem uncons (h : Took p (c :: us) r) : p.current.content = c ∧
    ∃ q, advance p = .ok p.current q ∧ q.pending < p.pending ∧ Took q us r := by
  obtain ⟨hend, rfl, q, hstep, htail⟩ := cons_iff.mp h
  have hle := (single hend hstep).pending_le
  exact ⟨rfl, q, hstep, by rwa [List.length_singleton] at hle, htail⟩

theorem only (h : Took p [c] q) :
    p.current.content = c ∧ advance p = .ok p.current q ∧ q.pending < p.pending := by
  obtain ⟨hc, r, hstep, hlt, hnil⟩ := h.uncons
  obtain rfl := nil_iff.mp hnil
  exact ⟨hc, hstep, hlt⟩

theorem split (h : Took p (us ++ vs) r) :
    ∃ q, Took p us q ∧ q.pending + us.length ≤ p.pending ∧ Took q vs r := by
  obtain ⟨q, hl, hr⟩ := append_iff.mp h
  exact ⟨q, hl, hl.pending_le, hr⟩

end Took

/-- A success has taken tokens from `p` on that stand in the relation to its value. -/
def Yields (p : Parser σ) (R : List Token.Content → α → Prop) : Reply ParseError (Parser σ) α → Prop
  | .ok a q => ∃ us, Took p us q ∧ R us a
  | .failed _ _ => True
  | .exhausted => True

section Yields

variable {p : Parser σ}

theorem Yields.mono {R S : List Token.Content → α → Prop} {r : Reply ParseError (Parser σ) α}
    (h : Yields p R r) (hRS : ∀ us a, R us a → S us a) : Yields p S r := by
  cases r with
  | ok a q =>
    obtain ⟨us, hus, hR⟩ := h
    exact ⟨us, hus, hRS us a hR⟩
  | failed e q => trivial
  | exhausted => trivial

theorem Yields.bind {R : List Token.Content → α → Prop} {S : List Token.Content → β → Prop}
    {P : Production σ α} {f : α → Production σ β} (h : Yields p R (P p))
    (hf : ∀ a q us, R us a → Yields q (fun vs b => S (us ++ vs) b) (f a q)) :
    Yields p S ((P >>= f) p) := by
  rw [Action.bind_apply]
  cases hp : P p with
  | ok a q =>
    rw [hp] at h
    obtain ⟨us, hus, hR⟩ := h
    have hq := hf a q us hR
    dsimp only
    cases hr : f a q with
    | ok b r =>
      rw [hr] at hq
      obtain ⟨vs, hvs, hS⟩ := hq
      exact ⟨us ++ vs, hus.trans hvs, hS⟩
    | failed e r => trivial
    | exhausted => trivial
  | failed e q => trivial
  | exhausted => trivial

theorem Yields.first {R : List Token.Content → α → Prop} {r : Reply ParseError (Parser σ) α}
    (h : Yields p R r) :
    Yields p (fun us a => R us a ∧ ∀ c vs, us = c :: vs → c = p.current.content) r := by
  cases r with
  | ok a q =>
    obtain ⟨us, hus, hR⟩ := h
    refine ⟨us, hus, hR, ?_⟩
    rintro c vs rfl
    exact (Took.cons_iff.mp hus).2.1.symm
  | failed e q => trivial
  | exhausted => trivial

theorem yields_pure {R : List Token.Content → α → Prop} {a : α} (h : R [] a) :
    Yields p R ((pure a : Production σ α) p) := ⟨[], .nil p, h⟩

theorem yields_reject (R : List Token.Content → α → Prop) (expected : Expected) :
    Yields p R ((reject expected : Production σ α) p) := trivial

theorem yields_advance {c : Token.Content} (hc : p.current.content = c) (hend : c ≠ .endOfInput) :
    Yields p (fun us t => us = [c] ∧ t = p.current) (advance p) := by
  cases ha : advance p with
  | ok t q =>
    obtain rfl := advance_eq_ok ha
    subst hc
    exact ⟨_, .single hend ha, rfl, rfl⟩
  | failed e q => trivial
  | exhausted => trivial

theorem yields_expect {c : Token.Content} (hend : c ≠ .endOfInput) (expected : Expected) :
    Yields p (fun us _ => us = [c]) (expect c expected p) := by
  unfold expect
  rw [content_bind]
  split
  · next hc => exact (yields_advance hc hend).mono fun us t h => h.1
  · exact yields_reject _ expected

theorem yields_identifier (expected : Expected) :
    Yields p (fun us a => us = [.identifier a.1]) (identifier expected p) := by
  unfold identifier
  rw [content_bind]
  cases hc : p.current.content with
  | identifier name =>
    apply (yields_advance hc Token.Content.noConfusion).bind
    intro t q us hus
    exact yields_pure (by rw [hus.1]; rfl)
  | _ => exact yields_reject _ expected

theorem yields_lastStop {R : List Token.Content → β → Prop} {f : Nat → Production σ β}
    (h : ∀ n, Yields p R (f n p)) : Yields p R ((lastStop >>= f) p) := h p.previousStop

theorem yields_currentStart {R : List Token.Content → β → Prop} {f : Nat → Production σ β}
    (h : ∀ n, Yields p R (f n p)) : Yields p R ((currentStart >>= f) p) := h p.current.span.start

end Yields

/-- The reply is a success that leaves `q` behind, with a value of which `R` holds. -/
def Completes (q : Parser σ) (R : α → Prop) (r : Reply ParseError (Parser σ) α) : Prop :=
  ∃ a, r = .ok a q ∧ R a

section Completes

variable {p q : Parser σ}

omit [TokenSource σ] in
theorem Completes.bind {r : Parser σ} {R : α → Prop} {S : β → Prop} {P : Production σ α}
    {f : α → Production σ β} (h : Completes q R (P p)) (hf : ∀ a, R a → Completes r S (f a q)) :
    Completes r S ((P >>= f) p) := by
  obtain ⟨a, ha, hR⟩ := h
  obtain ⟨b, hb, hS⟩ := hf a hR
  exact ⟨b, by rw [Action.bind_apply, ha]; exact hb, hS⟩

omit [TokenSource σ] in
theorem completes_pure {R : α → Prop} {a : α} (h : R a) :
    Completes p R ((pure a : Production σ α) p) := ⟨a, rfl, h⟩

theorem completes_advance (h : advance p = .ok p.current q) :
    Completes q (fun t => t = p.current) (advance p) := ⟨_, h, rfl⟩

theorem completes_expect {c : Token.Content} (hc : p.current.content = c)
    (h : advance p = .ok p.current q) (expected : Expected) :
    Completes q (fun _ => True) (expect c expected p) := by
  refine ⟨p.current, ?_, trivial⟩
  unfold expect
  rw [content_bind, if_pos hc]
  exact h

theorem completes_identifier {name : String} (hc : p.current.content = .identifier name)
    (h : advance p = .ok p.current q) (expected : Expected) :
    Completes q (fun a => a.1 = name) (identifier expected p) := by
  refine ⟨(name, p.current.span), ?_, rfl⟩
  unfold identifier
  rw [content_bind, hc]
  dsimp only
  rw [Action.bind_apply, h]
  rfl

omit [TokenSource σ] in
theorem Completes.mono {R S : α → Prop} {r : Reply ParseError (Parser σ) α} (h : Completes q R r)
    (hRS : ∀ a, R a → S a) : Completes q S r := by
  obtain ⟨a, ha, hR⟩ := h
  exact ⟨a, ha, hRS a hR⟩

omit [TokenSource σ] in
theorem completes_currentStart {R : β → Prop} {f : Nat → Production σ β}
    (h : ∀ n, Completes q R (f n p)) : Completes q R ((currentStart >>= f) p) :=
  h p.current.span.start

omit [TokenSource σ] in
theorem completes_lastStop {R : β → Prop} {f : Nat → Production σ β}
    (h : ∀ n, Completes q R (f n p)) : Completes q R ((lastStop >>= f) p) := h p.previousStop

end Completes

end Dvilipi.Parser
