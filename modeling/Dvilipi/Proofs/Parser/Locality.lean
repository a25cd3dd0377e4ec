import Dvilipi.Parser.Source
import Dvilipi.Proofs.Grammar.Operators
import Dvilipi.Proofs.Parser.Consumed

/-!
A production knows its source from the tokens that it has seen only. Two parsers that consume the same
tokens and then have the same token in view, whatever their sources hold further on, are told the same
by a production, and the budgets matter only where one of them is used up.
-/

namespace Dvilipi
set_option autoImplicit false

/-- The first reply is the second, unless it gives up. -/
def Reply.Answers {ε σ α : Type} (r r' : Reply ε σ α) : Prop := r ≠ .exhausted → r = r'

section Answers

variable {ε σ α β : Type} {P : Action ε σ α} {f : α → Action ε σ β} {s t : σ}

theorem Reply.Answers.bind {a : α} {r : Reply ε σ β} (h : (P s).Answers (.ok a t))
    (hf : (f a t).Answers r) : ((P >>= f) s).Answers r := by
  intro hne
  have hP : P s = .ok a t := h fun he => hne (Action.bind_eq_exhausted.2 (.inl he))
  rw [Action.bind_apply, hP] at hne ⊢
  exact hf hne

theorem Reply.Answers.bind_failed {e : ε} (h : (P s).Answers (.failed e t)) :
    ((P >>= f) s).Answers (.failed e t) := by
  intro hne
  rw [Action.bind_apply, h fun he => hne (Action.bind_eq_exhausted.2 (.inl he))]

end Answers

namespace Parser

variable {σ τ α β : Type} [TokenSource σ] [TokenSource τ]

namespace Consumed

variable {p q r : Parser σ} {t : Token} {ts us : List Token}

theorem nil_iff : Consumed p [] q ↔ p = q := by
  constructor
  · intro h
    cases h
    rfl
  · rintro rfl
    exact .nil p

theorem cons_iff : Consumed p (t :: ts) r ↔ t.content ≠ .endOfInput ∧ p.current = t ∧
    ∃ q, advance p = .ok p.current q ∧ Consumed q ts r := by
  constructor
  · intro h
    cases h with
    | cons hend hstep htail => exact ⟨hend, rfl, _, hstep, htail⟩
  · rintro ⟨hend, rfl, q, hstep, htail⟩
    exact .cons hend hstep htail

theorem append_iff : Consumed p (ts ++ us) r ↔ ∃ q, Consumed p ts q ∧ Consumed q us r := by
  constructor
  · intro h
    induction ts generalizing p with
    | nil => exact ⟨p, .nil p, h⟩
    | cons t ts ih =>
      obtain ⟨hend, ht, q, hstep, htail⟩ := cons_iff.mp h
      obtain ⟨m, hm, hr⟩ := ih htail
      exact ⟨m, cons_iff.mpr ⟨hend, ht, q, hstep, hm⟩, hr⟩
  · rintro ⟨q, h, h'⟩
    exact h.trans h'

theorem took (h : Consumed p ts q) : Took p (ts.map Token.content) q := by
  induction h with
  | nil => exact .nil _
  | cons hend hstep _ ih => exact .cons hend hstep ih

theorem ne_end (h : Consumed p ts q) : ∀ t ∈ ts, t.content ≠ .endOfInput := by
  induction h with
  | nil => simp
  | cons hend _ _ ih => exact List.forall_mem_cons.mpr ⟨hend, ih⟩

end Consumed

/-- While `p` consumes the tokens `ts` and becomes `q`, the parser `p'` consumes the same tokens and
becomes `q'`, with the same token in view. -/
structure Alongside (p : Parser σ) (ts : List Token) (q : Parser σ) (p' q' : Parser τ) : Prop where
  consumed : Consumed p' ts q'
  current : q'.current = q.current
  previousStop : p'.previousStop = p.previousStop

namespace Alongside

variable {p q r : Parser σ} {p' q' r' : Parser τ} {ts us : List Token}

omit [TokenSource σ] in
omit [TokenSource σ] in
theorem eq_of_nil (h : Alongside p [] p p' q') : q' = p' := (Consumed.nil_iff.mp h.consumed).symm

theorem start (h : Alongside p ts q p' q') (hp : Consumed p ts q) : p'.current = p.current := by
  cases ts with
  | nil =>
    obtain rfl := Consumed.nil_iff.mp hp
    obtain rfl := h.eq_of_nil
    exact h.current
  | cons t ts => rw [(Consumed.cons_iff.mp hp).2.1, (Consumed.cons_iff.mp h.consumed).2.1]

theorem split (h : Alongside p (ts ++ us) r p' r') (hp : Consumed p ts q) (hq : Consumed q us r) :
    ∃ q', Alongside p ts q p' q' ∧ Alongside q us r q' r' := by
  obtain ⟨q', hp', hq'⟩ := Consumed.append_iff.mp h.consumed
  have hstop : q'.previousStop = q.previousStop := by
    rw [hp'.previousStop, hp.previousStop, h.previousStop]
  have hrest : Alongside q us r q' r' := ⟨hq', h.current, hstop⟩
  exact ⟨q', ⟨hp', hrest.start hq, h.previousStop⟩, hrest⟩

omit [TokenSource σ] in
theorem step (h : Alongside p [p.current] q p' q') : advance p' = .ok p.current q' := by
  obtain ⟨-, hcurrent, m, hstep, htail⟩ := Consumed.cons_iff.mp h.consumed
  obtain rfl := Consumed.nil_iff.mp htail
  rwa [hcurrent] at hstep

end Alongside

variable {ι : Type}

/-- The reply at `p` is repeated by every production of a family wherever the same tokens are seen.
Where the source of `p` fails, it is repeated where the source fails with the same error. A complaint
about a token stands already for those that see the same tokens up to this one: none succeeds. -/
def Repeats (P' : ι → Production τ α) (p : Parser σ) : Reply ParseError (Parser σ) α → Prop
  | .ok a q => ∃ ts, Consumed p ts q ∧
      ∀ {p' q' : Parser τ}, Alongside p ts q p' q' → ∀ i, (P' i p').Answers (.ok a q')
  | .failed (.grammatical e) q => ∃ ts us m, Consumed p ts m ∧ Consumed m us q ∧
      m.current = e.found ∧
      (∀ {p' m' : Parser τ}, Alongside p ts m p' m' → ∀ i a r, P' i p' ≠ .ok a r) ∧
      ∀ {p' q' : Parser τ}, Alongside p (ts ++ us) q p' q' →
        ∀ i, (P' i p').Answers (.failed (.grammatical e) q')
  | .failed (.lexical e) r => ∃ ts q, Consumed p ts q ∧ q.current.content ≠ .endOfInput ∧
      advance q = .failed (.lexical e) r ∧
      ∀ {p' q' r' : Parser τ}, Alongside p ts q p' q' → advance q' = .failed (.lexical e) r' →
        ∀ i, (P' i p').Answers (.failed (.lexical e) r')
  | .exhausted => True

section Repeats

variable {p : Parser σ}

theorem Repeats.bind {P : Production σ α} {P' : ι → Production τ α} {f : α → Production σ β}
    {f' : ι → α → Production τ β} (h : Repeats P' p (P p))
    (hf : ∀ a q, P p = .ok a q → Repeats (fun i => f' i a) q (f a q)) :
    Repeats (fun i => P' i >>= f' i) p ((P >>= f) p) := by
  rw [Action.bind_apply]
  cases hP : P p with
  | ok a q =>
    rw [hP] at h
    obtain ⟨ts, hts, hok⟩ := h
    have hq := hf a q hP
    dsimp only
    cases hr : f a q with
    | ok b r =>
      rw [hr] at hq
      obtain ⟨us, hus, hnext⟩ := hq
      refine ⟨ts ++ us, hts.trans hus, fun halong i => ?_⟩
      obtain ⟨m, hleft, hright⟩ := halong.split hts hus
      exact (hok hleft i).bind (hnext hright i)
    | failed e r =>
      rw [hr] at hq
      cases e with
      | grammatical e =>
        obtain ⟨us, vs, m, hus, hvs, hfound, hdoomed, hnext⟩ := hq
        refine ⟨ts ++ us, vs, m, hts.trans hus, hvs, hfound, fun halong i b r hr => ?_,
          fun halong i => ?_⟩
        · obtain ⟨q', hleft, hright⟩ := halong.split hts hus
          obtain ⟨a', s, hs, hr⟩ := Action.bind_eq_ok.mp hr
          have hsame := hok hleft i (by rw [hs]; nofun)
          rw [hs] at hsame
          cases hsame
          exact hdoomed hright i b r hr
        · rw [List.append_assoc] at halong
          obtain ⟨q', hleft, hright⟩ := halong.split hts (hus.trans hvs)
          exact (hok hleft i).bind (hnext hright i)
      | lexical e =>
        obtain ⟨us, m, hus, hend, hstuck, hnext⟩ := hq
        refine ⟨ts ++ us, m, hts.trans hus, hend, hstuck, fun halong hstuck' i => ?_⟩
        obtain ⟨m', hleft, hright⟩ := halong.split hts hus
        exact (hok hleft i).bind (hnext hright hstuck' i)
    | exhausted => trivial
  | failed e q =>
    rw [hP] at h
    cases e with
    | grammatical e =>
      obtain ⟨ts, us, m, hts, hus, hfound, hdoomed, hfailed⟩ := h
      refine ⟨ts, us, m, hts, hus, hfound, fun halong i b r hr => ?_,
        fun halong i => (hfailed halong i).bind_failed⟩
      obtain ⟨a, s, hs, -⟩ := Action.bind_eq_ok.mp hr
      exact hdoomed halong i a s hs
    | lexical e =>
      obtain ⟨ts, m, hts, hend, hstuck, hfailed⟩ := h
      exact ⟨ts, m, hts, hend, hstuck, fun halong hstuck' i => (hfailed halong hstuck' i).bind_failed⟩
  | exhausted => trivial

theorem Repeats.eq {P : ι → Production σ α} {r : Reply ParseError (Parser σ) α}
    (h : Repeats P p r) (hr : r ≠ .exhausted) {i : ι} (hP : P i p ≠ .exhausted) : P i p = r := by
  cases r with
  | ok a q =>
    obtain ⟨ts, hts, hall⟩ := h
    exact hall ⟨hts, rfl, rfl⟩ i hP
  | failed e q =>
    cases e with
    | grammatical e =>
      obtain ⟨ts, us, m, hts, hus, -, -, hall⟩ := h
      exact hall ⟨hts.trans hus, rfl, rfl⟩ i hP
    | lexical e =>
      obtain ⟨ts, m, hts, -, hstuck, hall⟩ := h
      exact hall ⟨hts, rfl, rfl⟩ hstuck i hP
  | exhausted => exact absurd rfl hr

/-- What a production does may depend on the token in view and the end of the one before it, and a
production may give up where another one goes on. -/
theorem Repeats.congr {P' Q' : ι → Production τ α} {r : Reply ParseError (Parser σ) α}
    (h : Repeats P' p r)
    (heq : ∀ i (p' : Parser τ), p'.current = p.current → p'.previousStop = p.previousStop →
      Q' i p' = P' i p' ∨ Q' i p' = .exhausted) : Repeats Q' p r := by
  have hanswers : ∀ {ts : List Token} {q : Parser σ} {p' q' : Parser τ}, Consumed p ts q →
      Alongside p ts q p' q' → ∀ {i : ι} {r' : Reply ParseError (Parser τ) α},
        (P' i p').Answers r' → (Q' i p').Answers r' := by
    intro ts q p' q' hts halong i r' hP hne
    rcases heq i p' (halong.start hts) halong.previousStop with hsame | hex
    · rw [hsame] at hne ⊢
      exact hP hne
    · exact absurd hex hne
  cases r with
  | ok a q =>
    obtain ⟨ts, hts, hall⟩ := h
    exact ⟨ts, hts, fun halong i => hanswers hts halong (hall halong i)⟩
  | failed e q =>
    cases e with
    | grammatical e =>
      obtain ⟨ts, us, m, hts, hus, hfound, hdoomed, hall⟩ := h
      refine ⟨ts, us, m, hts, hus, hfound, fun halong i a r hr => ?_,
        fun halong i => hanswers (hts.trans hus) halong (hall halong i)⟩
      rcases heq i _ (halong.start hts) halong.previousStop with hsame | hex
      · exact hdoomed halong i a r (hsame ▸ hr)
      · rw [hex] at hr
        cases hr
    | lexical e =>
      obtain ⟨ts, m, hts, hend, hstuck, hall⟩ := h
      exact ⟨ts, m, hts, hend, hstuck,
        fun halong hstuck' i => hanswers hts halong (hall halong hstuck' i)⟩
  | exhausted => trivial

/-- A production with a budget gives up at once, or it takes its first step. -/
theorem Repeats.budgeted {r : Reply ParseError (Parser σ) α} (P' : ι → Nat → Production τ α)
    (b : ι → Nat) (hzero : ∀ i, P' i 0 = .exhausted)
    (h : Repeats (fun i => P' i (b i - 1 + 1)) p r) : Repeats (fun i => P' i (b i)) p r := by
  refine h.congr fun i p' _ _ => ?_
  cases hb : b i with
  | zero => exact .inr (by rw [hzero]; rfl)
  | succ k => exact .inl rfl

theorem repeats_pure (a : α) :
    Repeats (fun _ : ι => (pure a : Production τ α)) p ((pure a : Production σ α) p) := by
  refine ⟨[], .nil p, fun halong _ _ => ?_⟩
  rw [halong.eq_of_nil]
  rfl

theorem repeats_reject (expected : Expected) :
    Repeats (fun _ : ι => (reject expected : Production τ α)) p
      ((reject expected : Production σ α) p) := by
  refine ⟨[], [], p, .nil p, .nil p, rfl, fun _ _ _ => nofun, fun halong _ _ => ?_⟩
  dsimp only [reject]
  rw [halong.eq_of_nil, halong.start (.nil p)]

/-- Whatever is read from the token in view on, this token is rejected in the end. -/
theorem Repeats.rejectAt {P : Production σ α} {P' : ι → Production τ α} (h : Repeats P' p (P p))
    (expected : Expected) :
    Repeats (fun i => P' i >>= fun _ => (Parser.rejectAt expected p.current : Production τ β)) p
      ((P >>= fun _ => Parser.rejectAt expected p.current) p) := by
  have hfails : ∀ (p' : Parser τ) (i : ι) (b : β) (r : Parser τ),
      (P' i >>= fun _ => Parser.rejectAt expected p.current) p' ≠ .ok b r := by
    intro p' i b r hr
    obtain ⟨a, s, -, hr⟩ := Action.bind_eq_ok.mp hr
    cases hr
  cases hP : P p with
  | ok a q =>
    rw [hP] at h
    rw [Action.bind_apply, hP]
    obtain ⟨ts, hts, hok⟩ := h
    exact ⟨[], ts, p, .nil p, hts, rfl, fun _ => hfails _,
      fun halong i => (hok halong i).bind fun _ => rfl⟩
  | failed e q => exact h.bind fun a q ha => by rw [hP] at ha; cases ha
  | exhausted => exact h.bind fun a q ha => by rw [hP] at ha; cases ha

theorem repeats_advance {c : Token.Content} (hc : p.current.content = c) (hend : c ≠ .endOfInput) :
    Repeats (fun _ : ι => (advance : Production τ Token)) p (advance p) := by
  cases ha : advance p with
  | ok t q =>
    obtain rfl := advance_eq_ok ha
    exact ⟨[p.current], .single (hc ▸ hend) ha, fun halong _ _ => halong.step⟩
  | failed e q =>
    cases e with
    | grammatical e =>
      unfold advance at ha
      split at ha <;> cases ha
    | lexical e =>
      refine ⟨[], p, .nil p, hc ▸ hend, ha, fun halong hstuck _ _ => ?_⟩
      rwa [halong.eq_of_nil] at hstuck
  | exhausted => trivial

theorem Repeats.content {f : Token.Content → Production σ β}
    {f' : ι → Token.Content → Production τ β}
    (h : Repeats (fun i => f' i p.current.content) p (f p.current.content p)) :
    Repeats (fun i => Parser.content >>= f' i) p ((Parser.content >>= f) p) := by
  refine h.congr fun i p' hcurrent _ => .inl ?_
  rw [content_bind, hcurrent]

theorem Repeats.currentStart {f : Nat → Production σ β} {f' : ι → Nat → Production τ β}
    (h : ∀ n, Repeats (fun i => f' i n) p (f n p)) :
    Repeats (fun i => Parser.currentStart >>= f' i) p ((Parser.currentStart >>= f) p) := by
  refine (h p.current.span.start).congr fun i p' hcurrent _ => .inl ?_
  rw [← hcurrent]
  rfl

theorem Repeats.lastStop {f : Nat → Production σ β} {f' : ι → Nat → Production τ β}
    (h : ∀ n, Repeats (fun i => f' i n) p (f n p)) :
    Repeats (fun i => Parser.lastStop >>= f' i) p ((Parser.lastStop >>= f) p) := by
  refine (h p.previousStop).congr fun i p' _ hstop => .inl ?_
  rw [← hstop]
  rfl

theorem Repeats.advance {f : Token → Production σ β} {f' : ι → Token → Production τ β}
    {c : Token.Content} (hc : p.current.content = c) (hend : c ≠ .endOfInput)
    (hf : ∀ t q, Repeats (fun i => f' i t) q (f t q)) :
    Repeats (fun i => Parser.advance >>= f' i) p ((Parser.advance >>= f) p) :=
  (repeats_advance hc hend).bind fun t q _ => hf t q

theorem Repeats.accept {c : Token.Content} {f : Bool → Production σ β}
    {f' : ι → Bool → Production τ β} (hend : c ≠ .endOfInput)
    (hf : ∀ b q, Repeats (fun i => f' i b) q (f b q)) :
    Repeats (fun i => Parser.accept c >>= f' i) p ((Parser.accept c >>= f) p) := by
  have hcongr : ∀ i (p' : Parser τ), p'.current = p.current → (Parser.accept c >>= f' i) p' =
      if p.current.content = c then (Parser.advance >>= fun _ => f' i true) p'
      else f' i false p' := by
    intro i p' hcurrent
    rw [accept_bind, hcurrent]
  rw [accept_bind]
  split
  · next hc =>
    refine (Repeats.advance hc hend fun _ q => hf true q).congr fun i p' hcurrent _ => .inl ?_
    rw [hcongr i p' hcurrent, if_pos hc]
  · next hc =>
    refine (hf false p).congr fun i p' hcurrent _ => .inl ?_
    rw [hcongr i p' hcurrent, if_neg hc]

theorem repeats_expect {c : Token.Content} (hend : c ≠ .endOfInput) (expected : Expected) :
    Repeats (fun _ : ι => (expect c expected : Production τ Token)) p (expect c expected p) := by
  unfold expect
  apply Repeats.content
  split
  · next hc => exact repeats_advance hc hend
  · exact repeats_reject expected

theorem Repeats.expect {c : Token.Content} {f : Token → Production σ β}
    {f' : ι → Token → Production τ β} (hend : c ≠ .endOfInput) (expected : Expected)
    (hf : ∀ t q, Repeats (fun i => f' i t) q (f t q)) :
    Repeats (fun i => Parser.expect c expected >>= f' i) p ((Parser.expect c expected >>= f) p) :=
  (repeats_expect hend expected).bind fun t q _ => hf t q

theorem repeats_identifier (expected : Expected) :
    Repeats (fun _ : ι => (identifier expected : Production τ (String × Span))) p
      (identifier expected p) := by
  unfold identifier
  apply Repeats.content
  cases hc : p.current.content with
  | identifier name => exact .advance hc Token.Content.noConfusion fun t q => repeats_pure _
  | _ => exact repeats_reject expected

end Repeats

section Lists

variable {item : Production σ α} {item' : ι → Production τ α}

theorem repeats_commaList (h : ∀ p, Repeats item' p (item p)) :
    ∀ n (b : ι → Nat) p, Repeats (fun i => commaList (item' i) (b i)) p (commaList item n p) := by
  intro n
  induction n with
  | zero => exact fun b p => trivial
  | succ n ih =>
    intro b p
    refine .budgeted (fun i => commaList (item' i)) b (fun _ => rfl) ?_
    unfold commaList
    refine (h p).bind fun a q _ => .accept Token.Content.noConfusion fun more r => ?_
    cases more with
    | false => exact repeats_pure _
    | true => exact (ih _ r).bind fun as s _ => repeats_pure _

theorem repeats_commaList? (h : ∀ p, Repeats item' p (item p)) (n : Nat) (b : ι → Nat)
    (p : Parser σ) : Repeats (fun i => commaList? (item' i) (b i)) p (commaList? item n p) := by
  unfold commaList?
  apply Repeats.content
  split
  · exact repeats_pure []
  · exact repeats_commaList h n b p

theorem repeats_itemsUntil (h : ∀ p, Repeats item' p (item p)) (stops : Token.Content → Bool) :
    ∀ n (b : ι → Nat) p,
      Repeats (fun i => itemsUntil stops (item' i) (b i)) p (itemsUntil stops item n p) := by
  intro n
  induction n with
  | zero => exact fun b p => trivial
  | succ n ih =>
    intro b p
    refine .budgeted (fun i => itemsUntil stops (item' i)) b (fun _ => rfl) ?_
    unfold itemsUntil
    apply Repeats.content
    split
    · exact repeats_pure []
    · exact (h p).bind fun a q _ => (ih _ q).bind fun as r _ => repeats_pure _

end Lists

section Expressions

variable {self : Production σ Expr} {self' : ι → Production τ Expr} {b : Nat} {b' : ι → Nat}
  {p : Parser σ}

theorem repeats_call (h : ∀ p, Repeats self' p (self p)) (callee : String) (start : Nat)
    (hc : p.current.content = .delimiter '(') :
    Repeats (fun i => call (self' i) (b' i) callee start) p (call self b callee start p) := by
  unfold call
  refine .advance hc Token.Content.noConfusion fun t q => ?_
  refine (repeats_commaList? h b b' q).bind fun es r _ => ?_
  exact .expect Token.Content.noConfusion _ fun close s => repeats_pure _

theorem repeats_named (h : ∀ p, Repeats self' p (self p)) {name : String}
    (hc : p.current.content = .identifier name) :
    Repeats (fun i => named (self' i) (b' i) name) p (named self b name p) := by
  unfold named
  refine .advance hc Token.Content.noConfusion fun t q => .content ?_
  split
  · next ho => exact repeats_call h name _ ho
  · exact repeats_pure _

theorem repeats_group (h : ∀ p, Repeats self' p (self p))
    (hc : p.current.content = .delimiter '(') :
    Repeats (fun i => group (self' i)) p (group self p) := by
  unfold group
  refine .advance hc Token.Content.noConfusion fun t q => (h q).bind fun e r _ => ?_
  exact .expect Token.Content.noConfusion _ fun close s => repeats_pure _

theorem repeats_primary (h : ∀ p, Repeats self' p (self p)) (p : Parser σ) :
    Repeats (fun i => primary (self' i) (b' i)) p (primary self b p) := by
  unfold primary
  apply Repeats.content
  cases hc : p.current.content with
  | number value => exact .advance hc Token.Content.noConfusion fun t q => repeats_pure _
  | string text => exact .advance hc Token.Content.noConfusion fun t q => repeats_pure _
  | identifier name => exact repeats_named h hc
  | delimiter mark =>
    dsimp only
    split
    · next hm => exact repeats_group h (hm ▸ hc)
    · exact repeats_reject _
  | keyword word script => exact repeats_reject _
  | operator symbol => exact repeats_reject _
  | endOfInput => exact repeats_reject _

theorem repeats_unary (h : ∀ p, Repeats self' p (self p)) :
    ∀ n (k : ι → Nat) p,
      Repeats (fun i => unary (self' i) (b' i) (k i)) p (unary self b n p) := by
  intro n
  induction n with
  | zero => exact fun k p => trivial
  | succ n ih =>
    intro k p
    refine .budgeted (fun i => unary (self' i) (b' i)) k (fun _ => rfl) ?_
    unfold unary
    apply Repeats.content
    cases ho : unaryOp? p.current.content with
    | some op =>
      obtain ⟨symbol, hc, -⟩ := Grammar.unaryOp?_eq_some_iff.mp ho
      refine .advance hc Token.Content.noConfusion fun t q => ?_
      exact (ih _ q).bind fun e r _ => repeats_pure _
    | none => exact repeats_primary h p

theorem repeats_infixTail {operand : Production σ Expr} {operand' : ι → Production τ Expr}
    (h : ∀ p, Repeats operand' p (operand p)) (level : Nat) :
    ∀ n (k : ι → Nat) left p, Repeats (fun i => infixTail (operand' i) level (k i) left) p
      (infixTail operand level n left p) := by
  intro n
  induction n with
  | zero => exact fun k left p => trivial
  | succ n ih =>
    intro k left p
    refine .budgeted (fun i k => infixTail (operand' i) level k left) k (fun _ => rfl) ?_
    unfold infixTail
    apply Repeats.content
    cases ho : infixOp? level p.current.content with
    | some op =>
      obtain ⟨symbol, hc, -⟩ := Grammar.infixOp?_eq_some_iff.mp ho
      refine .advance hc Token.Content.noConfusion fun t q => ?_
      exact (h q).bind fun right r _ => ih _ _ r
    | none => exact repeats_pure left

theorem repeats_tier (h : ∀ p, Repeats self' p (self p)) :
    ∀ level p, Repeats (fun i => tier (self' i) (b' i) level) p (tier self b level p) := by
  intro level
  induction level with
  | zero => exact repeats_unary h b b'
  | succ level ih => exact fun p => (ih p).bind fun left q _ => repeats_infixTail ih level b b' left q

theorem advance_bind (f : Token → Production σ α) (p : Parser σ) :
    (advance >>= f) p = (advance >>= fun _ => f p.current) p := by
  rw [Action.bind_apply, Action.bind_apply]
  cases ha : advance p with
  | ok t q => rw [advance_eq_ok ha]
  | failed e q => rfl
  | exhausted => rfl

theorem repeats_rejectedTarget (h : ∀ p, Repeats self' p (self p))
    (hc : p.current.content = .operator "=") :
    Repeats (fun i => advance >>= fun equals => self' i >>= fun _ =>
      (rejectAt .assignmentTarget equals : Production τ Expr)) p
      ((advance >>= fun equals => self >>= fun _ =>
        (rejectAt .assignmentTarget equals : Production σ Expr)) p) := by
  have hread : Repeats (fun i => advance >>= fun _ => self' i) p ((advance >>= fun _ => self) p) :=
    .advance hc Token.Content.noConfusion fun _ q => h q
  have hlate : Repeats (fun i => advance >>= fun _ => self' i >>= fun _ =>
      (rejectAt .assignmentTarget p.current : Production τ Expr)) p
      ((advance >>= fun _ => self >>= fun _ =>
        (rejectAt .assignmentTarget p.current : Production σ Expr)) p) := by
    simp only [← bind_assoc]
    exact hread.rejectAt .assignmentTarget
  rw [advance_bind]
  refine hlate.congr fun i p' hcurrent _ => .inl ?_
  rw [advance_bind, hcurrent]

theorem repeats_assignment (h : ∀ p, Repeats self' p (self p)) (p : Parser σ) :
    Repeats (fun i => assignment (self' i) (b' i)) p (assignment self b p) := by
  unfold assignment
  refine (repeats_tier h Infix.levels p).bind fun target q _ => .content ?_
  split
  · next hc =>
    cases target with
    | reference name s =>
      refine .advance hc Token.Content.noConfusion fun equals r => ?_
      exact (h r).bind fun value s _ => repeats_pure _
    | _ => exact repeats_rejectedTarget h hc
  · exact repeats_pure target

end Expressions

theorem repeats_expression : ∀ n (b : ι → Nat) (p : Parser σ),
    Repeats (fun i => (expression (b i) : Production τ Expr)) p (expression n p) := by
  intro n
  induction n with
  | zero => exact fun b p => trivial
  | succ n ih =>
    intro b p
    refine .budgeted (fun _ => expression) b (fun _ => rfl) ?_
    exact repeats_assignment (ih fun i => b i - 1) p

theorem repeats_typeName (p : Parser σ) :
    Repeats (fun _ : ι => (typeName : Production τ TypeName)) p (typeName p) := by
  unfold typeName
  apply Repeats.content
  cases hc : p.current.content with
  | identifier name => exact .advance hc Token.Content.noConfusion fun t q => repeats_pure _
  | keyword word script =>
    dsimp only
    split
    · exact .advance hc Token.Content.noConfusion fun t q => repeats_pure _
    · exact repeats_reject _
  | number value => exact repeats_reject _
  | string text => exact repeats_reject _
  | operator symbol => exact repeats_reject _
  | delimiter mark => exact repeats_reject _
  | endOfInput => exact repeats_reject _

theorem repeats_ascription? (p : Parser σ) :
    Repeats (fun _ : ι => (ascription? : Production τ (Option TypeName))) p (ascription? p) := by
  unfold ascription?
  refine .accept Token.Content.noConfusion fun more q => ?_
  cases more with
  | false => exact repeats_pure none
  | true => exact (repeats_typeName q).bind fun t r _ => repeats_pure _

theorem repeats_parameter (p : Parser σ) :
    Repeats (fun _ : ι => (parameter : Production τ Parameter)) p (parameter p) := by
  unfold parameter
  refine (repeats_identifier _).bind fun name q _ => ?_
  exact (repeats_ascription? q).bind fun t r _ => .lastStop fun stop => repeats_pure _

theorem repeats_resultType? (p : Parser σ) :
    Repeats (fun _ : ι => (resultType? : Production τ (Option TypeName))) p (resultType? p) := by
  unfold resultType?
  refine .accept Token.Content.noConfusion fun more q => ?_
  cases more with
  | false => exact repeats_pure none
  | true =>
    refine .expect Token.Content.noConfusion _ fun arrow r => ?_
    exact (repeats_typeName r).bind fun t s _ => repeats_pure _

section Statements

variable {self : Production σ Stmt} {self' : ι → Production τ Stmt} {expr : Production σ Expr}
  {expr' : ι → Production τ Expr} {b : Nat} {b' : ι → Nat} {p : Parser σ}

theorem repeats_block (h : ∀ p, Repeats self' p (self p)) (p : Parser σ) :
    Repeats (fun i => block (self' i) (b' i)) p (block self b p) := by
  unfold block
  refine .expect Token.Content.noConfusion _ fun opening q => ?_
  refine (repeats_itemsUntil h closesBlock b b' q).bind fun ss r _ => ?_
  exact .expect Token.Content.noConfusion _ fun closing s => repeats_pure _

theorem repeats_functionDeclaration (h : ∀ p, Repeats self' p (self p)) {script : Script}
    (hc : p.current.content = .keyword .fn script) :
    Repeats (fun i => functionDeclaration (self' i) (b' i)) p (functionDeclaration self b p) := by
  unfold functionDeclaration
  refine .advance hc Token.Content.noConfusion fun first q => ?_
  refine (repeats_identifier _).bind fun name r _ => ?_
  refine .expect Token.Content.noConfusion _ fun opening s => ?_
  refine (repeats_commaList? repeats_parameter b b' s).bind fun ps t _ => ?_
  refine .expect Token.Content.noConfusion _ fun closing u => ?_
  refine (repeats_resultType? u).bind fun result v _ => ?_
  exact (repeats_block h v).bind fun body w _ => repeats_pure _

theorem repeats_initial? (h : ∀ p, Repeats expr' p (expr p)) (p : Parser σ) :
    Repeats (fun i => initial? (expr' i)) p (initial? expr p) := by
  unfold initial?
  refine .accept Token.Content.noConfusion fun more q => ?_
  cases more with
  | false => exact repeats_pure none
  | true => exact (h q).bind fun e r _ => repeats_pure _

theorem repeats_variableDeclaration (h : ∀ p, Repeats expr' p (expr p)) (constant : Bool)
    {word : Keyword} {script : Script} (hc : p.current.content = .keyword word script) :
    Repeats (fun i => variableDeclaration (expr' i) constant) p
      (variableDeclaration expr constant p) := by
  unfold variableDeclaration
  refine .advance hc Token.Content.noConfusion fun first q => ?_
  refine (repeats_identifier _).bind fun name r _ => ?_
  refine (repeats_ascription? r).bind fun t s _ => ?_
  refine (repeats_initial? h s).bind fun e u _ => ?_
  refine .expect Token.Content.noConfusion _ fun close v => ?_
  exact .lastStop fun stop => repeats_pure _

theorem repeats_alternative (h : ∀ p, Repeats self' p (self p)) (p : Parser σ) :
    Repeats (fun i => alternative (self' i) (b' i)) p (alternative self b p) := by
  unfold alternative
  apply Repeats.content
  split
  · exact (h p).bind fun nested q _ => repeats_pure _
  · exact repeats_block h p

theorem repeats_conditional (h : ∀ p, Repeats self' p (self p))
    (hx : ∀ p, Repeats expr' p (expr p)) {script : Script}
    (hc : p.current.content = .keyword .if_ script) :
    Repeats (fun i => conditional (self' i) (expr' i) (b' i)) p (conditional self expr b p) := by
  unfold conditional
  refine .advance hc Token.Content.noConfusion fun first q => ?_
  refine (hx q).bind fun condition r _ => ?_
  refine (repeats_block h r).bind fun yes s _ => .content ?_
  split
  · next he =>
    refine .advance rfl (ne_end_of_isKeyword he) fun t u => ?_
    exact (repeats_alternative h u).bind fun no v _ => .lastStop fun stop => repeats_pure _
  · exact .lastStop fun stop => repeats_pure _

theorem repeats_loop (h : ∀ p, Repeats self' p (self p)) (hx : ∀ p, Repeats expr' p (expr p))
    {script : Script} (hc : p.current.content = .keyword .while_ script) :
    Repeats (fun i => loop (self' i) (expr' i) (b' i)) p (loop self expr b p) := by
  unfold loop
  refine .advance hc Token.Content.noConfusion fun first q => ?_
  refine (hx q).bind fun condition r _ => ?_
  exact (repeats_block h r).bind fun body s _ => repeats_pure _

theorem repeats_returned? (h : ∀ p, Repeats expr' p (expr p)) (p : Parser σ) :
    Repeats (fun i => returned? (expr' i)) p (returned? expr p) := by
  unfold returned?
  apply Repeats.content
  split
  · exact repeats_pure none
  · exact (h p).bind fun e q _ => repeats_pure _

theorem repeats_returnStatement (h : ∀ p, Repeats expr' p (expr p)) {script : Script}
    (hc : p.current.content = .keyword .return_ script) :
    Repeats (fun i => returnStatement (expr' i)) p (returnStatement expr p) := by
  unfold returnStatement
  refine .advance hc Token.Content.noConfusion fun first q => ?_
  refine (repeats_returned? h q).bind fun e r _ => ?_
  refine .expect Token.Content.noConfusion _ fun close s => ?_
  exact .lastStop fun stop => repeats_pure _

theorem repeats_expressionStatement (h : ∀ p, Repeats expr' p (expr p)) (p : Parser σ) :
    Repeats (fun i => expressionStatement (expr' i)) p (expressionStatement expr p) := by
  unfold expressionStatement
  refine .currentStart fun start => (h p).bind fun e q _ => ?_
  refine .expect Token.Content.noConfusion _ fun close r => ?_
  exact .lastStop fun stop => repeats_pure _

theorem repeats_keywordStatement (h : ∀ p, Repeats self' p (self p))
    (hx : ∀ p, Repeats expr' p (expr p)) {word : Keyword} {script : Script}
    (hc : p.current.content = .keyword word script) :
    Repeats (fun i => keywordStatement (self' i) (expr' i) (b' i) word) p
      (keywordStatement self expr b word p) := by
  cases word with
  | fn => exact repeats_functionDeclaration h hc
  | let_ => exact repeats_variableDeclaration hx false hc
  | const => exact repeats_variableDeclaration hx true hc
  | if_ => exact repeats_conditional h hx hc
  | while_ => exact repeats_loop h hx hc
  | return_ => exact repeats_returnStatement hx hc
  | _ => exact repeats_reject _

theorem repeats_statementForm (h : ∀ p, Repeats self' p (self p))
    (hx : ∀ p, Repeats expr' p (expr p)) (p : Parser σ) :
    Repeats (fun i => statementForm (self' i) (expr' i) (b' i)) p (statementForm self expr b p) := by
  unfold statementForm
  apply Repeats.content
  cases hc : p.current.content with
  | keyword word script => exact repeats_keywordStatement h hx hc
  | _ => exact repeats_expressionStatement hx p

end Statements

theorem repeats_statement : ∀ n (b : ι → Nat) (p : Parser σ),
    Repeats (fun i => (statement (b i) : Production τ Stmt)) p (statement n p) := by
  intro n
  induction n with
  | zero => exact fun b p => trivial
  | succ n ih =>
    intro b p
    refine .budgeted (fun _ => statement) b (fun _ => rfl) ?_
    exact repeats_statementForm (ih fun i => b i - 1) (repeats_expression (n + 1) _) p

theorem repeats_program (n : Nat) (b : ι → Nat) (p : Parser σ) :
    Repeats (fun i => (program (b i) : Production τ Program)) p (program n p) := by
  unfold program
  exact (repeats_itemsUntil (repeats_statement n b) _ n b p).bind fun ss q _ => repeats_pure _

end Parser
end Dvilipi
