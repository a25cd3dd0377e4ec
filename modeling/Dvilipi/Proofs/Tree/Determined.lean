import Dvilipi.Proofs.Token.Parentheses
import Dvilipi.Proofs.Tree.Bare
import Dvilipi.Proofs.Tree.ReadFrom

/-!
Trees are determined by their tokens, if it is known what they are without their spans. The number of
solid tokens of an expression is read off its bare tree, so it tells where a part of it ends; whether a
parenthesis belongs to a part or encloses the whole is told by its partner. Everything else is cut off
from the left.
-/

namespace Dvilipi
set_option autoImplicit false

namespace Expr

mutual

/-- The number of tokens that are no parentheses. -/
def weight : Expr → Nat
  | .number _ _ => 1
  | .string _ _ => 1
  | .reference _ _ => 1
  | .assign _ e _ => e.weight + 2
  | .binary _ a b _ => a.weight + (b.weight + 1)
  | .logical _ a b _ => a.weight + (b.weight + 1)
  | .unary _ e _ => e.weight + 1
  | .call _ es _ => weightList es + 1

def weightList : List Expr → Nat
  | [] => 0
  | [e] => e.weight
  | e :: f :: es => e.weight + (weightList (f :: es) + 1)

end

theorem weight_ofInfix (op : Infix) (a b : Expr) :
    (ofInfix op a b).weight = a.weight + (b.weight + 1) := by
  cases op <;> rfl

mutual

theorem weight_bare (e : Expr) : e.bare.weight = e.weight := by
  cases e with
  | number x sp => rfl
  | string t sp => rfl
  | reference x sp => rfl
  | assign x e sp => simp only [bare, weight, e.weight_bare]
  | binary op a b sp => simp only [bare, weight, a.weight_bare, b.weight_bare]
  | logical op a b sp => simp only [bare, weight, a.weight_bare, b.weight_bare]
  | unary op e sp => simp only [bare, weight, e.weight_bare]
  | call f es sp => simp only [bare, weight, weightList_bareList es]
termination_by structural e

theorem weightList_bareList (es : List Expr) : weightList (bareList es) = weightList es := by
  cases es with
  | nil => rfl
  | cons e es =>
    have hes := weightList_bareList es
    cases es with
    | nil => exact e.weight_bare
    | cons f es =>
      simp only [bareList, weightList, e.weight_bare] at hes ⊢
      rw [hes]
termination_by structural es

end

theorem weight_congr {e e' : Expr} (h : e.bare = e'.bare) : e.weight = e'.weight := by
  rw [← e.weight_bare, h, e'.weight_bare]

mutual

theorem ReadFrom.solids {e : Expr} {ts : List Token} (h : e.ReadFrom ts) :
    Token.solids ts = e.weight := by
  match h with
  | .number ht => exact Token.solids_cons_solid (Token.solid_of_content ht nofun nofun)
  | .string ht => exact Token.solids_cons_solid (Token.solid_of_content ht nofun nofun)
  | .reference ht => exact Token.solids_cons_solid (Token.solid_of_content ht nofun nofun)
  | .call ht hl hes hr =>
    rw [Token.solids_cons_solid (Token.solid_of_content ht nofun nofun),
      Token.solids_enclose hl hr, hes.solids, weight]
  | .group hl he hr => rw [Token.solids_enclose hl hr, he.solids]
  | .unary ht he =>
    rw [Token.solids_cons_solid (Token.solid_of_content ht nofun nofun), he.solids, weight]
  | .joined ha ht hb =>
    rw [Token.solids_append, Token.solids_cons_solid (Token.solid_of_content ht nofun nofun),
      ha.solids, hb.solids, weight_ofInfix]
  | .assign hx ht he =>
    rw [Token.solids_append, Token.solids_cons_solid (Token.solid_of_content ht nofun nofun),
      hx.solids, he.solids, weight, weight, Nat.add_comm 1]
termination_by structural h

theorem AllReadFrom.solids {es : List Expr} {ts : List Token} (h : AllReadFrom es ts) :
    Token.solids ts = weightList es := by
  match h with
  | .nil => rfl
  | .single he => exact he.solids
  | .cons he ht hes =>
    rw [Token.solids_append,
      Token.solids_cons_solid (Token.solid_of_mark ht (by decide) (by decide)), he.solids,
      hes.solids, weightList]
termination_by structural h

end

mutual

theorem ReadFrom.balanced {e : Expr} {ts : List Token} (h : e.ReadFrom ts) : Token.Balanced ts := by
  match h with
  | .number ht => exact Token.balanced_nil.cons (Token.solid_of_content ht nofun nofun)
  | .string ht => exact Token.balanced_nil.cons (Token.solid_of_content ht nofun nofun)
  | .reference ht => exact Token.balanced_nil.cons (Token.solid_of_content ht nofun nofun)
  | .call ht hl hes hr =>
    exact (hes.balanced.enclose hl hr).cons (Token.solid_of_content ht nofun nofun)
  | .group hl he hr => exact he.balanced.enclose hl hr
  | .unary ht he => exact he.balanced.cons (Token.solid_of_content ht nofun nofun)
  | .joined ha ht hb =>
    exact ha.balanced.append (hb.balanced.cons (Token.solid_of_content ht nofun nofun))
  | .assign hx ht he =>
    exact hx.balanced.append (he.balanced.cons (Token.solid_of_content ht nofun nofun))
termination_by structural h

theorem AllReadFrom.balanced {es : List Expr} {ts : List Token} (h : AllReadFrom es ts) :
    Token.Balanced ts := by
  match h with
  | .nil => exact Token.balanced_nil
  | .single he => exact he.balanced
  | .cons he ht hes =>
    exact he.balanced.append
      (hes.balanced.cons (Token.solid_of_mark ht (by decide) (by decide)))
termination_by structural h

end

theorem ReadFrom.ne_nil {e : Expr} {ts : List Token} (h : e.ReadFrom ts) : ts ≠ [] := by
  cases h <;> simp

/-- One token that says `c`, and its span. -/
def Single (c : Token.Content) (sp : Span) (ts : List Token) : Prop :=
  ∃ t : Token, ts = [t] ∧ t.content = c ∧ sp = t.span

/-- Two operands with their operator between them, and the span from the one to the other. -/
def Joined (symbol : String) (a b : Expr) (sp : Span) (ts : List Token) : Prop :=
  ∃ us t vs, ts = us ++ t :: vs ∧ a.ReadFrom us ∧ t.content = .operator symbol ∧ b.ReadFrom vs ∧
    sp = a.span.«to» b.span

/-- The expression is read from the tokens, which no parentheses enclose. -/
def DirectFrom : Expr → List Token → Prop
  | .number x sp, ts => Single (.number x) sp ts
  | .string text sp, ts => Single (.string text) sp ts
  | .reference x sp, ts => Single (.identifier x) sp ts
  | .assign x e sp, ts => ∃ sp', Joined "=" (.reference x sp') e sp ts
  | .binary op a b sp, ts => Joined op.symbol a b sp ts
  | .logical op a b sp, ts => Joined op.symbol a b sp ts
  | .unary op e sp, ts => ∃ t us, ts = t :: us ∧ t.content = .operator op.symbol ∧ e.ReadFrom us ∧
      sp = ⟨t.span.start, e.span.stop⟩
  | .call f es sp, ts => ∃ t l us r, ts = t :: l :: (us ++ [r]) ∧ t.content = .identifier f ∧
      AllReadFrom es us ∧ sp = ⟨t.span.start, r.span.stop⟩

section

variable {e e' : Expr} {ts : List Token}

theorem ReadFrom.direct_or_group (h : e.ReadFrom ts) : e.DirectFrom ts ∨
    ∃ l us r, ts = l :: (us ++ [r]) ∧ l.content = .delimiter '(' ∧ e.ReadFrom us := by
  cases h with
  | number ht => exact .inl ⟨_, rfl, ht, rfl⟩
  | string ht => exact .inl ⟨_, rfl, ht, rfl⟩
  | reference ht => exact .inl ⟨_, rfl, ht, rfl⟩
  | call ht hl hes hr => exact .inl ⟨_, _, _, _, rfl, ht, hes, rfl⟩
  | group hl he hr => exact .inr ⟨_, _, _, rfl, hl, he⟩
  | unary ht he => exact .inl ⟨_, _, rfl, ht, he, rfl⟩
  | joined ha ht hb =>
    rename_i op a b us vs
    cases op <;> exact .inl ⟨_, _, _, rfl, ha, ht, hb, rfl⟩
  | assign hx ht he => exact .inl ⟨_, _, _, _, rfl, hx, ht, he, rfl⟩

theorem Single.not_enclosed {c : Token.Content} {sp : Span} {l : Token} {us : List Token}
    (h : Single c sp (l :: us)) (hc : c ≠ .delimiter '(') : l.content ≠ .delimiter '(' := by
  obtain ⟨t, hts, ht, -⟩ := h
  rwa [(List.cons.inj hts).1, ht]

theorem Joined.not_enclosed {symbol : String} {a b : Expr} {sp : Span} {l r : Token}
    {ws : List Token} (h : Joined symbol a b sp (l :: (ws ++ [r]))) (hws : Token.Balanced ws) :
    l.content ≠ .delimiter '(' := by
  obtain ⟨us, t, vs, hts, ha, -⟩ := h
  exact fun hl => ha.balanced.not_enclosed ha.ne_nil hl hws hts.symm

theorem DirectFrom.not_enclosed {l r : Token} {ws : List Token}
    (h : e.DirectFrom (l :: (ws ++ [r]))) (hws : Token.Balanced ws) :
    l.content ≠ .delimiter '(' := by
  cases e with
  | number x sp => exact Single.not_enclosed h nofun
  | string text sp => exact Single.not_enclosed h nofun
  | reference x sp => exact Single.not_enclosed h nofun
  | assign x e sp =>
    obtain ⟨sp', hjoined⟩ := h
    exact hjoined.not_enclosed hws
  | binary op a b sp => exact Joined.not_enclosed h hws
  | logical op a b sp => exact Joined.not_enclosed h hws
  | unary op e sp =>
    obtain ⟨t, us, hts, ht, -⟩ := h
    rw [(List.cons.inj hts).1, ht]
    nofun
  | call f es sp =>
    obtain ⟨t, l', us, r', hts, ht, -⟩ := h
    rw [(List.cons.inj hts).1, ht]
    nofun

/-- Two expressions that are read from the same tokens have the same parentheses around them. -/
theorem ReadFrom.directFrom {ts : List Token} (h : e.ReadFrom ts) (h' : e'.ReadFrom ts) :
    ∃ us, e.DirectFrom us ∧ e'.DirectFrom us := by
  rcases h.direct_or_group with hd | ⟨l, us, r, rfl, hl, hu⟩
  · rcases h'.direct_or_group with hd' | ⟨l, us, r, rfl, hl, hu'⟩
    · exact ⟨ts, hd, hd'⟩
    · exact absurd hl (hd.not_enclosed hu'.balanced)
  · rcases h'.direct_or_group with hd' | ⟨l', us', r', hts, -, hu'⟩
    · exact absurd hl (hd'.not_enclosed hu.balanced)
    · obtain ⟨-, htail⟩ := List.cons.inj hts
      obtain ⟨rfl, -⟩ := List.append_inj' htail rfl
      exact hu.directFrom hu'
termination_by ts.length
decreasing_by
  subst_vars
  simp +arith

end

section

variable {t t' : Token} {e e' : Expr} {us us' vs vs' : List Token}

/-- Expressions before solid tokens end in the same place. -/
theorem ReadFrom.cut (h : e.ReadFrom us) (h' : e'.ReadFrom us') (hbare : e.bare = e'.bare)
    (ht : t.isSolid = true) (ht' : t'.isSolid = true) (hts : us ++ t :: vs = us' ++ t' :: vs') :
    us = us' ∧ t = t' ∧ vs = vs' :=
  Token.cut hts ht ht' (by rw [h.solids, h'.solids, weight_congr hbare])

theorem Single.span_eq {c c' : Token.Content} {sp sp' : Span} (h : Single c sp us)
    (h' : Single c' sp' us) : sp = sp' := by
  obtain ⟨t, rfl, -, rfl⟩ := h
  obtain ⟨t', ht', -, rfl⟩ := h'
  rw [(List.cons.inj ht').1]

theorem ReadFrom.reference_span {x : String} {sp sp' : Span}
    (h : (Expr.reference x sp).ReadFrom us) (h' : (Expr.reference x sp').ReadFrom us) : sp = sp' := by
  obtain ⟨ws, hsingle, hsingle'⟩ := h.directFrom h'
  exact Single.span_eq hsingle hsingle'

theorem Joined.split {symbol symbol' : String} {a a' b b' : Expr} {sp sp' : Span}
    (h : Joined symbol a b sp us) (h' : Joined symbol' a' b' sp' us) (hbare : a.bare = a'.bare) :
    ∃ vs ws, (a.ReadFrom vs ∧ a'.ReadFrom vs) ∧ (b.ReadFrom ws ∧ b'.ReadFrom ws) ∧
      sp = a.span.«to» b.span ∧ sp' = a'.span.«to» b'.span := by
  obtain ⟨vs, t, ws, rfl, ha, ht, hb, hsp⟩ := h
  obtain ⟨vs', t', ws', hts, ha', ht', hb', hsp'⟩ := h'
  obtain ⟨rfl, rfl, rfl⟩ := ha.cut ha' hbare (Token.solid_of_content ht nofun nofun)
    (Token.solid_of_content ht' nofun nofun) hts
  exact ⟨vs, ws, ⟨ha, ha'⟩, ⟨hb, hb'⟩, hsp, hsp'⟩

end

mutual

theorem ReadFrom.unique {e e' : Expr} {ts : List Token} (h : e.ReadFrom ts) (h' : e'.ReadFrom ts)
    (hbare : e.bare = e'.bare) : e = e' := by
  obtain ⟨ws, hd, hd'⟩ := h.directFrom h'
  cases e with
  | number x sp =>
    cases e' with
    | number x' sp' =>
      obtain ⟨rfl, -⟩ := number.inj hbare
      rw [Single.span_eq hd hd']
    | _ => cases hbare
  | string text sp =>
    cases e' with
    | string text' sp' =>
      obtain ⟨rfl, -⟩ := string.inj hbare
      rw [Single.span_eq hd hd']
    | _ => cases hbare
  | reference x sp =>
    cases e' with
    | reference x' sp' =>
      obtain ⟨rfl, -⟩ := reference.inj hbare
      rw [Single.span_eq hd hd']
    | _ => cases hbare
  | assign x e sp =>
    cases e' with
    | assign x' e' sp' =>
      obtain ⟨⟨px, hjoined⟩, px', hjoined'⟩ := And.intro hd hd'
      obtain ⟨rfl, heq, -⟩ := assign.inj hbare
      obtain ⟨us, vs, ⟨hx, hx'⟩, ⟨he, he'⟩, rfl, rfl⟩ := hjoined.split hjoined' rfl
      rw [he.unique he' heq, hx.reference_span hx']
    | _ => cases hbare
  | binary op a b sp =>
    cases e' with
    | binary op' a' b' sp' =>
      obtain ⟨rfl, haeq, hbeq, -⟩ := binary.inj hbare
      obtain ⟨us, vs, ⟨ha, ha'⟩, ⟨hb, hb'⟩, rfl, rfl⟩ := Joined.split hd hd' haeq
      rw [ha.unique ha' haeq, hb.unique hb' hbeq]
    | _ => cases hbare
  | logical op a b sp =>
    cases e' with
    | logical op' a' b' sp' =>
      obtain ⟨rfl, haeq, hbeq, -⟩ := logical.inj hbare
      obtain ⟨us, vs, ⟨ha, ha'⟩, ⟨hb, hb'⟩, rfl, rfl⟩ := Joined.split hd hd' haeq
      rw [ha.unique ha' haeq, hb.unique hb' hbeq]
    | _ => cases hbare
  | unary op e sp =>
    cases e' with
    | unary op' e' sp' =>
      obtain ⟨t, us, rfl, ht, he, rfl⟩ := hd
      obtain ⟨t', us', hts, ht', he', rfl⟩ := hd'
      obtain ⟨rfl, heq, -⟩ := unary.inj hbare
      obtain ⟨rfl, rfl⟩ := List.cons.inj hts
      rw [he.unique he' heq]
    | _ => cases hbare
  | call f es sp =>
    cases e' with
    | call f' es' sp' =>
      obtain ⟨t, l, us, r, rfl, ht, hes, rfl⟩ := hd
      obtain ⟨t', l', us', r', hts, ht', hes', rfl⟩ := hd'
      obtain ⟨rfl, heq, -⟩ := call.inj hbare
      simp only [List.cons.injEq] at hts
      obtain ⟨rfl, -, htail⟩ := hts
      obtain ⟨rfl, hr⟩ := List.append_inj' htail rfl
      rw [hes.unique hes' heq, (List.cons.inj hr).1]
    | _ => cases hbare
termination_by structural e

theorem AllReadFrom.unique {es es' : List Expr} {ts : List Token} (h : AllReadFrom es ts)
    (h' : AllReadFrom es' ts) (hbare : bareList es = bareList es') : es = es' := by
  cases es with
  | nil =>
    cases es' with
    | nil => rfl
    | cons e' es' => cases hbare
  | cons e es =>
    cases es' with
    | nil => cases hbare
    | cons e' es' =>
      obtain ⟨heq, hrest⟩ := List.cons.inj hbare
      have ih {us : List Token} (hes : AllReadFrom es us) (hes' : AllReadFrom es' us) : es = es' :=
        hes.unique hes' hrest
      cases h with
      | single he =>
        cases h' with
        | single he' => rw [he.unique he' heq]
        | cons _ _ _ => cases hrest
      | cons he ht hes =>
        generalize hts : _ ++ _ :: _ = ws at h'
        cases h' with
        | single _ => cases hrest
        | cons he' ht' hes' =>
          obtain ⟨rfl, rfl, rfl⟩ := he.cut he' heq (Token.solid_of_mark ht (by decide) (by decide))
            (Token.solid_of_mark ht' (by decide) (by decide)) hts
          rw [he.unique he' heq, ih hes hes']
termination_by structural es

end

end Expr
section

variable {us us' vs vs' : List Token}

theorem Announced.cut {α : Type} {before : List Token.Content} {R : α → List Token → Prop}
    {bare : α → α} {a a' : Option α}
    (hcut : ∀ {a a' us us'}, R a us → R a' us' → bare a = bare a' → us ++ vs = us' ++ vs' →
      a = a' ∧ us = us')
    (h : Announced before R a us) (h' : Announced before R a' us') (hbare : a.map bare = a'.map bare)
    (hts : us ++ vs = us' ++ vs') : a = a' ∧ us = us' := by
  cases h with
  | none =>
    cases h' with
    | none => exact ⟨rfl, rfl⟩
    | some _ _ => cases hbare
  | some hus ha =>
    cases h' with
    | none => cases hbare
    | some hus' ha' =>
      rw [List.append_assoc, List.append_assoc] at hts
      obtain ⟨rfl, htail⟩ := List.append_inj hts (by
        rw [← List.length_map Token.content, hus, ← hus', List.length_map])
      obtain ⟨rfl, rfl⟩ := hcut ha ha' (Option.some.inj hbare) htail
      exact ⟨rfl, rfl⟩

theorem Separated.cut {α : Type} {R : α → List Token → Prop} {bare : α → α} {as as' : List α}
    (hcut : ∀ {a a' us us' vs vs'}, R a us → R a' us' → bare a = bare a' → us ++ vs = us' ++ vs' →
      a = a' ∧ us = us')
    (h : Separated R as us) (h' : Separated R as' us') (hbare : as.map bare = as'.map bare)
    (hts : us ++ vs = us' ++ vs') : as = as' ∧ us = us' := by
  induction h generalizing as' us' with
  | nil =>
    cases h' with
    | nil => exact ⟨rfl, rfl⟩
    | single _ => cases hbare
    | cons _ _ _ => cases hbare
  | single ha =>
    cases h' with
    | nil => cases hbare
    | single ha' =>
      obtain ⟨rfl, rfl⟩ := hcut ha ha' (List.cons.inj hbare).1 hts
      exact ⟨rfl, rfl⟩
    | cons _ _ _ => cases (List.cons.inj hbare).2
  | cons ha ht hrest ih =>
    cases h' with
    | nil => cases hbare
    | single _ => cases (List.cons.inj hbare).2
    | cons ha' ht' hrest' =>
      obtain ⟨heq, hbare'⟩ := List.cons.inj hbare
      rw [List.append_assoc, List.append_assoc] at hts
      obtain ⟨rfl, rfl⟩ := hcut ha ha' heq hts
      obtain ⟨rfl, htail⟩ := List.cons.inj (List.append_cancel_left hts)
      obtain ⟨hsame, rfl⟩ := ih hrest' hbare' htail
      rw [hsame]
      exact ⟨rfl, rfl⟩

theorem TypeName.ReadFrom.cut {n n' : TypeName} (h : n.ReadFrom us) (h' : n'.ReadFrom us')
    (hts : us ++ vs = us' ++ vs') : n = n' ∧ us = us' := by
  obtain ⟨t, rfl, rfl, -⟩ := h
  obtain ⟨t', rfl, rfl, -⟩ := h'
  obtain ⟨rfl, -⟩ := List.cons.inj hts
  exact ⟨rfl, rfl⟩

theorem Parameter.ReadFrom.cut {p p' : Parameter} (h : p.ReadFrom us) (h' : p'.ReadFrom us')
    (hbare : p.bare = p'.bare) (hts : us ++ vs = us' ++ vs') : p = p' ∧ us = us' := by
  obtain ⟨x, ascription, sp⟩ := p
  obtain ⟨x', ascription', sp'⟩ := p'
  obtain ⟨⟨t, ws, rfl, -, hw⟩, rfl⟩ := h
  obtain ⟨⟨t', ws', rfl, -, hw'⟩, rfl⟩ := h'
  obtain ⟨rfl, heq, -⟩ := Parameter.mk.inj hbare
  obtain ⟨rfl, htail⟩ := List.cons.inj hts
  obtain ⟨rfl, rfl⟩ := hw.cut (fun h h' _ => h.cut h') hw' heq htail
  exact ⟨rfl, rfl⟩

theorem Expr.ReadFrom.cut_mark {t t' : Token} {mark : Char} {e e' : Expr}
    (ht : t.content = .delimiter mark) (ht' : t'.content = .delimiter mark) (hopen : mark ≠ '(')
    (hclose : mark ≠ ')') (h : e.ReadFrom us) (h' : e'.ReadFrom us') (hbare : e.bare = e'.bare)
    (hts : us ++ t :: vs = us' ++ t' :: vs') : e = e' ∧ us = us' := by
  obtain ⟨rfl, -⟩ := h.cut h' hbare (Token.solid_of_mark ht hopen hclose)
    (Token.solid_of_mark ht' hopen hclose) hts
  exact ⟨h.unique h' hbare, rfl⟩

theorem Expr.ReadFrom.cut_close {t t' : Token} {e e' : Expr} (ht : t.content = .delimiter ';')
    (ht' : t'.content = .delimiter ';') (h : e.ReadFrom us) (h' : e'.ReadFrom us')
    (hbare : e.bare = e'.bare) (hts : us ++ t :: vs = us' ++ t' :: vs') : e = e' ∧ us = us' :=
  cut_mark ht ht' (by decide) (by decide) h h' hbare hts

end

namespace Stmt

theorem BracedFrom.opens {b : Block} {ts : List Token} (h : BracedFrom b ts) :
    ∃ l us, ts = l :: us ∧ l.content = .delimiter '\x7b' := by
  cases h with
  | mk hl _ _ hts => exact ⟨_, _, hts, hl⟩

theorem BracedFrom.cut_condition {c c' : Expr} {b b' : Block} {us us' ws ws' vs vs' : List Token}
    (hb : BracedFrom b ws) (hb' : BracedFrom b' ws') (h : c.ReadFrom us) (h' : c'.ReadFrom us')
    (hbare : c.bare = c'.bare) (hts : us ++ (ws ++ vs) = us' ++ (ws' ++ vs')) : c = c' ∧ us = us' := by
  obtain ⟨l, xs, rfl, hl⟩ := hb.opens
  obtain ⟨l', xs', rfl, hl'⟩ := hb'.opens
  exact Expr.ReadFrom.cut_mark hl hl' (by decide) (by decide) h h' hbare hts

mutual

theorem ReadFrom.cut {s s' : Stmt} {us us' vs vs' : List Token} (h : s.ReadFrom us)
    (h' : s'.ReadFrom us') (hbare : s.bare = s'.bare) (hts : us ++ vs = us' ++ vs') :
    s = s' ∧ us = us' := by
  match h with
  | .function hfirst hname hl hps hr hresult hbody hus =>
    cases h' with
    | function hfirst' hname' hl' hps' hr' hresult' hbody' hus' =>
      subst hus hus'
      obtain ⟨rfl, hpseq, hresulteq, hbodyeq, -⟩ := Stmt.function.inj hbare
      simp only [List.cons_append, List.append_assoc, List.cons.injEq] at hts
      obtain ⟨rfl, rfl, rfl, hts⟩ := hts
      obtain ⟨rfl, rfl⟩ := hps.cut Parameter.ReadFrom.cut hps' hpseq hts
      obtain ⟨rfl, htail⟩ := List.cons.inj (List.append_cancel_left hts)
      obtain ⟨rfl, rfl⟩ := hresult.cut (fun h h' _ => h.cut h') hresult' hresulteq htail
      obtain ⟨rfl, rfl⟩ := hbody.cut hbody' hbodyeq (List.append_cancel_left htail)
      exact ⟨rfl, rfl⟩
    | _ => cases hbare
  | .binding hfirst hname htype hinitial hclose hus =>
    cases h' with
    | binding hfirst' hname' htype' hinitial' hclose' hus' =>
      subst hus hus'
      obtain ⟨rfl, rfl, htypeeq, hinitialeq, -⟩ := Stmt.binding.inj hbare
      simp only [List.cons_append, List.append_assoc, List.cons.injEq, List.nil_append] at hts
      obtain ⟨rfl, rfl, hts⟩ := hts
      obtain ⟨rfl, rfl⟩ := htype.cut (fun h h' _ => h.cut h') htype' htypeeq hts
      have hts := List.append_cancel_left hts
      obtain ⟨rfl, rfl⟩ := hinitial.cut (Expr.ReadFrom.cut_close hclose hclose') hinitial'
        hinitialeq hts
      obtain ⟨rfl, -⟩ := List.cons.inj (List.append_cancel_left hts)
      exact ⟨rfl, rfl⟩
    | _ => cases hbare
  | .expression he hclose hus =>
    cases h' with
    | expression he' hclose' hus' =>
      subst hus hus'
      obtain ⟨heq, -⟩ := Stmt.expression.inj hbare
      rw [List.append_assoc, List.append_assoc] at hts
      obtain ⟨rfl, rfl⟩ := Expr.ReadFrom.cut_close hclose hclose' he he' heq hts
      obtain ⟨rfl, -⟩ := List.cons.inj (List.append_cancel_left hts)
      exact ⟨rfl, rfl⟩
    | _ => cases hbare
  | .ifThen hfirst hc hyes hus =>
    cases h' with
    | ifThen hfirst' hc' hyes' hus' =>
      subst hus hus'
      obtain ⟨hceq, hyeseq, -⟩ := Stmt.ifThen.inj hbare
      simp only [List.cons_append, List.append_assoc, List.cons.injEq] at hts
      obtain ⟨rfl, hts⟩ := hts
      obtain ⟨rfl, rfl⟩ := hyes.cut_condition hyes' hc hc' hceq hts
      obtain ⟨rfl, rfl⟩ := hyes.cut hyes' hyeseq (List.append_cancel_left hts)
      exact ⟨rfl, rfl⟩
    | _ => cases hbare
  | .ifElse hfirst hc hyes hother hno hus =>
    cases h' with
    | ifElse hfirst' hc' hyes' hother' hno' hus' =>
      subst hus hus'
      obtain ⟨hceq, hyeseq, hnoeq, -⟩ := Stmt.ifElse.inj hbare
      simp only [List.cons_append, List.append_assoc, List.cons.injEq] at hts
      obtain ⟨rfl, hts⟩ := hts
      obtain ⟨rfl, rfl⟩ := hyes.cut_condition hyes' hc hc' hceq hts
      have hts := List.append_cancel_left hts
      obtain ⟨rfl, rfl⟩ := hyes.cut hyes' hyeseq hts
      obtain ⟨rfl, htail⟩ := List.cons.inj (List.append_cancel_left hts)
      obtain ⟨rfl, rfl⟩ := hno.cut hno' hnoeq htail
      exact ⟨rfl, rfl⟩
    | _ => cases hbare
  | .while_ hfirst hc hbody hus =>
    cases h' with
    | while_ hfirst' hc' hbody' hus' =>
      subst hus hus'
      obtain ⟨hceq, hbodyeq, -⟩ := Stmt.while_.inj hbare
      simp only [List.cons_append, List.append_assoc, List.cons.injEq] at hts
      obtain ⟨rfl, hts⟩ := hts
      obtain ⟨rfl, rfl⟩ := hbody.cut_condition hbody' hc hc' hceq hts
      obtain ⟨rfl, rfl⟩ := hbody.cut hbody' hbodyeq (List.append_cancel_left hts)
      exact ⟨rfl, rfl⟩
    | _ => cases hbare
  | .return_ hfirst hvalue hclose hus =>
    cases h' with
    | return_ hfirst' hvalue' hclose' hus' =>
      subst hus hus'
      obtain ⟨hvalueeq, -⟩ := Stmt.return_.inj hbare
      simp only [List.cons_append, List.append_assoc, List.cons.injEq] at hts
      obtain ⟨rfl, hts⟩ := hts
      obtain ⟨rfl, rfl⟩ := hvalue.cut (Expr.ReadFrom.cut_close hclose hclose') hvalue' hvalueeq hts
      obtain ⟨rfl, -⟩ := List.cons.inj (List.append_cancel_left hts)
      exact ⟨rfl, rfl⟩
    | _ => cases hbare
termination_by structural h

theorem BracedFrom.cut {b b' : Block} {us us' vs vs' : List Token} (h : BracedFrom b us)
    (h' : BracedFrom b' us') (hbare : b.bare = b'.bare) (hts : us ++ vs = us' ++ vs') :
    b = b' ∧ us = us' := by
  match h with
  | .mk hl hss hr hus =>
    cases h' with
    | mk hl' hss' hr' hus' =>
      subst hus hus'
      obtain ⟨hsseq, -⟩ := Block.mk.inj hbare
      simp only [List.cons_append, List.append_assoc, List.cons.injEq] at hts
      obtain ⟨rfl, hts⟩ := hts
      obtain ⟨rfl, rfl⟩ := hss.cut hss' hsseq hts
      obtain ⟨rfl, -⟩ := List.cons.inj (List.append_cancel_left hts)
      exact ⟨rfl, rfl⟩
termination_by structural h

theorem BranchFrom.cut {b b' : Block} {us us' vs vs' : List Token} (h : BranchFrom b us)
    (h' : BranchFrom b' us') (hbare : b.bare = b'.bare) (hts : us ++ vs = us' ++ vs') :
    b = b' ∧ us = us' := by
  match h with
  | .block hb =>
    cases h' with
    | block hb' => exact hb.cut hb' hbare hts
    | conditional hfirst' _ =>
      -- the first token is no brace
      obtain ⟨l, xs, rfl, hl⟩ := hb.opens
      rw [(List.cons.inj hts).1, hfirst'] at hl
      cases hl
  | .conditional hfirst hs =>
    cases h' with
    | block hb' =>
      obtain ⟨l, xs, rfl, hl⟩ := hb'.opens
      rw [← (List.cons.inj hts).1, hfirst] at hl
      cases hl
    | conditional _ hs' =>
      obtain ⟨heq, -⟩ := Block.mk.inj hbare
      obtain ⟨rfl, hus⟩ := hs.cut hs' (List.cons.inj heq).1 hts
      exact ⟨rfl, hus⟩
termination_by structural h

theorem AllReadFrom.cut {ss ss' : List Stmt} {us us' vs vs' : List Token} (h : AllReadFrom ss us)
    (h' : AllReadFrom ss' us') (hbare : bareList ss = bareList ss') (hts : us ++ vs = us' ++ vs') :
    ss = ss' ∧ us = us' := by
  match h with
  | .nil =>
    cases h' with
    | nil => exact ⟨rfl, rfl⟩
    | cons _ _ => cases hbare
  | .cons hs hss =>
    cases h' with
    | nil => cases hbare
    | cons hs' hss' =>
      obtain ⟨heq, hrest⟩ := List.cons.inj hbare
      rw [List.append_assoc, List.append_assoc] at hts
      obtain ⟨rfl, rfl⟩ := hs.cut hs' heq hts
      obtain ⟨rfl, rfl⟩ := hss.cut hss' hrest (List.append_cancel_left hts)
      exact ⟨rfl, rfl⟩
termination_by structural h

end

theorem AllReadFrom.unique {ss ss' : List Stmt} {ts : List Token} (h : AllReadFrom ss ts)
    (h' : AllReadFrom ss' ts) (hbare : bareList ss = bareList ss') : ss = ss' :=
  (h.cut h' hbare (rfl : ts ++ [] = ts ++ [])).1

end Stmt
end Dvilipi
