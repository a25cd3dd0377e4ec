import Dvilipi.Proofs.Tree.Determined
import Dvilipi.Proofs.Tree.Pieces

/-!
Spans of trees that are read from tokens in order. A piece begins and ends with tokens that it is read
from, so its span lies between the first and the last of them; its children are read from tokens that
follow one another, so their spans do as well.
-/

namespace Dvilipi
set_option autoImplicit false

def Span.Inside (a b : Span) : Prop := b.start ≤ a.start ∧ a.stop ≤ b.stop

theorem Span.Inside.trans {a b c : Span} (h : a.Inside b) (h' : b.Inside c) : a.Inside c :=
  ⟨Nat.le_trans h'.1 h.1, Nat.le_trans h.2 h'.2⟩

theorem Span.to_inside {a b c : Span} (hlt : a.start < a.stop) (ha : a.Inside c) (hb : b.Inside c) :
    (a.«to» b).start < (a.«to» b).stop ∧ (a.«to» b).Inside c :=
  ⟨Nat.lt_of_lt_of_le hlt (le_to_stop a b), ha.1, Nat.max_le.mpr ⟨hb.2, ha.2⟩⟩

namespace Token

/-- No token is empty, and each stands behind those before it. -/
structure InOrder (ts : List Token) : Prop where
  nonempty : ∀ t ∈ ts, t.span.start < t.span.stop
  ordered : ts.Pairwise fun t u => t.span.stop ≤ u.span.start

variable {t : Token} {ts us vs : List Token}

theorem InOrder.sublist (h : InOrder ts) (hs : us.Sublist ts) : InOrder us :=
  ⟨fun t ht => h.nonempty t (hs.subset ht), h.ordered.sublist hs⟩

theorem InOrder.left (h : InOrder (us ++ vs)) : InOrder us :=
  h.sublist (List.sublist_append_left _ _)

theorem InOrder.right (h : InOrder (us ++ vs)) : InOrder vs :=
  h.sublist (List.sublist_append_right _ _)

theorem InOrder.tail (h : InOrder (t :: ts)) : InOrder ts := h.sublist (List.sublist_cons_self _ _)

theorem stopAfter_append (n : Nat) (us vs : List Token) :
    stopAfter n (us ++ vs) = stopAfter (stopAfter n us) vs := by
  induction us generalizing n with
  | nil => rfl
  | cons t us ih => exact ih t.span.stop

theorem exists_stopAfter (n : Nat) (hts : ts ≠ []) : ∃ t ∈ ts, stopAfter n ts = t.span.stop := by
  obtain ⟨us, t, rfl⟩ := List.eq_nil_or_concat ts |>.resolve_left hts
  exact ⟨t, by simp, by rw [List.concat_eq_append, stopAfter_append]; rfl⟩

theorem exists_extent (hts : ts ≠ []) :
    ∃ t ∈ ts, ∃ u ∈ ts, extent ts = ⟨t.span.start, u.span.stop⟩ := by
  obtain ⟨t, us, rfl⟩ := List.exists_cons_of_ne_nil hts
  obtain ⟨u, hu, hstop⟩ := exists_stopAfter 0 hts
  exact ⟨t, List.mem_cons_self, u, hu, congrArg (Span.mk t.span.start) hstop⟩

theorem InOrder.mem_inside (h : InOrder ts) (ht : t ∈ ts) : t.span.Inside (extent ts) := by
  induction ts with
  | nil => cases ht
  | cons first rest ih =>
    have hrest := List.pairwise_cons.mp h.ordered
    rcases List.mem_cons.mp ht with rfl | ht
    · refine ⟨Nat.le_refl _, ?_⟩
      by_cases hnil : rest = []
      · rw [hnil]
        exact Nat.le_refl _
      · obtain ⟨u, hu, hstop⟩ := exists_stopAfter t.span.stop hnil
        have hlt := h.nonempty u (List.mem_cons_of_mem _ hu)
        have hle := hrest.1 u hu
        rw [extent, hstop]
        dsimp only
        omega
    · have hinside := ih h.tail ht
      obtain ⟨second, others, rfl⟩ := List.exists_cons_of_ne_nil (List.ne_nil_of_mem ht)
      have hfirst := h.nonempty first List.mem_cons_self
      have hle := hrest.1 second List.mem_cons_self
      exact ⟨Nat.le_trans (Nat.le_trans (Nat.le_of_lt hfirst) hle) hinside.1, hinside.2⟩

theorem InOrder.single (h : InOrder [t]) :
    t.span.start < t.span.stop ∧ t.span.Inside (extent [t]) :=
  ⟨h.nonempty t List.mem_cons_self, h.mem_inside List.mem_cons_self⟩

theorem InOrder.extent_inside (h : InOrder ts) (hus : us ≠ []) (hsub : us ⊆ ts) :
    (extent us).Inside (extent ts) := by
  obtain ⟨t, ht, u, hu, heq⟩ := exists_extent hus
  rw [heq]
  exact ⟨(h.mem_inside (hsub ht)).1, (h.mem_inside (hsub hu)).2⟩

theorem InOrder.extent_nonempty (h : InOrder ts) (hts : ts ≠ []) :
    (extent ts).start < (extent ts).stop := by
  obtain ⟨t, ht⟩ := List.exists_mem_of_ne_nil ts hts
  have hlt := h.nonempty t ht
  have hinside := h.mem_inside ht
  exact Nat.lt_of_le_of_lt hinside.1 (Nat.lt_of_lt_of_le hlt hinside.2)

theorem InOrder.left_inside (h : InOrder (us ++ vs)) (hus : us ≠ []) :
    (extent us).Inside (extent (us ++ vs)) :=
  h.extent_inside hus (List.subset_append_left us vs)

theorem InOrder.right_inside (h : InOrder (us ++ t :: vs)) (hvs : vs ≠ []) :
    (extent vs).Inside (extent (us ++ t :: vs)) :=
  h.extent_inside hvs fun _ hu => List.mem_append_right us (List.mem_cons_of_mem t hu)

theorem InOrder.tail_inside (h : InOrder (t :: ts)) (hts : ts ≠ []) :
    (extent ts).Inside (extent (t :: ts)) :=
  h.extent_inside hts (List.subset_cons_self t ts)

theorem InOrder.extent_le (h : InOrder (us ++ vs)) (hus : us ≠ []) (hvs : vs ≠ []) :
    (extent us).stop ≤ (extent vs).start := by
  obtain ⟨_, _, u, hu, hequs⟩ := exists_extent hus
  obtain ⟨v, hv, _, _, heqvs⟩ := exists_extent hvs
  rw [hequs, heqvs]
  exact (List.pairwise_append.mp h.ordered).2.2 u hu v hv

end Token

open Token (InOrder)

theorem Stmt.ReadFrom.span_eq {s : Stmt} {ts : List Token} (h : s.ReadFrom ts) :
    s.span = Token.extent ts := by
  cases h <;> rfl

theorem Stmt.BranchFrom.span_eq {b : Block} {ts : List Token} (h : BranchFrom b ts) :
    b.span = Token.extent ts := by
  cases h with
  | block h => exact h.span_eq
  | conditional _ h => exact h.span_eq

theorem Stmt.BranchFrom.ne_nil {b : Block} {ts : List Token} (h : BranchFrom b ts) : ts ≠ [] := by
  cases h with
  | block h => exact h.ne_nil
  | conditional _ h => exact h.ne_nil

theorem Token.extent_call (t l r : Token) (us : List Token) :
    extent (t :: l :: (us ++ [r])) = ⟨t.span.start, r.span.stop⟩ := by
  rw [extent, stopAfter, stopAfter_append]
  rfl

namespace Expr

theorem AllReadFrom.ne_nil {e : Expr} {es : List Expr} {ts : List Token}
    (h : AllReadFrom (e :: es) ts) : ts ≠ [] := by
  cases h with
  | single he => exact he.ne_nil
  | cons he _ _ => exact List.append_ne_nil_of_left_ne_nil he.ne_nil _

mutual

theorem ReadFrom.span_inside {e : Expr} {ts : List Token} (h : e.ReadFrom ts) (hts : InOrder ts) :
    e.span.start < e.span.stop ∧ e.span.Inside (Token.extent ts) := by
  match h with
  | .number _ => exact hts.single
  | .string _ => exact hts.single
  | .reference _ => exact hts.single
  | @Expr.ReadFrom.call t l r _ _ us _ _ _ _ =>
    have hextent := Token.extent_call t l r us
    rw [Expr.span, ← hextent]
    exact ⟨hts.extent_nonempty (List.cons_ne_nil _ _), Nat.le_refl _, Nat.le_refl _⟩
  | .group _ he _ =>
    obtain ⟨hlt, hinside⟩ := he.span_inside hts.tail.left
    refine ⟨hlt, hinside.trans (hts.extent_inside he.ne_nil fun u hu => ?_)⟩
    exact List.mem_cons_of_mem _ (List.mem_append_left _ hu)
  | .unary _ he =>
    obtain ⟨hlt, hinside⟩ := he.span_inside hts.tail
    have hinside := hinside.trans (hts.tail_inside he.ne_nil)
    exact ⟨Nat.lt_of_le_of_lt hinside.1 hlt, Nat.le_refl _, hinside.2⟩
  | .joined ha _ hb =>
    obtain ⟨hlt, ha'⟩ := ha.span_inside hts.left
    obtain ⟨-, hb'⟩ := hb.span_inside hts.right.tail
    rw [ofInfix_span]
    exact Span.to_inside hlt (ha'.trans (hts.left_inside ha.ne_nil))
      (hb'.trans (hts.right_inside hb.ne_nil))
  | .assign hx _ he =>
    obtain ⟨hlt, hx'⟩ := hx.span_inside hts.left
    obtain ⟨-, he'⟩ := he.span_inside hts.right.tail
    exact Span.to_inside hlt (hx'.trans (hts.left_inside hx.ne_nil))
      (he'.trans (hts.right_inside he.ne_nil))
termination_by structural h

theorem AllReadFrom.span_inside {es : List Expr} {ts : List Token} (h : AllReadFrom es ts)
    (hts : InOrder ts) : ∀ e ∈ es, e.span.Inside (Token.extent ts) := by
  match h with
  | .nil => nofun
  | .single he => exact List.forall_mem_singleton.mpr (he.span_inside hts).2
  | .cons he _ hes =>
    refine List.forall_mem_cons.mpr ⟨?_, fun a ha => ?_⟩
    · exact (he.span_inside hts.left).2.trans (hts.left_inside he.ne_nil)
    · exact (hes.span_inside hts.right.tail a ha).trans (hts.right_inside hes.ne_nil)
termination_by structural h

end

theorem ReadFrom.starts_before {a b : Expr} {t : Token} {us vs : List Token} (ha : a.ReadFrom us)
    (hb : b.ReadFrom vs) (hts : InOrder (us ++ t :: vs)) : a.span.start < b.span.start := by
  obtain ⟨hlt, ha'⟩ := ha.span_inside hts.left
  have hb' := (hb.span_inside hts.right.tail).2
  have hsublist : (us ++ vs).Sublist (us ++ t :: vs) := (List.sublist_cons_self t vs).append_left us
  have hle := (hts.sublist hsublist).extent_le ha.ne_nil hb.ne_nil
  exact Nat.lt_of_lt_of_le hlt (Nat.le_trans ha'.2 (Nat.le_trans hle hb'.1))

theorem ReadFrom.atom {e : Expr} {ts : List Token} (h : e.ReadFrom ts) :
    ∀ c, e.atom? = some c → ∃ t ∈ ts, t.content = c ∧ e.span = t.span := by
  match h with
  | .number ht =>
    exact fun c hc => ⟨_, List.mem_singleton_self _, ht.trans (Option.some.inj hc), rfl⟩
  | .string ht =>
    exact fun c hc => ⟨_, List.mem_singleton_self _, ht.trans (Option.some.inj hc), rfl⟩
  | .reference ht =>
    exact fun c hc => ⟨_, List.mem_singleton_self _, ht.trans (Option.some.inj hc), rfl⟩
  | .group _ he _ =>
    intro c hc
    obtain ⟨t, ht, hsays⟩ := he.atom c hc
    exact ⟨t, List.mem_cons_of_mem _ (List.mem_append_left _ ht), hsays⟩
  | @Expr.ReadFrom.joined _ op _ _ _ _ _ _ _ => cases op <;> nofun
  | .unary _ _ => nofun
  | .call _ _ _ _ => nofun
  | .assign _ _ _ => nofun
termination_by structural h

end Expr

namespace Piece

variable {x : Piece} {ts us vs : List Token}

theorem ReadFrom.ne_nil (h : x.ReadFrom ts) : ts ≠ [] := by
  cases x with
  | expr e => exact Expr.ReadFrom.ne_nil h
  | type t =>
    obtain ⟨t, rfl, -⟩ := h
    exact List.cons_ne_nil _ _
  | result t =>
    obtain ⟨t, rfl, -⟩ := h
    exact List.cons_ne_nil _ _
  | parameter p =>
    obtain ⟨⟨t, us, rfl, -⟩, -⟩ := h
    exact List.cons_ne_nil _ _
  | statement s => exact Stmt.ReadFrom.ne_nil h
  | block b => exact Stmt.BranchFrom.ne_nil h

/-- A piece that is no expression reaches from its first token to its last. Parentheses around an
expression do not belong to its span. -/
theorem ReadFrom.span_eq (h : x.ReadFrom ts) (hx : ∀ e, x ≠ expr e) : x.span = Token.extent ts := by
  cases x with
  | expr e => exact absurd rfl (hx e)
  | type t =>
    obtain ⟨t, rfl, rfl, -⟩ := h
    rfl
  | result t =>
    obtain ⟨t, rfl, rfl, -⟩ := h
    rfl
  | parameter p => exact h.span
  | statement s => exact Stmt.ReadFrom.span_eq h
  | block b => exact Stmt.BranchFrom.span_eq h

theorem ReadFrom.span_inside (h : x.ReadFrom ts) (hts : InOrder ts) :
    x.span.start < x.span.stop ∧ x.span.Inside (Token.extent ts) := by
  by_cases hx : ∀ e, x ≠ expr e
  · rw [h.span_eq hx]
    exact ⟨hts.extent_nonempty h.ne_nil, Nat.le_refl _, Nat.le_refl _⟩
  · obtain ⟨e, rfl⟩ : ∃ e, x = expr e := by simpa using hx
    exact Expr.ReadFrom.span_inside h hts

theorem ReadFrom.span_le {y : Piece} (hx : x.ReadFrom us) (hy : y.ReadFrom vs)
    (h : InOrder (us ++ vs)) : x.span.stop ≤ y.span.start :=
  Nat.le_trans (hx.span_inside h.left).2.2
    (Nat.le_trans (h.extent_le hx.ne_nil hy.ne_nil) (hy.span_inside h.right).2.1)

/-- The pieces are read one after the other, from tokens between which others may stand. -/
inductive Along : List Piece → List Token → Prop where
  | nil {ts : List Token} : Along [] ts
  | cons {x : Piece} {xs : List Piece} {us vs : List Token} (gap : List Token)
      (hx : x.ReadFrom us) (hxs : Along xs vs) : Along (x :: xs) (gap ++ (us ++ vs))

namespace Along

variable {xs ys : List Piece} {t : Token}

theorem single (h : x.ReadFrom ts) : Along [x] ts :=
  List.append_nil ts ▸ .cons [] h (@nil [])

theorem after (h : Along xs ts) (us : List Token) : Along xs (us ++ ts) := by
  cases h with
  | nil => exact .nil
  | cons gap hx hxs =>
    rw [← List.append_assoc]
    exact .cons (us ++ gap) hx hxs

theorem behind (h : Along xs ts) (t : Token) : Along xs (t :: ts) := h.after [t]

theorem append (h : Along xs us) (h' : Along ys vs) : Along (xs ++ ys) (us ++ vs) := by
  induction h with
  | nil => exact h'.after _
  | cons gap hx _ ih =>
    rw [List.append_assoc, List.append_assoc]
    exact .cons gap hx ih

theorem before (h : Along xs us) (vs : List Token) : Along xs (us ++ vs) :=
  List.append_nil xs ▸ h.append .nil

theorem infix_of_mem (h : Along xs ts) (hx : x ∈ xs) : ∃ us, us <:+: ts ∧ x.ReadFrom us := by
  induction h with
  | nil => cases hx
  | @cons y ys us vs gap hy _ ih =>
    rcases List.mem_cons.mp hx with rfl | hx
    · exact ⟨us, ⟨gap, vs, by rw [List.append_assoc]⟩, hy⟩
    · obtain ⟨ws, hws, hread⟩ := ih hx
      exact ⟨ws, hws.trans ⟨gap ++ us, [], by simp⟩, hread⟩

theorem ordered (h : Along xs ts) (hts : InOrder ts) :
    xs.Pairwise fun x y => x.span.stop ≤ y.span.start := by
  induction h with
  | nil => exact .nil
  | @cons x xs us vs gap hx hxs ih =>
    have hus := hts.right
    refine List.pairwise_cons.mpr ⟨fun y hy => ?_, ih hus.right⟩
    obtain ⟨ws, hws, hread⟩ := hxs.infix_of_mem hy
    exact hx.span_le hread (hus.sublist (hws.sublist.append_left us))

end Along

theorem along_optional {before : List Token.Content} {α : Type} {R : α → List Token → Prop}
    (piece : α → Piece) (hpiece : ∀ {a us}, R a us → (piece a).ReadFrom us) {o : Option α}
    (h : Announced before R o ts) : Along (o.toList.map piece) ts := by
  cases h with
  | none => exact .nil
  | some _ ha => exact (Along.single (hpiece ha)).after _

theorem along_separated {α : Type} {R : α → List Token → Prop} (piece : α → Piece)
    (hpiece : ∀ {a us}, R a us → (piece a).ReadFrom us) {as : List α} (h : Separated R as ts) :
    Along (as.map piece) ts := by
  induction h with
  | nil => exact .nil
  | single ha => exact .single (hpiece ha)
  | cons ha _ _ ih => exact .cons [] (hpiece ha) (ih.behind _)

theorem along_arguments {es : List Expr} {ts : List Token} (h : Expr.AllReadFrom es ts) :
    Along (es.map expr) ts := by
  match h with
  | .cons he _ hes => exact .cons (x := expr _) [] he ((along_arguments hes).behind _)
  | .single he => exact .single (x := expr _) he
  | .nil => exact .nil
termination_by structural h

theorem along_operands {e : Expr} {ts : List Token} (h : e.ReadFrom ts) :
    Along (e.operands.map expr) ts := by
  match h with
  | .group _ he _ => exact ((along_operands he).before _).behind _
  | .call _ _ hes _ => exact (((along_arguments hes).before _).behind _).behind _
  | .unary _ he => exact (Along.single (x := expr _) he).behind _
  | @Expr.ReadFrom.joined _ op _ _ _ _ ha _ hb =>
    cases op with
    | binary op => exact .cons (x := expr _) [] ha ((Along.single (x := expr _) hb).behind _)
    | logical op => exact .cons (x := expr _) [] ha ((Along.single (x := expr _) hb).behind _)
  | .assign _ _ he => exact ((Along.single (x := expr _) he).behind _).after _
  | .number _ => exact .nil
  | .string _ => exact .nil
  | .reference _ => exact .nil
termination_by structural h

theorem along_statements {ss : List Stmt} {ts : List Token} (h : Stmt.AllReadFrom ss ts) :
    Along (ss.map statement) ts := by
  match h with
  | .cons hs hss => exact .cons (x := statement _) [] hs (along_statements hss)
  | .nil => exact .nil
termination_by structural h

theorem along_statement {s : Stmt} (h : s.ReadFrom ts) : Along (statement s).children ts := by
  cases h with
  | function _ _ _ hps _ hresult hbody hts =>
    subst hts
    have hparameters := along_separated parameter id hps
    have htype := along_optional result id hresult
    have hblock := Along.single (x := block _) (.block hbody)
    exact (((hparameters.append ((htype.append hblock).behind _)).behind _).behind _).behind _
  | binding _ _ htype hinitial _ hts =>
    subst hts
    have hinitial := along_optional expr id hinitial
    have htype := along_optional type id htype
    exact ((htype.append (hinitial.before _)).behind _).behind _
  | expression he _ hts =>
    subst hts
    exact (Along.single (x := expr _) he).before _
  | ifThen _ hc hyes hts =>
    subst hts
    exact .cons [_] hc (.single (x := block _) (.block hyes))
  | ifElse _ hc hyes _ hno hts =>
    subst hts
    have hno := Along.single (x := block _) hno
    exact .cons [_] hc (.cons (x := block _) [] (.block hyes) (hno.behind _))
  | while_ _ hc hbody hts =>
    subst hts
    exact .cons [_] hc (.single (x := block _) (.block hbody))
  | return_ _ hvalue _ hts =>
    subst hts
    exact ((along_optional expr id hvalue).before _).behind _

/-- The children of a piece are read from its tokens, in their order. -/
theorem ReadFrom.along (h : x.ReadFrom ts) : Along x.children ts := by
  cases x with
  | expr e => exact along_operands h
  | type t => exact .nil
  | result t => exact .nil
  | parameter p =>
    obtain ⟨⟨t, us, rfl, -, hascription⟩, -⟩ := h
    exact (along_optional type id hascription).behind t
  | statement s => exact along_statement h
  | block b =>
    cases h with
    | block h =>
      cases h with
      | mk _ hss _ hts =>
        subst hts
        exact ((along_statements hss).before _).behind _
    | conditional _ h => exact .single (x := statement _) h

theorem operands_inside {e : Expr} {ts : List Token} (h : e.ReadFrom ts) (hts : InOrder ts) :
    ∀ a ∈ e.operands, a.span.Inside e.span := by
  match h with
  | .number _ => nofun
  | .string _ => nofun
  | .reference _ => nofun
  | .group _ he _ => exact operands_inside he hts.tail.left
  | @Expr.ReadFrom.call t l r _ _ us _ _ hes _ =>
    intro a ha
    obtain ⟨e, es, rfl⟩ := List.exists_cons_of_ne_nil (List.ne_nil_of_mem ha)
    have hinside := hes.span_inside hts.tail.tail.left a ha
    have hextent := hts.extent_inside hes.ne_nil fun u hu =>
      List.mem_cons_of_mem _ (List.mem_cons_of_mem _ (List.mem_append_left _ hu))
    rw [Token.extent_call] at hextent
    exact hinside.trans hextent
  | .unary _ he =>
    have hinside := (he.span_inside hts.tail).2.trans (hts.tail_inside he.ne_nil)
    exact List.forall_mem_singleton.mpr ⟨hinside.1, Nat.le_refl _⟩
  | @Expr.ReadFrom.joined _ op a b _ _ ha _ hb =>
    have hoperands : (Expr.ofInfix op a b).operands = [a, b] := by cases op <;> rfl
    have hle := Nat.le_of_lt (ha.starts_before hb hts)
    rw [Expr.ofInfix_span, hoperands]
    exact List.forall_mem_cons.mpr ⟨⟨Nat.le_refl _, Span.le_to_stop _ _⟩,
      List.forall_mem_singleton.mpr ⟨hle, Nat.le_max_left _ _⟩⟩
  | .assign hx _ he =>
    have hle := Nat.le_of_lt (hx.starts_before he hts)
    exact List.forall_mem_singleton.mpr ⟨hle, Nat.le_max_left _ _⟩
termination_by structural h

theorem ReadFrom.children_inside (h : x.ReadFrom ts) (hts : InOrder ts) :
    ∀ y ∈ x.children, y.span.Inside x.span := by
  by_cases hx : ∀ e, x ≠ expr e
  · intro y hy
    obtain ⟨us, hus, hread⟩ := h.along.infix_of_mem hy
    rw [h.span_eq hx]
    exact (hread.span_inside (hts.sublist hus.sublist)).2.trans
      (hts.extent_inside hread.ne_nil hus.subset)
  · obtain ⟨e, rfl⟩ : ∃ e, x = expr e := by simpa using hx
    exact List.forall_mem_map.mpr (operands_inside h hts)

end Piece
end Dvilipi
