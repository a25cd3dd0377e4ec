import Dvilipi.Proofs.Token.Shift
import Dvilipi.Proofs.Tree.Bare
import Dvilipi.Proofs.Tree.ReadFrom

/-!
The same tree further on: every span in it is displaced by the same number of characters. A tree that is
read from some tokens is displaced with them.
-/

namespace Dvilipi
set_option autoImplicit false

theorem Token.extent_shift {n lines : Nat} {ts : List Token} (h : ts ≠ []) :
    extent (ts.map (shift n lines)) = (extent ts).shift n := by
  cases ts with
  | nil => exact absurd rfl h
  | cons t ts => exact congrArg (Span.mk (t.span.start + n)) (stopAfter_shift t.span.stop ts)

mutual

def Expr.shift (n : Nat) : Expr → Expr
  | .number x sp => .number x (sp.shift n)
  | .string t sp => .string t (sp.shift n)
  | .reference x sp => .reference x (sp.shift n)
  | .assign x e sp => .assign x (e.shift n) (sp.shift n)
  | .binary op a b sp => .binary op (a.shift n) (b.shift n) (sp.shift n)
  | .logical op a b sp => .logical op (a.shift n) (b.shift n) (sp.shift n)
  | .unary op e sp => .unary op (e.shift n) (sp.shift n)
  | .call f es sp => .call f (Expr.shiftList n es) (sp.shift n)

def Expr.shiftList (n : Nat) : List Expr → List Expr
  | [] => []
  | e :: es => e.shift n :: Expr.shiftList n es

end

def TypeName.shift (n : Nat) (t : TypeName) : TypeName := ⟨t.name, t.span.shift n⟩

def Parameter.shift (n : Nat) (p : Parameter) : Parameter :=
  ⟨p.name, p.ascription.map (TypeName.shift n), p.span.shift n⟩

mutual

def Stmt.shift (n : Nat) : Stmt → Stmt
  | .function f ps r body sp =>
    .function f (ps.map (Parameter.shift n)) (r.map (TypeName.shift n)) (body.shift n) (sp.shift n)
  | .binding x constant t e sp =>
    .binding x constant (t.map (TypeName.shift n)) (e.map (Expr.shift n)) (sp.shift n)
  | .expression e sp => .expression (e.shift n) (sp.shift n)
  | .ifThen c yes sp => .ifThen (c.shift n) (yes.shift n) (sp.shift n)
  | .ifElse c yes no sp => .ifElse (c.shift n) (yes.shift n) (no.shift n) (sp.shift n)
  | .while_ c body sp => .while_ (c.shift n) (body.shift n) (sp.shift n)
  | .return_ e sp => .return_ (e.map (Expr.shift n)) (sp.shift n)

def Block.shift (n : Nat) : Block → Block
  | .mk statements sp => .mk (Stmt.shiftList n statements) (sp.shift n)

def Stmt.shiftList (n : Nat) : List Stmt → List Stmt
  | [] => []
  | s :: ss => s.shift n :: Stmt.shiftList n ss

end

theorem Stmt.shiftList_eq_map (n : Nat) (ss : List Stmt) :
    Stmt.shiftList n ss = ss.map (Stmt.shift n) := by
  induction ss with
  | nil => rfl
  | cons s ss ih => rw [Stmt.shiftList, ih, List.map_cons]

section

variable {n : Nat}

theorem Expr.span_shift (e : Expr) : (e.shift n).span = e.span.shift n := by
  cases e <;> rfl

theorem Stmt.span_shift (s : Stmt) : (s.shift n).span = s.span.shift n := by
  cases s <;> rfl

theorem Expr.shift_ofInfix (op : Infix) (a b : Expr) :
    (ofInfix op a b).shift n = ofInfix op (a.shift n) (b.shift n) := by
  cases op <;> simp only [ofInfix, Expr.shift, Span.shift_to, span_shift]

mutual

theorem Expr.bare_shift (e : Expr) : (e.shift n).bare = e.bare := by
  cases e with
  | number x sp => rfl
  | string t sp => rfl
  | reference x sp => rfl
  | assign x e sp => simp only [Expr.shift, Expr.bare, e.bare_shift]
  | binary op a b sp => simp only [Expr.shift, Expr.bare, a.bare_shift, b.bare_shift]
  | logical op a b sp => simp only [Expr.shift, Expr.bare, a.bare_shift, b.bare_shift]
  | unary op e sp => simp only [Expr.shift, Expr.bare, e.bare_shift]
  | call f es sp => simp only [Expr.shift, Expr.bare, Expr.bareList_shiftList es]
termination_by structural e

theorem Expr.bareList_shiftList (es : List Expr) :
    Expr.bareList (Expr.shiftList n es) = Expr.bareList es := by
  cases es with
  | nil => rfl
  | cons e es =>
    simp only [Expr.shiftList, Expr.bareList, e.bare_shift, Expr.bareList_shiftList es]
termination_by structural es

end

theorem TypeName.bare_shift (t : Option TypeName) :
    (t.map (TypeName.shift n)).map TypeName.bare = t.map TypeName.bare := by
  cases t <;> rfl

theorem Parameter.bare_shift (p : Parameter) : (p.shift n).bare = p.bare :=
  congrArg (Parameter.mk p.name · .blank) (TypeName.bare_shift p.ascription)

theorem Expr.optional_bare_shift (e : Option Expr) :
    (e.map (Expr.shift n)).map Expr.bare = e.map Expr.bare := by
  cases e with
  | none => rfl
  | some e => exact congrArg some e.bare_shift

mutual

theorem Stmt.bare_shift (s : Stmt) : (s.shift n).bare = s.bare := by
  cases s with
  | function f ps r body sp =>
    have hps : (ps.map (Parameter.shift n)).map Parameter.bare = ps.map Parameter.bare := by
      rw [List.map_map]
      exact List.map_congr_left fun p _ => p.bare_shift
    simp only [Stmt.shift, Stmt.bare, hps, TypeName.bare_shift, body.bare_shift]
  | binding x constant t e sp =>
    simp only [Stmt.shift, Stmt.bare, TypeName.bare_shift, Expr.optional_bare_shift]
  | expression e sp => simp only [Stmt.shift, Stmt.bare, e.bare_shift]
  | ifThen c yes sp => simp only [Stmt.shift, Stmt.bare, c.bare_shift, yes.bare_shift]
  | ifElse c yes no sp =>
    simp only [Stmt.shift, Stmt.bare, c.bare_shift, yes.bare_shift, no.bare_shift]
  | while_ c body sp => simp only [Stmt.shift, Stmt.bare, c.bare_shift, body.bare_shift]
  | return_ e sp => simp only [Stmt.shift, Stmt.bare, Expr.optional_bare_shift]
termination_by structural s

theorem Block.bare_shift (b : Block) : (b.shift n).bare = b.bare := by
  cases b with
  | mk statements sp => simp only [Block.shift, Block.bare, Stmt.bareList_shiftList statements]
termination_by structural b

theorem Stmt.bareList_shiftList (ss : List Stmt) :
    Stmt.bareList (Stmt.shiftList n ss) = Stmt.bareList ss := by
  cases ss with
  | nil => rfl
  | cons s ss =>
    simp only [Stmt.shiftList, Stmt.bareList, s.bare_shift, Stmt.bareList_shiftList ss]
termination_by structural ss

end

end

section

variable {n lines : Nat} {ts : List Token}

theorem Separated.shift {α : Type} {R : α → List Token → Prop} {f : α → α} {as : List α}
    (hf : ∀ {a us}, R a us → R (f a) (us.map (Token.shift n lines))) (h : Separated R as ts) :
    Separated R (as.map f) (ts.map (Token.shift n lines)) := by
  induction h with
  | nil => exact .nil
  | single ha => exact .single (hf ha)
  | cons ha ht _ ih =>
    rw [List.map_append]
    exact .cons (hf ha) ht ih

theorem Announced.shift {α : Type} {before : List Token.Content} {R : α → List Token → Prop}
    {f : α → α} {a : Option α} (hf : ∀ {a us}, R a us → R (f a) (us.map (Token.shift n lines)))
    (h : Announced before R a ts) : Announced before R (a.map f) (ts.map (Token.shift n lines)) := by
  cases h with
  | none => exact .none
  | some hus ha =>
    rw [List.map_append]
    refine .some ?_ (hf ha)
    rw [List.map_map]
    exact hus

mutual

theorem Expr.ReadFrom.shift {e : Expr} {ts : List Token} (h : e.ReadFrom ts) :
    (e.shift n).ReadFrom (ts.map (Token.shift n lines)) := by
  match h with
  | .number ht => exact .number (Token.content_shift ht)
  | .string ht => exact .string (Token.content_shift ht)
  | .reference ht => exact .reference (Token.content_shift ht)
  | .call ht hl hes hr =>
    rw [List.map_cons, List.map_cons, List.map_append]
    exact .call (t := Token.shift n lines _) (r := Token.shift n lines _) ht hl hes.shift hr
  | .group hl he hr =>
    rw [List.map_cons, List.map_append]
    exact .group hl he.shift hr
  | .unary ht he =>
    have hread := ReadFrom.unary (t := Token.shift n lines _) ht he.shift
    rw [Expr.span_shift] at hread
    exact hread
  | .joined ha ht hb =>
    rw [List.map_append, Expr.shift_ofInfix]
    exact .joined ha.shift ht hb.shift
  | .assign hx ht he =>
    have hread := ReadFrom.assign (t := Token.shift n lines _) hx.shift ht he.shift
    rw [Expr.span_shift, ← Span.shift_to] at hread
    rw [List.map_append]
    exact hread
termination_by structural h

theorem Expr.AllReadFrom.shift {es : List Expr} {ts : List Token} (h : AllReadFrom es ts) :
    AllReadFrom (Expr.shiftList n es) (ts.map (Token.shift n lines)) := by
  match h with
  | .nil => exact .nil
  | .single he => exact .single he.shift
  | .cons he ht hes =>
    rw [List.map_append]
    exact .cons he.shift ht hes.shift
termination_by structural h

end

theorem TypeName.ReadFrom.shift {t : TypeName} (h : t.ReadFrom ts) :
    (t.shift n).ReadFrom (ts.map (Token.shift n lines)) := by
  obtain ⟨u, rfl, rfl, hu⟩ := h
  exact ⟨u.shift n lines, rfl, rfl, hu⟩

theorem Parameter.ReadFrom.shift {p : Parameter} (h : p.ReadFrom ts) :
    (p.shift n).ReadFrom (ts.map (Token.shift n lines)) := by
  obtain ⟨⟨t, us, rfl, ht, hus⟩, hspan⟩ := h
  refine ⟨⟨_, _, rfl, ht, hus.shift TypeName.ReadFrom.shift⟩, ?_⟩
  rw [Token.extent_shift (List.cons_ne_nil _ _), ← hspan]
  rfl

mutual

theorem Stmt.ReadFrom.shift {s : Stmt} {ts : List Token} (h : s.ReadFrom ts) :
    (s.shift n).ReadFrom (ts.map (Token.shift n lines)) := by
  have hextent : Token.extent (ts.map (Token.shift n lines)) = (Token.extent ts).shift n :=
    Token.extent_shift h.ne_nil
  match h with
  | .function hfirst hname hl hps hr hresult hbody hts =>
    have hts' := congrArg (List.map (Token.shift n lines)) hts
    simp only [List.map_cons, List.map_append] at hts'
    rw [Stmt.shift, ← hextent]
    exact .function (Token.content_shift hfirst) (Token.content_shift hname) (Token.content_shift hl)
      (hps.shift Parameter.ReadFrom.shift) (Token.content_shift hr)
      (hresult.shift TypeName.ReadFrom.shift) hbody.shift hts'
  | .binding hfirst hname htype hinitial hclose hts =>
    have hts' := congrArg (List.map (Token.shift n lines)) hts
    simp only [List.map_cons, List.map_append, List.map_nil] at hts'
    rw [Stmt.shift, ← hextent]
    exact .binding (Token.content_shift hfirst) (Token.content_shift hname)
      (htype.shift TypeName.ReadFrom.shift) (hinitial.shift Expr.ReadFrom.shift)
      (Token.content_shift hclose) hts'
  | .expression he hclose hts =>
    have hts' := congrArg (List.map (Token.shift n lines)) hts
    simp only [List.map_cons, List.map_append, List.map_nil] at hts'
    rw [Stmt.shift, ← hextent]
    exact .expression he.shift (Token.content_shift hclose) hts'
  | .ifThen hfirst hc hyes hts =>
    have hts' := congrArg (List.map (Token.shift n lines)) hts
    simp only [List.map_cons, List.map_append] at hts'
    rw [Stmt.shift, ← hextent]
    exact .ifThen (Token.content_shift hfirst) hc.shift hyes.shift hts'
  | .ifElse hfirst hc hyes hother hno hts =>
    have hts' := congrArg (List.map (Token.shift n lines)) hts
    simp only [List.map_cons, List.map_append] at hts'
    rw [Stmt.shift, ← hextent]
    exact .ifElse (Token.content_shift hfirst) hc.shift hyes.shift (Token.content_shift hother)
      hno.shift hts'
  | .while_ hfirst hc hbody hts =>
    have hts' := congrArg (List.map (Token.shift n lines)) hts
    simp only [List.map_cons, List.map_append] at hts'
    rw [Stmt.shift, ← hextent]
    exact .while_ (Token.content_shift hfirst) hc.shift hbody.shift hts'
  | .return_ hfirst hvalue hclose hts =>
    have hts' := congrArg (List.map (Token.shift n lines)) hts
    simp only [List.map_cons, List.map_append, List.map_nil] at hts'
    rw [Stmt.shift, ← hextent]
    exact .return_ (Token.content_shift hfirst) (hvalue.shift Expr.ReadFrom.shift)
      (Token.content_shift hclose) hts'
termination_by structural h

theorem Stmt.BracedFrom.shift {b : Block} {ts : List Token} (h : BracedFrom b ts) :
    BracedFrom (b.shift n) (ts.map (Token.shift n lines)) := by
  have hextent : Token.extent (ts.map (Token.shift n lines)) = (Token.extent ts).shift n :=
    Token.extent_shift h.ne_nil
  match h with
  | .mk hl hss hr hts =>
    have hts' := congrArg (List.map (Token.shift n lines)) hts
    simp only [List.map_cons, List.map_append, List.map_nil] at hts'
    rw [Block.shift, ← hextent]
    exact .mk (Token.content_shift hl) hss.shift (Token.content_shift hr) hts'
termination_by structural h

theorem Stmt.BranchFrom.shift {b : Block} {ts : List Token} (h : BranchFrom b ts) :
    BranchFrom (b.shift n) (ts.map (Token.shift n lines)) := by
  match h with
  | .block h => exact .block h.shift
  | .conditional hfirst h =>
    rw [Block.shift, Stmt.shiftList, Stmt.shiftList, ← Stmt.span_shift]
    exact .conditional (Token.content_shift hfirst) h.shift
termination_by structural h

theorem Stmt.AllReadFrom.shift {ss : List Stmt} {ts : List Token} (h : AllReadFrom ss ts) :
    AllReadFrom (Stmt.shiftList n ss) (ts.map (Token.shift n lines)) := by
  match h with
  | .nil => exact .nil
  | .cons hs hss =>
    rw [List.map_append]
    exact .cons hs.shift hss.shift
termination_by structural h

end

theorem Stmt.AllReadFrom.append {ss rr : List Stmt} {ts us : List Token} (h : AllReadFrom ss ts)
    (h' : AllReadFrom rr us) : AllReadFrom (ss ++ rr) (ts ++ us) := by
  match h with
  | .nil => exact h'
  | .cons hs hss =>
    rw [List.append_assoc]
    exact .cons hs (hss.append h')
termination_by structural h

end

end Dvilipi
