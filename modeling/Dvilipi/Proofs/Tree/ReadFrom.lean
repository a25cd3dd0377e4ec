import Dvilipi.Proofs.Token.Partition
import Dvilipi.Tree.Basic

/-!
Trees with their spans, and the tokens they are read from. Literals and names have the spans of their
tokens; a type, a parameter, a statement and a block reach from their first token to their last. How
tightly operators bind is left to the grammar.
-/

namespace Dvilipi
set_option autoImplicit false

namespace Token

/-- From the first of the tokens to the last. -/
def extent : List Token → Span
  | [] => ⟨0, 0⟩
  | t :: ts => ⟨t.span.start, stopAfter t.span.stop ts⟩

end Token

/-- Items that are read with commas between them. -/
inductive Separated {α : Type} (R : α → List Token → Prop) : List α → List Token → Prop where
  | nil : Separated R [] []
  | single {a : α} {ts : List Token} (h : R a ts) : Separated R [a] ts
  | cons {a b : α} {as : List α} {t : Token} {us vs : List Token} (h : R a us)
      (ht : t.content = .delimiter ',') (hrest : Separated R (b :: as) vs) :
      Separated R (a :: b :: as) (us ++ t :: vs)

/-- An optional item with the tokens that announce it. -/
inductive Announced {α : Type} (before : List Token.Content) (R : α → List Token → Prop) :
    Option α → List Token → Prop where
  | none : Announced before R none []
  | some {a : α} {us vs : List Token} (hus : us.map Token.content = before) (h : R a vs) :
      Announced before R (some a) (us ++ vs)

mutual

inductive Expr.ReadFrom : Expr → List Token → Prop where
  | number {t : Token} {x : Float} (ht : t.content = .number x) : ReadFrom (.number x t.span) [t]
  | string {t : Token} {text : String} (ht : t.content = .string text) :
      ReadFrom (.string text t.span) [t]
  | reference {t : Token} {x : String} (ht : t.content = .identifier x) :
      ReadFrom (.reference x t.span) [t]
  | call {t l r : Token} {f : String} {es : List Expr} {us : List Token}
      (ht : t.content = .identifier f) (hl : l.content = .delimiter '(') (hes : AllReadFrom es us)
      (hr : r.content = .delimiter ')') :
      ReadFrom (.call f es ⟨t.span.start, r.span.stop⟩) (t :: l :: (us ++ [r]))
  | group {l r : Token} {e : Expr} {us : List Token} (hl : l.content = .delimiter '(')
      (he : ReadFrom e us) (hr : r.content = .delimiter ')') : ReadFrom e (l :: (us ++ [r]))
  | unary {t : Token} {op : UnaryOp} {e : Expr} {us : List Token}
      (ht : t.content = .operator op.symbol) (he : ReadFrom e us) :
      ReadFrom (.unary op e ⟨t.span.start, e.span.stop⟩) (t :: us)
  | joined {t : Token} {op : Infix} {a b : Expr} {us vs : List Token} (ha : ReadFrom a us)
      (ht : t.content = .operator op.symbol) (hb : ReadFrom b vs) :
      ReadFrom (.ofInfix op a b) (us ++ t :: vs)
  | assign {t : Token} {x : String} {sp : Span} {e : Expr} {us vs : List Token}
      (hx : ReadFrom (.reference x sp) us) (ht : t.content = .operator "=") (he : ReadFrom e vs) :
      ReadFrom (.assign x e (sp.«to» e.span)) (us ++ t :: vs)

/-- Arguments, with commas between them. -/
inductive Expr.AllReadFrom : List Expr → List Token → Prop where
  | nil : AllReadFrom [] []
  | single {e : Expr} {us : List Token} (he : ReadFrom e us) : AllReadFrom [e] us
  | cons {t : Token} {e f : Expr} {es : List Expr} {us vs : List Token} (he : ReadFrom e us)
      (ht : t.content = .delimiter ',') (hes : AllReadFrom (f :: es) vs) :
      AllReadFrom (e :: f :: es) (us ++ t :: vs)

end

theorem Expr.allReadFrom_of_separated {es : List Expr} {ts : List Token}
    (h : Separated Expr.ReadFrom es ts) : Expr.AllReadFrom es ts := by
  induction h with
  | nil => exact .nil
  | single he => exact .single he
  | cons he ht _ ih => exact .cons he ht ih

def TypeName.ReadFrom (n : TypeName) (ts : List Token) : Prop :=
  ∃ t, ts = [t] ∧ n = ⟨t.text, t.span⟩ ∧
    ((∃ x, t.content = .identifier x) ∨ ∃ script, t.content = .keyword .tensor script)

/-- A type after a colon. -/
abbrev TypeName.Ascribed : Option TypeName → List Token → Prop :=
  Announced [.delimiter ':'] TypeName.ReadFrom

/-- A type after an arrow. -/
abbrev TypeName.Resulting : Option TypeName → List Token → Prop :=
  Announced [.operator "-", .operator ">"] TypeName.ReadFrom

structure Parameter.ReadFrom (p : Parameter) (ts : List Token) : Prop where
  tokens : ∃ t us, ts = t :: us ∧ t.content = .identifier p.name ∧
    TypeName.Ascribed p.ascription us
  span : p.span = Token.extent ts

mutual

inductive Stmt.ReadFrom : Stmt → List Token → Prop where
  | function {first name l r : Token} {script : Script} {f : String} {ps : List Parameter}
      {result : Option TypeName} {body : Block} {us vs ws ts : List Token}
      (hfirst : first.content = .keyword .fn script) (hname : name.content = .identifier f)
      (hl : l.content = .delimiter '(') (hps : Separated Parameter.ReadFrom ps us)
      (hr : r.content = .delimiter ')') (hresult : TypeName.Resulting result vs)
      (hbody : BracedFrom body ws) (hts : ts = first :: name :: l :: (us ++ r :: (vs ++ ws))) :
      ReadFrom (.function f ps result body (Token.extent ts)) ts
  | binding {first name close : Token} {script : Script} {x : String} {constant : Bool}
      {type : Option TypeName} {initial : Option Expr} {us vs ts : List Token}
      (hfirst : first.content = .keyword (if constant then .const else .let_) script)
      (hname : name.content = .identifier x) (htype : TypeName.Ascribed type us)
      (hinitial : Announced [.operator "="] Expr.ReadFrom initial vs)
      (hclose : close.content = .delimiter ';')
      (hts : ts = first :: name :: (us ++ (vs ++ [close]))) :
      ReadFrom (.binding x constant type initial (Token.extent ts)) ts
  | expression {close : Token} {e : Expr} {us ts : List Token} (he : e.ReadFrom us)
      (hclose : close.content = .delimiter ';') (hts : ts = us ++ [close]) :
      ReadFrom (.expression e (Token.extent ts)) ts
  | ifThen {first : Token} {script : Script} {c : Expr} {yes : Block} {us vs ts : List Token}
      (hfirst : first.content = .keyword .if_ script) (hc : c.ReadFrom us)
      (hyes : BracedFrom yes vs) (hts : ts = first :: (us ++ vs)) :
      ReadFrom (.ifThen c yes (Token.extent ts)) ts
  | ifElse {first other : Token} {script script' : Script} {c : Expr} {yes no : Block}
      {us vs ws ts : List Token} (hfirst : first.content = .keyword .if_ script)
      (hc : c.ReadFrom us) (hyes : BracedFrom yes vs)
      (hother : other.content = .keyword .else_ script') (hno : BranchFrom no ws)
      (hts : ts = first :: (us ++ (vs ++ other :: ws))) :
      ReadFrom (.ifElse c yes no (Token.extent ts)) ts
  | while_ {first : Token} {script : Script} {c : Expr} {body : Block} {us vs ts : List Token}
      (hfirst : first.content = .keyword .while_ script) (hc : c.ReadFrom us)
      (hbody : BracedFrom body vs) (hts : ts = first :: (us ++ vs)) :
      ReadFrom (.while_ c body (Token.extent ts)) ts
  | return_ {first close : Token} {script : Script} {value : Option Expr} {us ts : List Token}
      (hfirst : first.content = .keyword .return_ script)
      (hvalue : Announced [] Expr.ReadFrom value us) (hclose : close.content = .delimiter ';')
      (hts : ts = first :: (us ++ [close])) : ReadFrom (.return_ value (Token.extent ts)) ts

/-- Statements in braces. -/
inductive Stmt.BracedFrom : Block → List Token → Prop where
  | mk {l r : Token} {ss : List Stmt} {us ts : List Token} (hl : l.content = .delimiter '\x7b')
      (hss : AllReadFrom ss us) (hr : r.content = .delimiter '\x7d') (hts : ts = l :: (us ++ [r])) :
      BracedFrom (.mk ss (Token.extent ts)) ts

/-- What stands behind `else`: statements in braces, or a conditional, which makes a block alone. -/
inductive Stmt.BranchFrom : Block → List Token → Prop where
  | block {b : Block} {ts : List Token} (h : BracedFrom b ts) : BranchFrom b ts
  | conditional {first : Token} {script : Script} {s : Stmt} {us : List Token}
      (hfirst : first.content = .keyword .if_ script) (h : ReadFrom s (first :: us)) :
      BranchFrom (.mk [s] s.span) (first :: us)

/-- Statements one after the other. -/
inductive Stmt.AllReadFrom : List Stmt → List Token → Prop where
  | nil : AllReadFrom [] []
  | cons {s : Stmt} {ss : List Stmt} {us vs : List Token} (hs : ReadFrom s us)
      (hss : AllReadFrom ss vs) : AllReadFrom (s :: ss) (us ++ vs)

end

theorem Stmt.ReadFrom.ne_nil {s : Stmt} {ts : List Token} (h : s.ReadFrom ts) : ts ≠ [] := by
  cases h <;> subst ts <;> simp

theorem Stmt.BracedFrom.span_eq {b : Block} {ts : List Token} (h : BracedFrom b ts) :
    b.span = Token.extent ts := by
  cases h
  rfl

theorem Stmt.BracedFrom.ne_nil {b : Block} {ts : List Token} (h : BracedFrom b ts) : ts ≠ [] := by
  cases h with
  | mk _ _ _ hts =>
    subst hts
    exact List.cons_ne_nil _ _

end Dvilipi
