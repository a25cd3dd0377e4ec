import Dvilipi.Tree.Basic

/-!
Properties that hold throughout a tree: of each expression and of each statement in it, those in the
bodies of declared functions included. `parts` lists the expressions.
-/

namespace Dvilipi
set_option autoImplicit false

mutual

/-- `P` holds of the expression and of every expression in it. -/
def Expr.Every (P : Expr → Prop) : Expr → Prop
  | .number x sp => P (.number x sp)
  | .string t sp => P (.string t sp)
  | .reference x sp => P (.reference x sp)
  | .assign x e sp => P (.assign x e sp) ∧ e.Every P
  | .binary op a b sp => P (.binary op a b sp) ∧ a.Every P ∧ b.Every P
  | .logical op a b sp => P (.logical op a b sp) ∧ a.Every P ∧ b.Every P
  | .unary op e sp => P (.unary op e sp) ∧ e.Every P
  | .call f es sp => P (.call f es sp) ∧ Expr.EveryOf P es

def Expr.EveryOf (P : Expr → Prop) : List Expr → Prop
  | [] => True
  | e :: es => e.Every P ∧ Expr.EveryOf P es

end

mutual

/-- `Q` holds of the statement and of every statement in it, and `P` of every expression. -/
def Stmt.Every (P : Expr → Prop) (Q : Stmt → Prop) : Stmt → Prop
  | .function f ps r body sp => Q (.function f ps r body sp) ∧ body.Every P Q
  | .binding x constant t e sp => Q (.binding x constant t e sp) ∧ ∀ a ∈ e, a.Every P
  | .expression e sp => Q (.expression e sp) ∧ e.Every P
  | .ifThen c yes sp => Q (.ifThen c yes sp) ∧ c.Every P ∧ yes.Every P Q
  | .ifElse c yes no sp => Q (.ifElse c yes no sp) ∧ c.Every P ∧ yes.Every P Q ∧ no.Every P Q
  | .while_ c body sp => Q (.while_ c body sp) ∧ c.Every P ∧ body.Every P Q
  | .return_ e sp => Q (.return_ e sp) ∧ ∀ a ∈ e, a.Every P

def Block.Every (P : Expr → Prop) (Q : Stmt → Prop) : Block → Prop
  | .mk statements _ => Stmt.EveryOf P Q statements

def Stmt.EveryOf (P : Expr → Prop) (Q : Stmt → Prop) : List Stmt → Prop
  | [] => True
  | s :: ss => s.Every P Q ∧ Stmt.EveryOf P Q ss

end

def Program.Every (P : Expr → Prop) (Q : Stmt → Prop) (p : Program) : Prop :=
  Stmt.EveryOf P Q p.statements

/-- No condition on statements. -/
abbrev Stmt.Any : Stmt → Prop := fun _ => True

variable {P P' : Expr → Prop} {Q Q' : Stmt → Prop}

mutual

theorem Expr.Every.imp (hP : ∀ e, P e → P' e) {e : Expr} (h : e.Every P) : e.Every P' := by
  cases e with
  | number x sp => exact hP _ h
  | string t sp => exact hP _ h
  | reference x sp => exact hP _ h
  | assign x e sp => exact ⟨hP _ h.1, Expr.Every.imp hP h.2⟩
  | binary op a b sp => exact ⟨hP _ h.1, Expr.Every.imp hP h.2.1, Expr.Every.imp hP h.2.2⟩
  | logical op a b sp => exact ⟨hP _ h.1, Expr.Every.imp hP h.2.1, Expr.Every.imp hP h.2.2⟩
  | unary op e sp => exact ⟨hP _ h.1, Expr.Every.imp hP h.2⟩
  | call f es sp => exact ⟨hP _ h.1, Expr.EveryOf.imp hP h.2⟩
termination_by structural e

theorem Expr.EveryOf.imp (hP : ∀ e, P e → P' e) {es : List Expr} (h : Expr.EveryOf P es) :
    Expr.EveryOf P' es := by
  cases es with
  | nil => trivial
  | cons e es => exact ⟨Expr.Every.imp hP h.1, Expr.EveryOf.imp hP h.2⟩
termination_by structural es

end

mutual

theorem Stmt.Every.imp (hP : ∀ e, P e → P' e) (hQ : ∀ s, Q s → Q' s) {s : Stmt}
    (h : s.Every P Q) : s.Every P' Q' := by
  cases s with
  | function f ps r body sp => exact ⟨hQ _ h.1, Block.Every.imp hP hQ h.2⟩
  | binding x constant t e sp => exact ⟨hQ _ h.1, fun a ha => (h.2 a ha).imp hP⟩
  | expression e sp => exact ⟨hQ _ h.1, h.2.imp hP⟩
  | ifThen c yes sp => exact ⟨hQ _ h.1, h.2.1.imp hP, Block.Every.imp hP hQ h.2.2⟩
  | ifElse c yes no sp =>
    obtain ⟨hs, hc, hyes, hno⟩ := h
    exact ⟨hQ _ hs, hc.imp hP, Block.Every.imp hP hQ hyes, Block.Every.imp hP hQ hno⟩
  | while_ c body sp => exact ⟨hQ _ h.1, h.2.1.imp hP, Block.Every.imp hP hQ h.2.2⟩
  | return_ e sp => exact ⟨hQ _ h.1, fun a ha => (h.2 a ha).imp hP⟩
termination_by structural s

theorem Block.Every.imp (hP : ∀ e, P e → P' e) (hQ : ∀ s, Q s → Q' s) {b : Block}
    (h : b.Every P Q) : b.Every P' Q' := by
  cases b with
  | mk statements sp =>
    have hstatements : Stmt.EveryOf P Q statements := h
    exact Stmt.EveryOf.imp hP hQ hstatements
termination_by structural b

theorem Stmt.EveryOf.imp (hP : ∀ e, P e → P' e) (hQ : ∀ s, Q s → Q' s) {ss : List Stmt}
    (h : Stmt.EveryOf P Q ss) : Stmt.EveryOf P' Q' ss := by
  cases ss with
  | nil => trivial
  | cons s ss => exact ⟨Stmt.Every.imp hP hQ h.1, Stmt.EveryOf.imp hP hQ h.2⟩
termination_by structural ss

end

mutual

/-- The expression and every expression in it. -/
def Expr.parts : Expr → List Expr
  | .number x sp => [.number x sp]
  | .string t sp => [.string t sp]
  | .reference x sp => [.reference x sp]
  | .assign x e sp => .assign x e sp :: e.parts
  | .binary op a b sp => .binary op a b sp :: (a.parts ++ b.parts)
  | .logical op a b sp => .logical op a b sp :: (a.parts ++ b.parts)
  | .unary op e sp => .unary op e sp :: e.parts
  | .call f es sp => .call f es sp :: Expr.partsOfList es

def Expr.partsOfList : List Expr → List Expr
  | [] => []
  | e :: es => e.parts ++ Expr.partsOfList es

end

def Expr.optionalParts : Option Expr → List Expr
  | some e => e.parts
  | none => []

mutual

def Stmt.parts : Stmt → List Expr
  | .function _ _ _ body _ => body.parts
  | .binding _ _ _ e _ => Expr.optionalParts e
  | .expression e _ => e.parts
  | .ifThen c yes _ => c.parts ++ yes.parts
  | .ifElse c yes no _ => c.parts ++ (yes.parts ++ no.parts)
  | .while_ c body _ => c.parts ++ body.parts
  | .return_ e _ => Expr.optionalParts e

def Block.parts : Block → List Expr
  | .mk statements _ => Stmt.partsOfList statements

def Stmt.partsOfList : List Stmt → List Expr
  | [] => []
  | s :: ss => s.parts ++ Stmt.partsOfList ss

end

mutual

theorem Expr.every_iff (e : Expr) : e.Every P ↔ ∀ a ∈ e.parts, P a := by
  cases e with
  | number x sp => simp only [Expr.Every, Expr.parts, List.forall_mem_singleton]
  | string t sp => simp only [Expr.Every, Expr.parts, List.forall_mem_singleton]
  | reference x sp => simp only [Expr.Every, Expr.parts, List.forall_mem_singleton]
  | assign x e sp => rw [Expr.Every, Expr.parts, List.forall_mem_cons, e.every_iff]
  | binary op a b sp =>
    rw [Expr.Every, Expr.parts, List.forall_mem_cons, List.forall_mem_append, a.every_iff,
      b.every_iff]
  | logical op a b sp =>
    rw [Expr.Every, Expr.parts, List.forall_mem_cons, List.forall_mem_append, a.every_iff,
      b.every_iff]
  | unary op e sp => rw [Expr.Every, Expr.parts, List.forall_mem_cons, e.every_iff]
  | call f es sp => rw [Expr.Every, Expr.parts, List.forall_mem_cons, Expr.everyOf_iff_parts es]
termination_by structural e

theorem Expr.everyOf_iff_parts (es : List Expr) :
    Expr.EveryOf P es ↔ ∀ a ∈ Expr.partsOfList es, P a := by
  cases es with
  | nil => simp [Expr.EveryOf, Expr.partsOfList]
  | cons e es =>
    rw [Expr.EveryOf, Expr.partsOfList, List.forall_mem_append, e.every_iff,
      Expr.everyOf_iff_parts es]
termination_by structural es

end

theorem Expr.every_optional_iff (e : Option Expr) :
    (∀ a ∈ e, a.Every P) ↔ ∀ a ∈ Expr.optionalParts e, P a := by
  cases e with
  | none => simp [Expr.optionalParts]
  | some e => simp [Expr.optionalParts, e.every_iff]

mutual

theorem Stmt.every_iff (s : Stmt) : s.Every P Stmt.Any ↔ ∀ a ∈ s.parts, P a := by
  cases s with
  | function f ps r body sp => rw [Stmt.Every, Stmt.parts, body.every_iff, true_and]
  | binding x constant t e sp => rw [Stmt.Every, Stmt.parts, Expr.every_optional_iff, true_and]
  | expression e sp => rw [Stmt.Every, Stmt.parts, e.every_iff, true_and]
  | ifThen c yes sp =>
    rw [Stmt.Every, Stmt.parts, List.forall_mem_append, c.every_iff, yes.every_iff, true_and]
  | ifElse c yes no sp =>
    rw [Stmt.Every, Stmt.parts, List.forall_mem_append, List.forall_mem_append, c.every_iff,
      yes.every_iff, no.every_iff, true_and]
  | while_ c body sp =>
    rw [Stmt.Every, Stmt.parts, List.forall_mem_append, c.every_iff, body.every_iff, true_and]
  | return_ e sp => rw [Stmt.Every, Stmt.parts, Expr.every_optional_iff, true_and]
termination_by structural s

theorem Block.every_iff (b : Block) : b.Every P Stmt.Any ↔ ∀ a ∈ b.parts, P a := by
  cases b with
  | mk statements sp => rw [Block.Every, Block.parts, Stmt.everyOf_iff_parts statements]
termination_by structural b

theorem Stmt.everyOf_iff_parts (ss : List Stmt) :
    Stmt.EveryOf P Stmt.Any ss ↔ ∀ a ∈ Stmt.partsOfList ss, P a := by
  cases ss with
  | nil => simp [Stmt.EveryOf, Stmt.partsOfList]
  | cons s ss =>
    rw [Stmt.EveryOf, Stmt.partsOfList, List.forall_mem_append, s.every_iff,
      Stmt.everyOf_iff_parts ss]
termination_by structural ss

end

end Dvilipi
