import Mathlib.Tactic.SplitIfs
import Dvilipi.Token.Basic

/-!
Parentheses among tokens. The other tokens are solid: how many of them stand before one of them tells
where it stands. A parenthesis has its partner where the nesting falls below it for the first time.
-/

namespace Dvilipi
set_option autoImplicit false

namespace Token

def isSolid (t : Token) : Bool := t.content != .delimiter '(' && t.content != .delimiter ')'

def solids (ts : List Token) : Nat := ts.countP isSolid

section

variable {t t' : Token} {us us' vs vs' : List Token} {c : Content}

theorem solid_of_content (h : t.content = c) (hopen : c ≠ .delimiter '(')
    (hclose : c ≠ .delimiter ')') : t.isSolid = true := by
  simp [isSolid, h, hopen, hclose]

theorem solid_of_mark {mark : Char} (h : t.content = .delimiter mark) (hopen : mark ≠ '(')
    (hclose : mark ≠ ')') : t.isSolid = true :=
  solid_of_content h (fun heq => hopen (Content.delimiter.inj heq))
    (fun heq => hclose (Content.delimiter.inj heq))

theorem solids_append (us vs : List Token) : solids (us ++ vs) = solids us + solids vs :=
  List.countP_append

theorem solids_cons_solid (h : t.isSolid = true) : solids (t :: us) = solids us + 1 :=
  List.countP_cons_of_pos h

theorem solids_cons_delimiter {mark : Char} (h : t.content = .delimiter mark)
    (hmark : mark = '(' ∨ mark = ')') : solids (t :: us) = solids us := by
  refine List.countP_cons_of_neg ?_
  rcases hmark with rfl | rfl <;> simp [isSolid, h]

theorem solids_enclose {l r : Token} (hl : l.content = .delimiter '(')
    (hr : r.content = .delimiter ')') : solids (l :: (us ++ [r])) = solids us := by
  rw [solids_cons_delimiter hl (.inl rfl), solids_append, solids_cons_delimiter hr (.inr rfl)]
  rfl

/-- Where as many solid tokens stand before two solid tokens, these are the same. -/
theorem cut (h : us ++ t :: vs = us' ++ t' :: vs') (ht : t.isSolid = true) (ht' : t'.isSolid = true)
    (hsolids : solids us = solids us') : us = us' ∧ t = t' ∧ vs = vs' := by
  induction us generalizing us' with
  | nil =>
    cases us' with
    | nil =>
      obtain ⟨rfl, rfl⟩ := List.cons.inj h
      exact ⟨rfl, rfl, rfl⟩
    | cons u us' =>
      obtain ⟨rfl, -⟩ := List.cons.inj h
      rw [solids_cons_solid ht] at hsolids
      cases hsolids
  | cons u us ih =>
    cases us' with
    | nil =>
      obtain ⟨rfl, -⟩ := List.cons.inj h
      rw [solids_cons_solid ht'] at hsolids
      cases hsolids
    | cons u' us' =>
      obtain ⟨rfl, htail⟩ := List.cons.inj h
      have hrest : solids us = solids us' := by
        simp only [solids, List.countP_cons] at hsolids
        exact Nat.add_right_cancel hsolids
      obtain ⟨rfl, hsame⟩ := ih htail hrest
      exact ⟨rfl, hsame⟩

end

/-- How many parentheses are open behind the tokens, if `n` are open before them. -/
def nesting (n : Nat) : List Token → Option Nat
  | [] => some n
  | t :: ts =>
    if t.content = .delimiter '(' then nesting (n + 1) ts
    else if t.content = .delimiter ')' then if n = 0 then none else nesting (n - 1) ts
    else nesting n ts

/-- Every parenthesis among the tokens has its partner among them. -/
def Balanced (ts : List Token) : Prop := ∀ n, nesting n ts = some n

section

variable {t l r : Token} {us vs ws : List Token} {n k : Nat}

theorem nesting_append (n : Nat) (us vs : List Token) :
    nesting n (us ++ vs) = (nesting n us).bind fun k => nesting k vs := by
  induction us generalizing n with
  | nil => rfl
  | cons t us ih =>
    rw [List.cons_append, nesting, nesting]
    split_ifs
    · exact ih (n + 1)
    · rfl
    · exact ih (n - 1)
    · exact ih n

theorem nesting_succ (h : nesting n us = some k) : nesting (n + 1) us = some (k + 1) := by
  induction us generalizing n with
  | nil =>
    cases h
    rfl
  | cons t us ih =>
    rw [nesting, if_neg n.succ_ne_zero, Nat.add_sub_cancel]
    rw [nesting] at h
    split_ifs at h ⊢ with hopen hclose hzero
    · exact ih h
    · have hinner := ih h
      rwa [Nat.sub_one_add_one hzero] at hinner
    · exact ih h

theorem balanced_nil : Balanced [] := fun _ => rfl

theorem Balanced.append (h : Balanced us) (h' : Balanced vs) : Balanced (us ++ vs) := by
  intro n
  rw [nesting_append, h n]
  exact h' n

theorem Balanced.cons (ht : t.isSolid = true) (h : Balanced us) : Balanced (t :: us) := by
  intro n
  simp only [isSolid, Bool.and_eq_true, bne_iff_ne] at ht
  rw [nesting, if_neg ht.1, if_neg ht.2]
  exact h n

theorem Balanced.enclose (hl : l.content = .delimiter '(') (h : Balanced us)
    (hr : r.content = .delimiter ')') : Balanced (l :: (us ++ [r])) := by
  intro n
  rw [nesting, if_pos hl, nesting_append, h (n + 1)]
  simp [nesting, hr]

/-- The partner of an enclosing parenthesis is the last token. -/
theorem Balanced.not_enclosed (h : Balanced us) (hne : us ≠ []) (hl : l.content = .delimiter '(')
    (hws : Balanced ws) : us ++ t :: vs ≠ l :: (ws ++ [r]) := by
  intro heq
  cases us with
  | nil => exact hne rfl
  | cons u us =>
    obtain ⟨rfl, htail⟩ := List.cons.inj heq
    have hlength := congrArg List.length htail
    simp only [List.append_eq, List.length_append, List.length_cons, List.length_nil] at hlength
    have hprefix : us <+: ws ++ [r] := ⟨t :: vs, htail⟩
    obtain ⟨more, rfl⟩ := List.prefix_of_prefix_length_le hprefix (List.prefix_append ws [r])
      (by omega)
    have hinner := hws 0
    rw [nesting_append] at hinner
    obtain ⟨k, hk, -⟩ := Option.bind_eq_some_iff.mp hinner
    have houter := h 0
    rw [nesting, if_pos hl, nesting_succ hk] at houter
    cases houter

end

end Token
end Dvilipi
