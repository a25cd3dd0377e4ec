import Dvilipi.Proofs.Parser.Locality
import Dvilipi.Proofs.Parser.Trees
import Dvilipi.Proofs.Token.Partition

/-!
Reading comes to an end. Each token takes some of the characters that are left, and expressions and
statements take tokens, so the number of characters left is a budget that suffices; with any such
budget the reply is the same.
-/

namespace Dvilipi
set_option autoImplicit false

theorem Lexer.next_advances {l m : Lexer} {t : Token} (h : l.next = (.ok t, m))
    (ht : t.isEnd = false) : ∃ cs, cs ≠ [] ∧ l.rest = cs ++ m.rest := by
  obtain ⟨gap, raw, hstep⟩ := step_of_next h
  have hraw := hstep.raw_ne_nil (Token.isEnd_eq_false_iff.mp ht)
  exact ⟨gap ++ raw, by simp [hraw], by rw [hstep.rest_eq, List.append_assoc]⟩

namespace Parser

variable {α : Type} {p : Parser Lexer}

/-- The reply at `p` is `r` with every budget beyond the characters that are left. -/
structure Settles (P : Nat → Production Lexer α) (p : Parser Lexer)
    (r : Reply ParseError (Parser Lexer) α) : Prop where
  ends : r ≠ .exhausted
  reply : ∀ n, p.source.rest.length + 2 < n → P n p = r

theorem pending_le (p : Parser Lexer) : p.pending ≤ p.source.rest.length + 1 := by
  unfold pending
  split
  · exact Nat.le_succ _
  · exact Nat.le_refl _

theorem settles {P : Nat → Production Lexer α}
    (hrepeats : ∀ n (b : Nat → Nat) p, Repeats (fun i => P (b i)) p (P n p))
    (hends : ∀ n p, p.pending < n → P (n + 1) p ≠ .exhausted) (p : Parser Lexer) :
    Settles P p (P p.budget p) := by
  have hbudget : P p.budget p ≠ .exhausted := hends (p.pending + 1) p (Nat.lt_succ_self _)
  refine ⟨hbudget, fun n hn => (hrepeats p.budget id p).eq hbudget ?_⟩
  obtain ⟨n, rfl⟩ : ∃ k, n = k + 1 := ⟨n - 1, by omega⟩
  exact hends n p (Nat.lt_of_le_of_lt p.pending_le (by omega))

theorem settles_expression (p : Parser Lexer) : Settles expression p (expression p.budget p) :=
  settles repeats_expression (fun n p hp => (takes_expression n p hp).ne_exhausted) p

theorem settles_statement (p : Parser Lexer) : Settles statement p (statement p.budget p) :=
  settles repeats_statement (fun n p hp => (takes_statement n p hp).ne_exhausted) p

theorem settles_program (p : Parser Lexer) : Settles program p (program p.budget p) :=
  settles repeats_program (fun _ _ hp => (below_program hp).ne_exhausted) p

theorem consumed_some {R : List Token → α → Prop} {r : Reply ParseError (Parser Lexer) α}
    (hreads : Reads p R r) (hbelow : Below p.pending r) {a : α} {q : Parser Lexer}
    (h : r = .ok a q) : ∃ ts, ts ≠ [] ∧ Consumed p ts q := by
  subst h
  obtain ⟨ts, hts, -⟩ := hreads
  refine ⟨ts, ?_, hts⟩
  rintro rfl
  obtain rfl := Consumed.nil_iff.mp hts
  exact Nat.lt_irrefl _ hbelow

/-- Every lexer and every parser comes to an end. A token takes at least one character; a scan gives
as many tokens as there are characters at most, and then ends or fails; expressions, statements and
programs end with one reply for all budgets beyond the characters left, and the first two of them
consume a token if they succeed. -/
theorem reading_ends :
    (∀ (l m : Lexer) (t : Token), l.next = (.ok t, m) → t.isEnd = false →
      ∃ cs, cs ≠ [] ∧ l.rest = cs ++ m.rest) ∧
    (∀ l : Lexer, ∃ ts m, l.Gives ts m ∧ ts.length + m.rest.length ≤ l.rest.length ∧
      ((∃ t k, m.next = (.ok t, k) ∧ t.isEnd = true ∧ l.scanAll.1 = .ok (ts ++ [t])) ∨
        ∃ e k, m.next = (.error e, k) ∧ l.scanAll.1 = .error e)) ∧
    ∀ p : Parser Lexer,
      (∃ r, ∃ h : Settles expression p r, p.parseExpression = r.settled h.ends ∧
        ∀ e q, r = .ok e q → ∃ ts, ts ≠ [] ∧ Consumed p ts q) ∧
      (∃ r, Settles statement p r ∧ ∀ s q, r = .ok s q → ∃ ts, ts ≠ [] ∧ Consumed p ts q) ∧
      ∃ r, ∃ h : Settles program p r, p.parseProgram = r.settled h.ends := by
  refine ⟨fun l m t => Lexer.next_advances, fun l => ?_, fun p => ⟨?_, ?_, ?_⟩⟩
  · obtain ⟨ts, m, hgives, ⟨t, k, hnext, ht⟩ | ⟨e, k, hnext⟩⟩ := l.gives_to_end
    · exact ⟨ts, m, hgives, hgives.length_le, .inl ⟨t, k, hnext, ht, hgives.scanAll_end hnext ht⟩⟩
    · exact ⟨ts, m, hgives, hgives.length_le, .inr ⟨e, k, hnext, hgives.scanAll_error hnext⟩⟩
  · refine ⟨_, settles_expression p, rfl, fun e q => ?_⟩
    exact consumed_some (reads_expression _ p) (takes_expression _ p (Nat.lt_succ_self _))
  · refine ⟨_, settles_statement p, fun s q => ?_⟩
    exact consumed_some (reads_statement _ p) (takes_statement _ p (Nat.lt_succ_self _))
  · exact ⟨_, settles_program p, rfl⟩

/-- A comment and a name in front of a character that starts no token. -/
theorem reading_ends_error : ∃ (l m : Lexer) (t : Token), l.rest = "/**/ab@".toList ∧
    l.next = (.ok t, m) ∧ t.isEnd = false ∧ (∃ cs, cs ≠ [] ∧ l.rest = cs ++ m.rest) ∧
    m.rest = "@".toList := by
  let l := Lexer.ofSource "/**/ab@"
  have hnext : l.next = (.ok ⟨.identifier "ab", ⟨1, 5⟩, ⟨4, 6⟩⟩, ⟨l.source, ⟨6, ⟨1, 7⟩⟩, ['@']⟩) := by
    decide +kernel
  exact ⟨l, _, _, rfl, hnext, rfl, reading_ends.1 l _ _ hnext rfl, rfl⟩

end Parser
end Dvilipi
