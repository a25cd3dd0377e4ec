import Dvilipi.Proofs.Parser.Concatenation
import Dvilipi.Proofs.Tree.Spans
import Mathlib.Logic.ExistsUnique

/-!
Spans of parsed programs. They are nested as the tree is, siblings stand one after the other, and the
statements together cover all tokens.
-/

namespace Dvilipi
set_option autoImplicit false

/-- What the span of a piece tells, in a tree that is read from the tokens of a text of `length`
characters. -/
structure Piece.Spanned (length : Nat) (ts : List Token) (x : Piece) : Prop where
  nonempty : x.span.start < x.span.stop
  within : x.span.stop ≤ length
  inside : ∀ y ∈ x.children, y.span.Inside x.span
  ordered : x.children.Pairwise fun y z => y.span.stop ≤ z.span.start
  tokens : ∃ us, us <:+: ts ∧ x.ReadFrom us ∧ ((∀ e, x ≠ .expr e) → x.span = Token.extent us)
  atom : ∀ e c, x = .expr e → e.atom? = some c → ∃ t ∈ ts, t.content = c ∧ x.span = t.span

open Token (InOrder)

/-- Some tokens of the text that the piece is read from tell all of its span. -/
theorem Piece.ReadFrom.spanned {x : Piece} {length : Nat} {ts us : List Token} (h : x.ReadFrom us)
    (hus : us <:+: ts) (hts : InOrder ts) (hlength : ∀ t ∈ ts, t.span.stop ≤ length) :
    x.Spanned length ts := by
  have hin := hts.sublist hus.sublist
  have hspan := h.span_inside hin
  obtain ⟨_, _, u, hu, hextent⟩ := Token.exists_extent h.ne_nil
  have hstop := hspan.2.2
  rw [hextent] at hstop
  refine ⟨hspan.1, Nat.le_trans hstop (hlength u (hus.subset hu)), h.children_inside hin,
    h.along.ordered hin, ⟨us, hus, h, h.span_eq⟩, fun e c he hc => ?_⟩
  subst he
  obtain ⟨t, ht, hsays⟩ := Expr.ReadFrom.atom h c hc
  exact ⟨t, hus.subset ht, hsays⟩

theorem Stmt.AllReadFrom.exists_statement {ss : List Stmt} {ts : List Token} (h : AllReadFrom ss ts)
    (hts : InOrder ts) {t : Token} (ht : t ∈ ts) : ∃ s ∈ ss, t.span.Inside s.span := by
  match h with
  | .nil => cases ht
  | .cons hs hss =>
    rcases List.mem_append.mp ht with ht | ht
    · exact ⟨_, List.mem_cons_self, hs.span_eq ▸ hts.left.mem_inside ht⟩
    · obtain ⟨s, hs, hinside⟩ := hss.exists_statement hts.right ht
      exact ⟨s, List.mem_cons_of_mem _ hs, hinside⟩
termination_by structural h

theorem Stmt.index_unique {ss : List Stmt} {sp : Span} {i j : Nat} {s s' : Stmt}
    (hss : ss.Pairwise fun s s' => s.span.stop ≤ s'.span.start) (hsp : sp.start < sp.stop)
    (hi : ss[i]? = some s) (hj : ss[j]? = some s') (hs : sp.Inside s.span)
    (hs' : sp.Inside s'.span) : i = j := by
  have hlt : ∀ {i j : Nat} {s s' : Stmt}, ss[i]? = some s → ss[j]? = some s' → sp.Inside s.span →
      sp.Inside s'.span → ¬ i < j := by
    intro i j s s' hi hj hs hs' hlt
    obtain ⟨hi', rfl⟩ := List.getElem?_eq_some_iff.mp hi
    obtain ⟨hj', rfl⟩ := List.getElem?_eq_some_iff.mp hj
    have hle := List.pairwise_iff_getElem.mp hss i j hi' hj' hlt
    exact Nat.not_le_of_lt hsp (Nat.le_trans hs.2 (Nat.le_trans hle hs'.1))
  rcases Nat.lt_trichotomy i j with h | h | h
  · exact absurd h (hlt hi hj hs hs')
  · exact h
  · exact absurd h (hlt hj hi hs' hs)

namespace Program

theorem Has.exists_readFrom {a : Program} {ts : List Token} (ha : Stmt.AllReadFrom a.statements ts)
    {x : Piece} (hx : a.Has x) : ∃ us, us <:+: ts ∧ x.ReadFrom us := by
  induction hx with
  | statement hs => exact (Piece.along_statements ha).infix_of_mem (List.mem_map_of_mem hs)
  | child _ hy ih =>
    obtain ⟨us, hus, hread⟩ := ih
    obtain ⟨vs, hvs, hread⟩ := hread.along.infix_of_mem hy
    exact ⟨vs, hvs.trans hus, hread⟩

/-- The spans of a parsed program are nested like its tree: each is a part of the source that is not
empty, it lies inside of the next one above, and siblings stand one after the other in the order of the
source. What is no expression reaches from its first token to its last, and literals and identifiers
cover one token each. The statements together cover all tokens but the end token, each of them once. -/
theorem spans_of_ofSource {source : String} {a : Program} (h : ofSource source = .ok a) :
    ∃ ts e, (Lexer.ofSource source).scanAll.1 = .ok (ts ++ [e]) ∧ e.content = .endOfInput ∧
      (∀ t ∈ ts, t.content ≠ .endOfInput) ∧
      (∀ n ∈ a.nodes, n.span ≠ none → ∃ x, a.Has x ∧ x.Heads n) ∧
      (∀ x, a.Has x → x.Spanned source.length ts) ∧
      (a.statements.Pairwise fun s s' => s.span.stop ≤ s'.span.start) ∧
      ∀ t ∈ ts, ∃! i : Nat, ∃ s : Stmt, a.statements[i]? = some s ∧ t.span.Inside s.span := by
  obtain ⟨all, hscan⟩ := scanAll_of_ofSource_ok h
  obtain ⟨ts, e, rfl, hread⟩ := readFrom_of_ofSource h (Lexer.scans_of_scanAll hscan)
  have hpartition := Lexer.scanAll_partition hscan
  obtain ⟨us, e', heq, hend, -, hus⟩ := hpartition.ends
  obtain ⟨rfl, hlast⟩ := List.append_inj' heq rfl
  obtain rfl := List.singleton_inj.mp hlast
  have hts : InOrder ts :=
    ⟨fun t ht => (hus t ht).2, (List.pairwise_append.mp hpartition.ordered).1⟩
  have hlength : ∀ t ∈ ts, t.span.stop ≤ source.length := fun t ht =>
    String.length_toList ▸ (hpartition.stands t (List.mem_append_left _ ht)).within.2
  have hordered := List.pairwise_map.mp ((Piece.along_statements hread).ordered hts)
  refine ⟨ts, e, hscan, hend, fun t ht => (hus t ht).1, fun n => has_of_mem_nodes, fun x hx => ?_,
    hordered, fun t ht => ?_⟩
  · obtain ⟨vs, hvs, hx⟩ := hx.exists_readFrom hread
    exact hx.spanned hvs hts hlength
  · obtain ⟨s, hs, hinside⟩ := hread.exists_statement hts ht
    obtain ⟨i, hi⟩ := List.mem_iff_getElem?.mp hs
    refine ⟨i, ⟨s, hi, hinside⟩, fun j hj => ?_⟩
    obtain ⟨s', hj, hinside'⟩ := hj
    exact Stmt.index_unique hordered (hts.nonempty t ht) hj hi hinside' hinside

/-- The block behind `else` has the span of its conditional, and parentheses belong to no operand. -/
theorem spans_of_ofSource_conditional :
    ∃ a ts e, ofSource "if (a) \x7b \x7d else if -b < (c) \x7b f(1); \x7d" = .ok a ∧
      a.nodes.filterMap Node.span = [⟨0, 37⟩, ⟨4, 5⟩, ⟨7, 10⟩, ⟨16, 37⟩, ⟨16, 37⟩, ⟨19, 26⟩,
        ⟨19, 21⟩, ⟨20, 21⟩, ⟨25, 26⟩, ⟨28, 37⟩, ⟨30, 35⟩, ⟨30, 34⟩, ⟨32, 33⟩] ∧
      (Lexer.ofSource "if (a) \x7b \x7d else if -b < (c) \x7b f(1); \x7d").scanAll.1 =
        .ok (ts ++ [e]) ∧ ∀ x, a.Has x → x.Spanned 37 ts := by
  have hparse : (ofSource "if (a) \x7b \x7d else if -b < (c) \x7b f(1); \x7d").toOption.map
      (fun a => a.nodes.filterMap Node.span) = some [⟨0, 37⟩, ⟨4, 5⟩, ⟨7, 10⟩, ⟨16, 37⟩, ⟨16, 37⟩,
        ⟨19, 26⟩, ⟨19, 21⟩, ⟨20, 21⟩, ⟨25, 26⟩, ⟨28, 37⟩, ⟨30, 35⟩, ⟨30, 34⟩, ⟨32, 33⟩] := by
    decide +kernel
  obtain ⟨a, ha, hspans⟩ := Option.map_eq_some_iff.mp hparse
  have hlength : "if (a) \x7b \x7d else if -b < (c) \x7b f(1); \x7d".length = 37 := by decide
  obtain ⟨ts, e, hscan, -, -, -, hpieces, -, -⟩ := spans_of_ofSource (eq_ok_of_toOption ha)
  exact ⟨a, ts, e, eq_ok_of_toOption ha, hspans, hscan, hlength ▸ hpieces⟩

end Program
end Dvilipi
