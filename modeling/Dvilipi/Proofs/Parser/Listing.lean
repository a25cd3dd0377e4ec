import Dvilipi.Proofs.Parser.Spans
import Dvilipi.Proofs.Token.Numeral
import Dvilipi.Proofs.Token.Respelling
import Dvilipi.Proofs.Tree.Listing

/-!
Listings of parsed programs. What the tokens of a source say is legible, and a node holds what some
token says or the symbol of an operator; so a listing tells the program up to its spans.
-/

namespace Dvilipi
set_option autoImplicit false

open Text (Unbroken)

/-- A listing that shows what the token says tells it. -/
def Token.Content.Legible : Token.Content → Prop
  | .identifier x => Unbroken x
  | .number x => Number.Listed x
  | _ => True

theorem Lexeme.isNumeral_number {c : Char} (rest : List Char) (hc : Text.isDigit c = true) :
    Decimal.IsNumeral (((c :: rest).takeWhile continuesNumber).map Text.latinDigit) := by
  have hfirst : continuesNumber c = true := continuesNumber_iff.mpr (.inl hc)
  rw [List.takeWhile_cons_of_pos hfirst]
  exact isNumeral_latinDigit hc fun d hd => List.mem_takeWhile_imp hd

theorem Lexeme.legible_of_first? {cs : List Char} {x : Lexeme} (h : first? cs = some x) :
    x.content.Legible := by
  cases cs with
  | nil => cases h
  | cons c rest =>
    simp only [first?] at h
    repeat' split at h
    · next hdigit =>
      cases h
      have hnumeral := isNumeral_number rest hdigit
      exact ⟨Number.read_positionalText_read hnumeral,
        Number.newline_notMem_positionalText_read hnumeral⟩
    · cases h
      unfold word wordContent
      dsimp only
      split
      · trivial
      · refine Text.unbroken_of_continuesWord fun d hd => ?_
        rw [String.toList_ofList] at hd
        exact List.mem_takeWhile_imp hd
    · cases h; trivial
    · cases h
      unfold operator
      split
      · split <;> trivial
      · trivial
    · cases h; trivial
    · cases h

theorem Lexer.Scans.legible {l : Lexer} {ts : List Token} (h : l.Scans ts) :
    ∀ t ∈ ts, t.content.Legible := by
  have hstep : ∀ {l m : Lexer} {t : Token}, l.next = (.ok t, m) → t.content.Legible := by
    intro l m t hnext
    obtain ⟨gap, raw, hstep⟩ := step_of_next hnext
    rcases hstep.content with ⟨-, -, hend⟩ | hfirst
    · rw [hend]
      trivial
    · exact Lexeme.legible_of_first? hfirst
  induction h with
  | last hnext _ => exact List.forall_mem_singleton.mpr (hstep hnext)
  | cons hnext _ _ ih => exact List.forall_mem_cons.mpr ⟨hstep hnext, ih⟩

theorem Infix.unbroken_symbol (op : Infix) : Unbroken op.symbol := by
  cases op with
  | binary op => cases op <;> decide +kernel
  | logical op => cases op <;> decide +kernel

theorem UnaryOp.unbroken_symbol (op : UnaryOp) : Unbroken op.symbol := by
  cases op <;> decide +kernel

def Node.HeadLegible (ns : List Node) : Prop := ∀ n ∈ ns.head?, n.Legible

theorem Node.headLegible_cons {n : Node} {ns : List Node} (h : n.Legible) :
    HeadLegible (n :: ns) := by
  intro m hm
  obtain rfl := Option.some.inj hm
  exact h

open Node (HeadLegible headLegible_cons)

theorem Token.legible_of_content {ts : List Token} (hts : ∀ t ∈ ts, t.content.Legible) {t : Token}
    {c : Token.Content} (ht : t.content = c) (hmem : t ∈ ts) : c.Legible :=
  ht ▸ hts t hmem

theorem Expr.ReadFrom.headLegible {e : Expr} {ts : List Token} (h : e.ReadFrom ts)
    (hts : ∀ t ∈ ts, t.content.Legible) (depth : Nat) : HeadLegible (e.nodes depth) := by
  match h with
  | .number ht =>
    exact headLegible_cons ⟨rfl, Token.legible_of_content hts ht List.mem_cons_self⟩
  | .string _ => exact headLegible_cons ⟨rfl, trivial⟩
  | .reference ht =>
    exact headLegible_cons ⟨rfl, Token.legible_of_content hts ht List.mem_cons_self⟩
  | .call ht _ _ _ =>
    exact headLegible_cons ⟨rfl, Token.legible_of_content hts ht List.mem_cons_self⟩
  | .group _ he _ =>
    exact he.headLegible (fun t ht => hts t (.tail _ (List.mem_append_left _ ht))) depth
  | @Expr.ReadFrom.unary _ op _ _ _ _ => exact headLegible_cons ⟨rfl, op.unbroken_symbol⟩
  | @Expr.ReadFrom.joined _ (.binary op) _ _ _ _ _ _ _ =>
    exact headLegible_cons ⟨rfl, (Infix.binary op).unbroken_symbol⟩
  | @Expr.ReadFrom.joined _ (.logical op) _ _ _ _ _ _ _ =>
    exact headLegible_cons ⟨rfl, (Infix.logical op).unbroken_symbol⟩
  | .assign hx _ _ =>
    have hname := hx.headLegible (fun t ht => hts t (List.mem_append_left _ ht)) depth _ rfl
    exact headLegible_cons ⟨rfl, hname.payload⟩
termination_by structural h

theorem TypeName.ReadFrom.unbroken {n : TypeName} {ts : List Token} (h : n.ReadFrom ts)
    (hts : ∀ t ∈ ts, t.content.Legible) : Unbroken n.name := by
  obtain ⟨t, rfl, rfl, ⟨x, ht⟩ | ⟨script, ht⟩⟩ := h
  · have hname : t.text = x := congrArg Token.Content.text ht
    have hlegible : Token.Content.Legible (.identifier x) :=
      Token.legible_of_content hts ht List.mem_cons_self
    exact hname ▸ hlegible
  · have hname : t.text = Keyword.tensor.spelling script := congrArg Token.Content.text ht
    exact hname ▸ Text.unbroken_of_isWord (Print.isWord_spelling .tensor script)

theorem Stmt.ReadFrom.headLegible {s : Stmt} {ts : List Token} (h : s.ReadFrom ts)
    (hts : ∀ t ∈ ts, t.content.Legible) (depth : Nat) : HeadLegible (s.nodes depth) := by
  cases h with
  | function _ hname _ _ _ _ _ heq =>
    subst heq
    exact headLegible_cons ⟨rfl, Token.legible_of_content hts hname (.tail _ List.mem_cons_self)⟩
  | binding _ hname _ _ _ heq =>
    subst heq
    exact headLegible_cons ⟨rfl, Token.legible_of_content hts hname (.tail _ List.mem_cons_self)⟩
  | _ => exact headLegible_cons ⟨rfl, trivial⟩

theorem Piece.ReadFrom.legible {x : Piece} {ts : List Token} (h : x.ReadFrom ts)
    (hts : ∀ t ∈ ts, t.content.Legible) {n : Node} (hn : x.Heads n) : n.Legible := by
  have hhead : HeadLegible (x.nodes n.depth) := by
    cases x with
    | expr e => exact Expr.ReadFrom.headLegible h hts _
    | type t => exact headLegible_cons ⟨rfl, TypeName.ReadFrom.unbroken h hts⟩
    | result t => exact headLegible_cons ⟨rfl, TypeName.ReadFrom.unbroken h hts⟩
    | parameter p =>
      obtain ⟨t, us, rfl, ht, -⟩ := h.tokens
      exact headLegible_cons ⟨rfl, Token.legible_of_content hts ht List.mem_cons_self⟩
    | statement s => exact Stmt.ReadFrom.headLegible h hts _
    | block b =>
      obtain ⟨ss, sp⟩ := b
      exact headLegible_cons ⟨rfl, trivial⟩
  exact hhead n hn.1

theorem Node.Gathers.legible {n : Node} (h : n.Gathers) : n.Legible := by
  have hkind : n.kind.form = .none := by
    have hall : ∀ k ∈ [Kind.program, .parameters, .arguments], k.form = .none := by decide
    exact hall _ h.kind
  refine ⟨?_, ?_⟩
  · rw [h.payload, hkind]
    rfl
  · rw [h.payload]
    trivial

namespace Program

theorem legible_of_ofSource {source : String} {a : Program} (h : ofSource source = .ok a) :
    ∀ n ∈ a.nodes, n.Legible := by
  obtain ⟨all, hscan⟩ := scanAll_of_ofSource_ok h
  have hscans := Lexer.scans_of_scanAll hscan
  obtain ⟨ts, e, rfl, hread⟩ := readFrom_of_ofSource h hscans
  intro n hn
  rcases gathers_or_has hn with hgathers | ⟨x, hx, hheads⟩
  · exact hgathers.legible
  · obtain ⟨us, hus, hx⟩ := hx.exists_readFrom hread
    exact hx.legible (fun t ht => hscans.legible t (List.mem_append_left _ (hus.subset ht))) hheads

/-- The newlines in the listing of a parsed program divide it into one line for each node of its
outline, and the listing tells the program up to the spans: two programs with one listing have the same
bare tree. -/
theorem listing_unambiguous {source source' : String} {a b : Program} (ha : ofSource source = .ok a)
    (hb : ofSource source' = .ok b) :
    a.listing.toList.splitOn '\n' = (a.nodes.map fun n => n.line.toList) ++ [[]] ∧
      a.nodes.map Node.entry = a.outline.preorder 0 ∧ a.nodes.length = a.outline.size ∧
      (a.listing = b.listing → a.bare = b.bare) := by
  have hlegible := legible_of_ofSource ha
  refine ⟨Node.splitOn_listing hlegible, a.map_entry_nodes, a.length_nodes, ?_⟩
  exact bare_of_listing hlegible (legible_of_ofSource hb)

/-- Malformed numerals are listed alike, and a string may spell lines of a listing. -/
theorem listing_unambiguous_malformed :
    ∃ a b, ofSource "const x = f('a\nBlock', 1.5) + 1.2.3;" = .ok a ∧
      ofSource "const x = (f(\"a\nBlock\", 1.50)) + 4..5;" = .ok b ∧
      a.listing = "Program\n  VariableDeclaration const x\n    BinaryExpression +\n" ++
        "      FunctionCall f\n        Arguments\n          StringLiteral \"a\\nBlock\"\n" ++
        "          NumericLiteral 1.5\n      NumericLiteral NaN\n" ∧
      a.listing = b.listing ∧ a.bare = b.bare := by
  have hparse : ∀ source ∈ ["const x = f('a\nBlock', 1.5) + 1.2.3;",
      "const x = (f(\"a\nBlock\", 1.50)) + 4..5;"], (ofSource source).toOption.map listing = some
        ("Program\n  VariableDeclaration const x\n    BinaryExpression +\n" ++
          "      FunctionCall f\n        Arguments\n          StringLiteral \"a\\nBlock\"\n" ++
          "          NumericLiteral 1.5\n      NumericLiteral NaN\n") := by decide +kernel
  obtain ⟨a, ha, hlisting⟩ := Option.map_eq_some_iff.mp (hparse _ List.mem_cons_self)
  obtain ⟨b, hb, hlisting'⟩ := Option.map_eq_some_iff.mp (hparse _ (.tail _ List.mem_cons_self))
  have hsame : a.listing = b.listing := hlisting.trans hlisting'.symm
  have ha := eq_ok_of_toOption ha
  have hb := eq_ok_of_toOption hb
  exact ⟨a, b, ha, hb, hlisting, hsame, (listing_unambiguous ha hb).2.2.2 hsame⟩

end Program
end Dvilipi
