import Dvilipi.Proofs.Parser.Accepts
import Dvilipi.Proofs.Print.Derivation
import Dvilipi.Proofs.Print.Lexing

/-!
Parsing undoes printing. The tokens of a printable tree can all be spelled, so the text holds them
again, and they have a derivation with the tree that was printed.
-/

namespace Dvilipi
set_option autoImplicit false

namespace Print

open Grammar (commas optional)

def AllSpellable (us : List Token.Content) : Prop := ∀ c ∈ us, Spellable c

variable {us vs : List Token.Content} {c : Token.Content}

theorem AllSpellable.nil : AllSpellable [] := by
  intro c hc
  cases hc

theorem AllSpellable.cons (hc : Spellable c) (h : AllSpellable us) : AllSpellable (c :: us) :=
  List.forall_mem_cons.mpr ⟨hc, h⟩

theorem AllSpellable.append (h : AllSpellable us) (h' : AllSpellable vs) : AllSpellable (us ++ vs) :=
  List.forall_mem_append.mpr ⟨h, h'⟩

theorem AllSpellable.singleton (hc : Spellable c) : AllSpellable [c] := .cons hc .nil

theorem spellable_keyword (word : Keyword) (script : Script) : Spellable (.keyword word script) :=
  trivial

theorem spellable_operator {symbol : String}
    (h : IsSymbol symbol.toList := by decide +kernel) : Spellable (.operator symbol) := h

theorem spellable_delimiter {mark : Char} (h : Lexeme.isDelimiterMark mark = true := by decide) :
    Spellable (.delimiter mark) := h

theorem spellable_infixSymbol (op : Infix) : Spellable (.operator op.symbol) := by
  cases op with
  | binary op => cases op <;> exact spellable_operator
  | logical op => cases op <;> exact spellable_operator

theorem spellable_unarySymbol (op : UnaryOp) : Spellable (.operator op.symbol) := by
  cases op <;> exact spellable_operator

theorem AllSpellable.enclosed (h : AllSpellable us) (fits : Bool) :
    AllSpellable (enclosed fits us) := by
  cases fits with
  | true => exact h
  | false => exact .cons spellable_delimiter (h.append (.singleton spellable_delimiter))

theorem AllSpellable.commas {rows : List (List Token.Content)} (h : ∀ us ∈ rows, AllSpellable us) :
    AllSpellable (commas rows) := by
  fun_induction Grammar.commas rows with
  | case1 => exact .nil
  | case2 us => exact h us List.mem_cons_self
  | case3 us vs rows ih =>
    have hrest := ih fun ws hws => h ws (List.mem_cons_of_mem us hws)
    exact (h us List.mem_cons_self).append (.cons spellable_delimiter hrest)

theorem AllSpellable.optional {α : Type} (h : AllSpellable us) {tokens : α → List Token.Content}
    {o : Option α} (ho : ∀ a ∈ o, AllSpellable (tokens a)) :
    AllSpellable (optional us tokens o) := by
  cases o with
  | none => exact .nil
  | some a => exact h.append (ho a rfl)

theorem spellable_typeToken {t : TypeName} (h : t.Printable) : Spellable (typeToken t) := by
  unfold typeToken
  rcases h with h | ⟨script, h⟩
  · rw [h.2]
    exact h
  · rw [h, Keyword.ofWord?_spelling]
    trivial

theorem spellable_parameterTokens {p : Parameter} (h : p.Printable) :
    AllSpellable (parameterTokens p) := by
  apply AllSpellable.cons (c := .identifier p.name) h.1
  apply AllSpellable.optional (.singleton spellable_delimiter)
  intro t ht
  exact .singleton (spellable_typeToken (h.2 t ht))

theorem spellable_infixTokens (op : Infix) {left right : Nat → List Token.Content}
    (hleft : ∀ bound, AllSpellable (left bound)) (hright : ∀ bound, AllSpellable (right bound))
    (bound : Nat) : AllSpellable (infixTokens op bound left right) := by
  apply AllSpellable.enclosed
  apply (hleft (op.level + 1)).append
  exact .cons (spellable_infixSymbol op) (hright op.level)

mutual

theorem spellable_exprTokens (e : Expr) (h : e.Printable) (bound : Nat) :
    AllSpellable (exprTokens e bound) := by
  match e with
  | .number x _ => exact .singleton (c := .number x) h
  | .string text _ => exact .singleton (c := .string text) trivial
  | .reference x _ => exact .singleton (c := .identifier x) h
  | .assign x e _ =>
    apply AllSpellable.enclosed
    apply AllSpellable.cons (c := .identifier x) h.1
    apply AllSpellable.cons spellable_operator
    exact spellable_exprTokens e h.2 (Infix.levels + 1)
  | .binary op a b _ =>
    exact spellable_infixTokens (.binary op) (spellable_exprTokens a h.1)
      (spellable_exprTokens b h.2) bound
  | .logical op a b _ =>
    exact spellable_infixTokens (.logical op) (spellable_exprTokens a h.1)
      (spellable_exprTokens b h.2) bound
  | .unary op e _ => exact .cons (spellable_unarySymbol op) (spellable_exprTokens e h 0)
  | .call f es _ =>
    apply AllSpellable.cons (c := .identifier f) h.1
    apply AllSpellable.cons spellable_delimiter
    have harguments := AllSpellable.commas (spellable_listTokens es h.2)
    exact harguments.append (.singleton spellable_delimiter)
termination_by structural e

theorem spellable_listTokens (es : List Expr) (h : Expr.PrintableList es) :
    ∀ us ∈ listTokens es, AllSpellable us := by
  match es with
  | [] =>
    intro us hus
    cases hus
  | e :: es =>
    have hfirst := spellable_exprTokens e h.1 (Infix.levels + 1)
    exact List.forall_mem_cons.mpr ⟨hfirst, spellable_listTokens es h.2⟩
termination_by structural es

end

theorem spellable_fullTokens {e : Expr} (h : e.Printable) : AllSpellable (fullTokens e) :=
  spellable_exprTokens e h (Infix.levels + 1)

theorem spellable_optionalType {us : List Token.Content} (hus : AllSpellable us) {o : Option TypeName}
    (h : ∀ t ∈ o, t.Printable) : AllSpellable (optional us (fun t => [typeToken t]) o) :=
  .optional hus fun t ht => .singleton (spellable_typeToken (h t ht))

variable (style : Style)

mutual

theorem spellable_stmtTokens (s : Stmt) (h : s.Printable) : AllSpellable (stmtTokens style s) := by
  match s with
  | .function f ps result body _ =>
    have hparameters : AllSpellable (commas (ps.map parameterTokens)) := by
      apply AllSpellable.commas
      intro us hus
      obtain ⟨p, hp, rfl⟩ := List.mem_map.mp hus
      exact spellable_parameterTokens (h.2.1 p hp)
    have harrow : AllSpellable [.operator "-", .operator ">"] :=
      .cons spellable_operator (.singleton spellable_operator)
    have hresult := spellable_optionalType harrow h.2.2.1
    have hbody := spellable_blockTokens body h.2.2.2
    apply AllSpellable.cons (spellable_keyword _ style.script)
    apply AllSpellable.cons (c := .identifier f) h.1
    apply AllSpellable.cons spellable_delimiter
    apply hparameters.append
    apply AllSpellable.cons spellable_delimiter
    exact hresult.append hbody
  | .binding x constant type initial _ =>
    have hcolon : AllSpellable [.delimiter ':'] := .singleton spellable_delimiter
    have htype := spellable_optionalType hcolon h.2.1
    have hinitial : AllSpellable (optional [.operator "="] fullTokens initial) :=
      .optional (.singleton spellable_operator) fun e he => spellable_fullTokens (h.2.2 e he)
    apply AllSpellable.cons (spellable_keyword _ style.script)
    apply AllSpellable.cons (c := .identifier x) h.1
    apply htype.append
    exact hinitial.append (.singleton spellable_delimiter)
  | .expression e _ => exact (spellable_fullTokens h).append (.singleton spellable_delimiter)
  | .ifThen c yes _ =>
    apply AllSpellable.cons (spellable_keyword _ style.script)
    exact (spellable_fullTokens h.1).append (spellable_blockTokens yes h.2)
  | .ifElse c yes (.mk ss span) _ =>
    have hno := spellable_stmtsTokens ss h.2.2
    have helse : AllSpellable (if style.chained && isConditional ss then stmtsTokens style ss
        else .delimiter '\x7b' :: (stmtsTokens style ss ++ [.delimiter '\x7d'])) := by
      split
      · exact hno
      · exact .cons spellable_delimiter (hno.append (.singleton spellable_delimiter))
    apply AllSpellable.cons (spellable_keyword _ style.script)
    apply (spellable_fullTokens h.1).append
    apply (spellable_blockTokens yes h.2.1).append
    exact .cons (spellable_keyword .else_ style.script) helse
  | .while_ c body _ =>
    apply AllSpellable.cons (spellable_keyword _ style.script)
    exact (spellable_fullTokens h.1).append (spellable_blockTokens body h.2)
  | .return_ value _ =>
    have hvalue : AllSpellable (optional [] fullTokens value) :=
      .optional .nil fun e he => spellable_fullTokens (h e he)
    apply AllSpellable.cons (spellable_keyword _ style.script)
    exact hvalue.append (.singleton spellable_delimiter)
termination_by structural s

theorem spellable_blockTokens (b : Block) (h : b.Printable) : AllSpellable (blockTokens style b) := by
  match b with
  | .mk ss _ =>
    have hss := spellable_stmtsTokens ss h
    exact .cons spellable_delimiter (hss.append (.singleton spellable_delimiter))
termination_by structural b

theorem spellable_stmtsTokens (ss : List Stmt) (h : Stmt.PrintableList ss) :
    AllSpellable (stmtsTokens style ss) := by
  match ss with
  | [] => exact .nil
  | s :: ss => exact (spellable_stmtTokens s h.1).append (spellable_stmtsTokens ss h.2)
termination_by structural ss

end

theorem isQuoteMark_quote : Lexeme.isQuoteMark (quote style) = true := by
  unfold quote
  split
  · rfl
  · rfl

end Print

namespace Program

/-- Whatever the style, the printed text of a tree is parsed as the tree, spans apart. -/
theorem ofSource_print (style : Print.Style) (p : Program) (h : p.Printable) :
    (ofSource (Print.program style p)).map bare = .ok p.bare := by
  obtain ⟨ds, hds, hts⟩ := Print.derives_stmtsTokens style p.statements h
  have hspellable := Print.spellable_stmtsTokens style p.statements h
  have hrest : (Lexer.ofSource (Print.program style p)).rest =
      Print.spaced (Print.quote style) (Print.stmtsTokens style p.statements) := String.toList_ofList
  obtain ⟨ts, hscans, hcontents⟩ :=
    Print.scans_spaced (Print.isQuoteMark_quote style) hspellable (.inl hrest)
  have htree : (Grammar.Program.mk ds).tree? = some p.bare := by
    simp [Grammar.Program.tree?, hts, bare]
  obtain ⟨a, ha, hbare⟩ := ofSource_of_derivation hscans (hds.trans hcontents.symm) htree
  rw [ha, ← hbare]
  rfl

/-- An assignment below an operator, a quotation mark in a string, a conditional alone after `else`. -/
theorem ofSource_print_devanagari : ∃ p : Program,
    Print.program ⟨.devanagari, true, true⟩ p =
      "यदि ( a = 1.5 ) * - b == 'it\\'s' \x7b \x7d अन्यथा यदि f ( ) \x7b प्रतिफल a ; \x7d" ∧
    p.Printable ∧ (ofSource (Print.program ⟨.devanagari, true, true⟩ p)).map bare = .ok p.bare := by
  have ha : IsName "a" := by decide +kernel
  have hb : IsName "b" := by decide +kernel
  have hf : IsName "f" := by decide +kernel
  have hnumber : Number.IsPlain 1.5 := by decide +kernel
  let condition : Expr := .binary .equal (.binary .multiply (.assign "a" (.number 1.5 .blank) .blank)
    (.unary .negate (.reference "b" .blank) .blank) .blank) (.string "it's" .blank) .blank
  let no : Stmt := .ifThen (.call "f" [] .blank)
    (.mk [.return_ (some (.reference "a" .blank)) .blank] .blank) .blank
  let p : Program := ⟨[.ifElse condition (.mk [] .blank) (.mk [no] .blank) .blank]⟩
  have hcondition : condition.Printable := ⟨⟨⟨ha, hnumber⟩, hb⟩, trivial⟩
  have hreturn : ∀ e ∈ some (Expr.reference "a" .blank), e.Printable := by
    rintro e ⟨⟩
    exact ha
  have hno : no.Printable := ⟨⟨hf, trivial⟩, hreturn, trivial⟩
  have hp : p.Printable := show Stmt.PrintableList p.statements from
    ⟨⟨hcondition, trivial, hno, trivial⟩, trivial⟩
  exact ⟨p, by decide +kernel, hp, ofSource_print _ p hp⟩

end Program
end Dvilipi
