import Dvilipi.Proofs.Grammar.Alphabet
import Dvilipi.Proofs.Token.Respelling
import Dvilipi.Proofs.Tree.Types

/-!
Derivations do not depend on the script of the words. If tokens are derived, so are the tokens with
words in other scripts, and the tree is the same but for the spelling of a type.
-/

namespace Dvilipi.Grammar
set_option autoImplicit false

/-- The same tokens, but for the scripts of words. -/
def Rewritten (us vs : List Token.Content) : Prop :=
  vs.map Token.Content.latinized = us.map Token.Content.latinized

variable {us vs : List Token.Content}

namespace Rewritten

theorem plain {c d : Token.Content} (hc : IsPlain c) (h : d.latinized = c.latinized) : d = c := by
  cases c with
  | keyword => exact hc.elim
  | endOfInput => exact hc.elim
  | _ => cases d <;> simp_all [Token.Content.latinized]

theorem nil (h : Rewritten [] vs) : vs = [] := List.map_eq_nil_iff.mp h

theorem append {ws : List Token.Content} (h : Rewritten (us ++ ws) vs) :
    ∃ xs ys, vs = xs ++ ys ∧ Rewritten us xs ∧ Rewritten ws ys := by
  rw [Rewritten, List.map_append] at h
  exact List.map_eq_append_iff.mp h

theorem cons {c : Token.Content} (h : Rewritten (c :: us) vs) (hc : IsPlain c) :
    ∃ ws, vs = c :: ws ∧ Rewritten us ws := by
  obtain ⟨d, ws, rfl, hd, hws⟩ := List.map_eq_cons_iff.mp h
  exact ⟨ws, by rw [plain hc hd], hws⟩

theorem keyword {word : Keyword} {script : Script}
    (h : Rewritten (.keyword word script :: us) vs) :
    ∃ script' ws, vs = .keyword word script' :: ws ∧ Rewritten us ws := by
  obtain ⟨d, ws, rfl, hd, hws⟩ := List.map_eq_cons_iff.mp h
  cases d with
  | keyword word' script' =>
    obtain rfl : word' = word := (Token.Content.keyword.inj hd).1
    exact ⟨script', ws, rfl, hws⟩
  | _ => simp [Token.Content.latinized] at hd

theorem eq_of_plain (h : Rewritten us vs) (hus : ∀ c ∈ us, IsPlain c) : vs = us := by
  induction us generalizing vs with
  | nil => exact h.nil
  | cons c us ih =>
    obtain ⟨hc, hus⟩ := List.forall_mem_cons.mp hus
    obtain ⟨ws, rfl, hws⟩ := h.cons hc
    rw [ih hws hus]

end Rewritten

section

variable {α β : Type} {tokens : α → List Token.Content} {view : α → β}

theorem optional_rewritten {before : List Token.Content} (hbefore : ∀ c ∈ before, IsPlain c)
    (htokens : ∀ a vs, Rewritten (tokens a) vs → ∃ b, tokens b = vs ∧ view b = view a)
    (o : Option α) (h : Rewritten (optional before tokens o) vs) :
    ∃ o', optional before tokens o' = vs ∧ o'.map view = o.map view := by
  cases o with
  | none => exact ⟨none, h.nil.symm, rfl⟩
  | some a =>
    obtain ⟨xs, ys, rfl, hxs, hys⟩ := h.append
    obtain ⟨b, rfl, hb⟩ := htokens a ys hys
    exact ⟨some b, by rw [hxs.eq_of_plain hbefore]; rfl, congrArg some hb⟩

theorem commas_rewritten
    (htokens : ∀ a vs, Rewritten (tokens a) vs → ∃ b, tokens b = vs ∧ view b = view a)
    (as : List α) (h : Rewritten (commas (as.map tokens)) vs) :
    ∃ bs : List α, commas (bs.map tokens) = vs ∧ bs.map view = as.map view := by
  induction as generalizing vs with
  | nil => exact ⟨[], h.nil.symm, rfl⟩
  | cons a as ih =>
    cases as with
    | nil =>
      obtain ⟨b, rfl, hb⟩ := htokens a vs h
      exact ⟨[b], rfl, congrArg (fun x => [x]) hb⟩
    | cons a' as =>
      obtain ⟨xs, ys, rfl, hxs, hys⟩ := Rewritten.append h
      obtain ⟨zs, rfl, hzs⟩ := hys.cons trivial
      obtain ⟨b, rfl, hb⟩ := htokens a xs hxs
      obtain ⟨bs, rfl, hbs⟩ := ih hzs
      cases bs with
      | nil => simp at hbs
      | cons b' bs => exact ⟨b :: b' :: bs, rfl, congrArg₂ List.cons hb hbs⟩

end

/-- The tree of a type, in Latin letters if it is a word. -/
abbrev TypeName.latinTree (t : TypeName) : Dvilipi.TypeName := t.tree.latinized

theorem TypeName.rewritten (t : TypeName) (vs : List Token.Content)
    (h : Rewritten [t.content] vs) :
    ∃ u : TypeName, [u.content] = vs ∧ u.latinTree = t.latinTree := by
  cases t with
  | name x =>
    obtain ⟨ws, rfl, hws⟩ := h.cons trivial
    exact ⟨.name x, by rw [hws.nil, content], rfl⟩
  | tensor script =>
    obtain ⟨script', ws, rfl, hws⟩ := h.keyword
    refine ⟨.tensor script', by rw [hws.nil, content], ?_⟩
    exact (Dvilipi.TypeName.latinized_tensor script' .blank).trans
      (Dvilipi.TypeName.latinized_tensor script .blank).symm

theorem ascription_rewritten (t : Option TypeName) (h : Rewritten (ascriptionTokens t) vs) :
    ∃ u, ascriptionTokens u = vs ∧ u.map TypeName.latinTree = t.map TypeName.latinTree :=
  optional_rewritten (by simp [IsPlain]) TypeName.rewritten t h

theorem result_rewritten (t : Option TypeName) (h : Rewritten (resultTokens t) vs) :
    ∃ u, resultTokens u = vs ∧ u.map TypeName.latinTree = t.map TypeName.latinTree :=
  optional_rewritten (by simp [IsPlain]) TypeName.rewritten t h

abbrev Parameter.latinTree (p : Parameter) : Dvilipi.Parameter :=
  p.tree.mapType Dvilipi.TypeName.latinized

theorem Parameter.rewritten (p : Parameter) (vs : List Token.Content)
    (h : Rewritten p.tokens vs) :
    ∃ q : Parameter, q.tokens = vs ∧ q.latinTree = p.latinTree := by
  obtain ⟨ws, rfl, hws⟩ := Rewritten.cons h trivial
  obtain ⟨u, rfl, hu⟩ := ascription_rewritten p.ascription hws
  refine ⟨⟨p.name, u⟩, rfl, ?_⟩
  simp only [latinTree, tree, Dvilipi.Parameter.mapType, Option.map_map]
  exact congrArg (Dvilipi.Parameter.mk p.name · .blank) hu

/-- The trees are the same but for the spelling of a type. -/
abbrev SameStmt (s t : Stmt) : Prop :=
  t.mapTypes Dvilipi.TypeName.latinized = s.mapTypes Dvilipi.TypeName.latinized

abbrev SameBlock (b c : Dvilipi.Block) : Prop :=
  c.mapTypes Dvilipi.TypeName.latinized = b.mapTypes Dvilipi.TypeName.latinized

abbrev SameStmts (ss ts : List Stmt) : Prop :=
  Stmt.mapTypesList Dvilipi.TypeName.latinized ts = Stmt.mapTypesList Dvilipi.TypeName.latinized ss

theorem same_function {f : String} {ps ps' : List Parameter} {r r' : Option TypeName}
    {b b' : Dvilipi.Block} (hps : ps'.map Parameter.latinTree = ps.map Parameter.latinTree)
    (hr : r'.map TypeName.latinTree = r.map TypeName.latinTree) (hb : SameBlock b b') :
    SameStmt (.function f (ps.map Parameter.tree) (r.map TypeName.tree) b .blank)
      (.function f (ps'.map Parameter.tree) (r'.map TypeName.tree) b' .blank) := by
  simp only [SameStmt, Stmt.mapTypes, List.map_map, Option.map_map]
  change Stmt.function f (ps'.map Parameter.latinTree) (r'.map TypeName.latinTree) _ _ = _
  rw [hps, hr, hb]
  rfl

theorem same_binding {x : String} {constant : Bool} {t t' : Option TypeName} {e : Option Expr}
    (ht : t'.map TypeName.latinTree = t.map TypeName.latinTree) :
    SameStmt (.binding x constant (t.map TypeName.tree) e .blank)
      (.binding x constant (t'.map TypeName.tree) e .blank) := by
  simp only [SameStmt, Stmt.mapTypes, Option.map_map]
  exact congrArg (Stmt.binding x constant · e .blank) ht

mutual

/-- Where the tokens of a statement are rewritten, the pieces of each part are cut off in turn, and the
parts are put together with the new scripts. -/
theorem Statement.rewritten : ∀ (d : Statement) {vs : List Token.Content}, Rewritten d.tokens vs →
    ∃ d' : Statement, d'.tokens = vs ∧
      ∀ s, d.tree? = some s → ∃ t, d'.tree? = some t ∧ SameStmt s t
  | .function script f ps r body, vs, h => by
    obtain ⟨script', vs, rfl, hname⟩ := Rewritten.keyword h
    obtain ⟨vs, rfl, hopen⟩ := hname.cons trivial
    obtain ⟨vs, rfl, hlist⟩ := hopen.cons trivial
    obtain ⟨xs, vs, rfl, hps, hclose⟩ := hlist.append
    obtain ⟨vs, rfl, hrest⟩ := hclose.cons trivial
    obtain ⟨ys, zs, rfl, hr, hbody⟩ := hrest.append
    obtain ⟨ps', rfl, hps'⟩ := commas_rewritten Parameter.rewritten ps hps
    obtain ⟨r', rfl, hr'⟩ := result_rewritten r hr
    obtain ⟨body', rfl, hbody'⟩ := body.rewritten hbody
    refine ⟨.function script' f ps' r' body', rfl, fun s hs => ?_⟩
    simp only [Statement.tree?] at hs ⊢
    split at hs
    · next b hb =>
      cases hs
      obtain ⟨c, hc, hsame⟩ := hbody' b hb
      exact ⟨_, by rw [hc], same_function hps' hr' hsame⟩
    · cases hs
  | .binding constant script x t e, vs, h => by
    obtain ⟨script', vs, rfl, hname⟩ := Rewritten.keyword h
    obtain ⟨vs, rfl, hrest⟩ := hname.cons trivial
    obtain ⟨xs, vs, rfl, ht, hinitial⟩ := hrest.append
    obtain ⟨t', rfl, ht'⟩ := ascription_rewritten t ht
    have hplain : ∀ c ∈ initialTokens e ++ [.delimiter ';'], IsPlain c :=
      List.forall_mem_append.mpr
        ⟨forall_optional (by simp [IsPlain]) fun e _ => e.tokens_plain, by simp [IsPlain]⟩
    obtain rfl := hinitial.eq_of_plain hplain
    refine ⟨.binding constant script' x t' e, rfl, fun s hs => ?_⟩
    obtain ⟨e, he, rfl⟩ := Option.map_eq_some_iff.mp hs
    exact ⟨_, by rw [Statement.tree?, he, Option.map_some], same_binding ht'⟩
  | .conditional c, vs, h => by
    obtain ⟨c', rfl, hc⟩ := c.rewritten h
    exact ⟨.conditional c', rfl, hc⟩
  | .loop script c body, vs, h => by
    obtain ⟨script', vs, rfl, hrest⟩ := Rewritten.keyword h
    obtain ⟨xs, ys, rfl, hc, hbody⟩ := hrest.append
    obtain rfl := hc.eq_of_plain c.tokens_plain
    obtain ⟨body', rfl, hbody'⟩ := body.rewritten hbody
    refine ⟨.loop script' c body', rfl, fun s hs => ?_⟩
    simp only [Statement.tree?] at hs ⊢
    split at hs
    · next e b he hb =>
      cases hs
      obtain ⟨b', hb', hsame⟩ := hbody' b hb
      exact ⟨.while_ e b' .blank, by rw [he, hb'], congrArg (Stmt.while_ e · .blank) hsame⟩
    · cases hs
  | .leave script e, vs, h => by
    obtain ⟨script', vs, rfl, hrest⟩ := Rewritten.keyword h
    have hplain : ∀ c ∈ optional [] Expression.tokens e ++ [.delimiter ';'], IsPlain c :=
      List.forall_mem_append.mpr
        ⟨forall_optional (by simp) fun e _ => e.tokens_plain, by simp [IsPlain]⟩
    obtain rfl := hrest.eq_of_plain hplain
    exact ⟨.leave script' e, rfl, fun s hs => ⟨s, hs, rfl⟩⟩
  | .expression e, vs, h => by
    have hplain : ∀ c ∈ e.tokens ++ [.delimiter ';'], IsPlain c :=
      List.forall_mem_append.mpr ⟨e.tokens_plain, by simp [IsPlain]⟩
    obtain rfl := Rewritten.eq_of_plain h hplain
    exact ⟨.expression e, rfl, fun s hs => ⟨s, hs, rfl⟩⟩

theorem Conditional.rewritten : ∀ (d : Conditional) {vs : List Token.Content},
    Rewritten d.tokens vs → ∃ d' : Conditional, d'.tokens = vs ∧
      ∀ s, d.tree? = some s → ∃ t, d'.tree? = some t ∧ SameStmt s t
  | .mk script c yes otherwise, vs, h => by
    obtain ⟨script', vs, rfl, hrest⟩ := Rewritten.keyword h
    obtain ⟨xs, vs, rfl, hc, hblocks⟩ := hrest.append
    obtain ⟨ys, zs, rfl, hyes, hotherwise⟩ := hblocks.append
    obtain rfl := hc.eq_of_plain c.tokens_plain
    obtain ⟨yes', rfl, hyes'⟩ := yes.rewritten hyes
    obtain ⟨otherwise', rfl, hotherwise'⟩ := otherwise.rewritten hotherwise
    refine ⟨.mk script' c yes' otherwise', rfl, fun s hs => ?_⟩
    simp only [Conditional.tree?] at hs ⊢
    split at hs
    · next e b he hb =>
      obtain ⟨b', hb', hsame⟩ := hyes' b hb
      obtain ⟨t, ht, hst⟩ := hotherwise' e b b' s hsame hs
      exact ⟨t, by rw [he, hb']; exact ht, hst⟩
    · cases hs

theorem Alternative.rewritten : ∀ (d : Alternative) {vs : List Token.Content},
    Rewritten d.tokens vs → ∃ d' : Alternative, d'.tokens = vs ∧
      ∀ e b b' s, SameBlock b b' → d.tree? e b = some s →
        ∃ t, d'.tree? e b' = some t ∧ SameStmt s t
  | .absent, vs, h => by
    refine ⟨.absent, h.nil.symm, fun e b b' s hsame hs => ?_⟩
    cases hs
    exact ⟨_, rfl, congrArg (Stmt.ifThen e · .blank) hsame⟩
  | .block script no, vs, h => by
    obtain ⟨script', vs, rfl, hno⟩ := Rewritten.keyword h
    obtain ⟨no', rfl, hno'⟩ := no.rewritten hno
    refine ⟨.block script' no', rfl, fun e b b' s hsame hs => ?_⟩
    simp only [Alternative.tree?] at hs ⊢
    split at hs
    · next c hc =>
      cases hs
      obtain ⟨c', hc', hsame'⟩ := hno' c hc
      exact ⟨.ifElse e b' c' .blank, by rw [hc'],
        congrArg₂ (Stmt.ifElse e · · .blank) hsame hsame'⟩
    · cases hs
  | .conditional script c, vs, h => by
    obtain ⟨script', vs, rfl, hc⟩ := Rewritten.keyword h
    obtain ⟨c', rfl, hc'⟩ := c.rewritten hc
    refine ⟨.conditional script' c', rfl, fun e b b' s hsame hs => ?_⟩
    simp only [Alternative.tree?] at hs ⊢
    split at hs
    · next stmt hstmt =>
      cases hs
      obtain ⟨stmt', hstmt', hsame'⟩ := hc' stmt hstmt
      exact ⟨.ifElse e b' (.mk [stmt'] .blank) .blank, by rw [hstmt'],
        congrArg₂ (fun b s => Stmt.ifElse e b (.mk [s] .blank) .blank) hsame hsame'⟩
    · cases hs

theorem Block.rewritten : ∀ (d : Block) {vs : List Token.Content}, Rewritten d.tokens vs →
    ∃ d' : Block, d'.tokens = vs ∧
      ∀ b, d.tree? = some b → ∃ c, d'.tree? = some c ∧ SameBlock b c
  | .mk ss, vs, h => by
    obtain ⟨vs, rfl, hrest⟩ := Rewritten.cons h trivial
    obtain ⟨xs, ys, rfl, hss, hlast⟩ := hrest.append
    obtain rfl := hlast.eq_of_plain (by simp [IsPlain])
    obtain ⟨ss', rfl, hss'⟩ := Statement.list_rewritten ss hss
    refine ⟨.mk ss', rfl, fun b hb => ?_⟩
    simp only [Block.tree?] at hb ⊢
    split at hb
    · next ts hts =>
      cases hb
      obtain ⟨ts', hts', hsame⟩ := hss' ts hts
      exact ⟨.mk ts' .blank, by rw [hts'], congrArg (Dvilipi.Block.mk · .blank) hsame⟩
    · cases hb

theorem Statement.list_rewritten : ∀ (ds : List Statement) {vs : List Token.Content},
    Rewritten (Statement.tokensOfList ds) vs →
      ∃ ds' : List Statement, Statement.tokensOfList ds' = vs ∧
        ∀ ss, Statement.treeOfList? ds = some ss →
          ∃ ts, Statement.treeOfList? ds' = some ts ∧ SameStmts ss ts
  | [], vs, h => ⟨[], h.nil.symm, fun ss hss => ⟨ss, hss, rfl⟩⟩
  | d :: ds, vs, h => by
    obtain ⟨xs, ys, rfl, hd, hds⟩ := Rewritten.append h
    obtain ⟨d', rfl, hd'⟩ := d.rewritten hd
    obtain ⟨ds', rfl, hds'⟩ := Statement.list_rewritten ds hds
    refine ⟨d' :: ds', rfl, fun ss hss => ?_⟩
    simp only [Statement.treeOfList?] at hss ⊢
    split at hss
    · next t ts ht hts =>
      cases hss
      obtain ⟨t', ht', hsame⟩ := hd' t ht
      obtain ⟨ts', hts', hsames⟩ := hds' ts hts
      exact ⟨t' :: ts', by rw [ht', hts'], congrArg₂ List.cons hsame hsames⟩
    · cases hss

end

theorem Program.rewritten (d : Program) (h : Rewritten d.tokens vs) {p : Dvilipi.Program}
    (hp : d.tree? = some p) : ∃ d' : Program, d'.tokens = vs ∧
      ∃ q, d'.tree? = some q ∧ q.latinized = p.latinized := by
  obtain ⟨ds, rfl, hds⟩ := Statement.list_rewritten d.statements h
  obtain ⟨ss, hss, rfl⟩ := Option.map_eq_some_iff.mp hp
  obtain ⟨ts, hts, hsame⟩ := hds ss hss
  exact ⟨⟨ds⟩, rfl, ⟨ts⟩, by rw [tree?, hts]; rfl, congrArg Dvilipi.Program.mk hsame⟩

end Dvilipi.Grammar
