import Mathlib.Data.List.Nodup
import Dvilipi.Proofs.Number.Listed
import Dvilipi.Proofs.Print.Lexing
import Dvilipi.Proofs.Text.Quoted
import Dvilipi.Proofs.Tree.Outline

/-!
Listings can be read back. In a line the blanks in front tell the depth of the node, the word behind
them its kind, and what follows its payload, provided that names have no blanks in them and numbers can
be read back. Lines hold no newline, so a listing tells where they end.
-/

namespace Dvilipi
set_option autoImplicit false

/-- A text without blanks and newlines. -/
def Text.Unbroken (x : String) : Prop := ∀ c ∈ x.toList, c ≠ ' ' ∧ c ≠ '\n'

instance : DecidablePred Text.Unbroken := fun x =>
  decidable_of_iff (x.toList.all (fun c => decide (c ≠ ' ' ∧ c ≠ '\n')) = true)
    (by simp [Text.Unbroken])

theorem Text.unbroken_of_continuesWord {x : String}
    (h : ∀ c ∈ x.toList, Text.continuesWord c = true) : Unbroken x := by
  intro c hc
  constructor
  · rintro rfl
    exact absurd (h ' ' hc) (by decide)
  · rintro rfl
    exact absurd (h '\n' hc) (by decide)

theorem Text.unbroken_of_isWord {x : String} (h : IsWord x.toList) : Unbroken x := by
  refine unbroken_of_continuesWord fun c hc => ?_
  cases hx : x.toList with
  | nil =>
    rw [hx] at hc
    cases hc
  | cons d ds =>
    rw [hx] at h hc
    rcases List.mem_cons.mp hc with rfl | hc
    · exact Text.continuesWord_of_startsWord h.1
    · exact List.all_eq_true.mp h.2.2 c hc

/-- A number that its text stands for. -/
structure Number.Listed (x : Float) : Prop where
  reads : Decimal.read (positionalText x).toList = x
  line : '\n' ∉ (positionalText x).toList

namespace Node

open Text (Unbroken)

inductive Form where
  | none
  | name
  | binding
  | number
  | text
  | symbol
  deriving DecidableEq

def Payload.form : Payload → Form
  | .none => .none
  | .name _ => .name
  | .binding _ _ => .binding
  | .number _ => .number
  | .text _ => .text
  | .symbol _ => .symbol

def Kind.form : Kind → Form
  | .functionDeclaration | .parameter | .assignmentExpression | .functionCall | .identifier
  | .type | .returnType => .name
  | .variableDeclaration => .binding
  | .numericLiteral => .number
  | .stringLiteral => .text
  | .binaryExpression | .unaryExpression | .logicalExpression => .symbol
  | .program | .parameters | .block | .expressionStatement | .ifStatement | .whileStatement
  | .returnStatement | .arguments => .none

/-- What is shown of the payload tells it from others of its form. -/
def Payload.Legible : Payload → Prop
  | .none => True
  | .name x => Unbroken x
  | .binding x _ => Unbroken x
  | .number x => Number.Listed x
  | .text _ => True
  | .symbol op => Unbroken op

/-- A node whose line tells all of it but its span. -/
structure Legible (n : Node) : Prop where
  form : n.payload.form = n.kind.form
  payload : n.payload.Legible

theorem const_ne {x : String} (h : Unbroken x) (y : String) : "const " ++ y ≠ x := by
  rintro rfl
  have hblank : ' ' ∈ ("const " ++ y).toList := by
    rw [String.toList_append]
    exact List.mem_append_left _ (by decide)
  exact (h ' ' hblank).1 rfl

theorem Payload.eq_of_shown {p q : Payload} (hform : p.form = q.form) (hp : p.Legible)
    (hq : q.Legible) (h : p.shown? = q.shown?) : p = q := by
  match p, q with
  | .none, .none => rfl
  | .name x, .name y => exact congrArg Payload.name (Option.some.inj h)
  | .binding x false, .binding y false =>
    exact congrArg (Payload.binding · false) (Option.some.inj h)
  | .binding x false, .binding y true => exact absurd (Option.some.inj h).symm (const_ne hp y)
  | .binding x true, .binding y false => exact absurd (Option.some.inj h) (const_ne hq x)
  | .binding x true, .binding y true =>
    have hshown : "const " ++ x = "const " ++ y := Option.some.inj h
    have hchars := congrArg String.toList hshown
    rw [String.toList_append, String.toList_append] at hchars
    rw [String.toList_injective (List.append_cancel_left hchars)]
  | .number x, .number y =>
    have htext : Number.positionalText x = Number.positionalText y := Option.some.inj h
    have hreads := hp.reads
    rw [htext, hq.reads] at hreads
    rw [hreads]
  | .text t, .text u => rw [Text.quoted_injective (Option.some.inj h)]
  | .symbol op, .symbol op' => exact congrArg Payload.symbol (Option.some.inj h)

theorem Payload.newline_notMem {p : Payload} (hp : p.Legible) {shown : String}
    (h : p.shown? = some shown) : '\n' ∉ shown.toList := by
  cases p with
  | none => cases h
  | name x =>
    cases h
    exact fun hmem => (hp _ hmem).2 rfl
  | binding x constant =>
    cases h
    have hname : '\n' ∉ x.toList := fun hmem => (hp _ hmem).2 rfl
    cases constant with
    | false => exact hname
    | true =>
      have hconst : '\n' ∉ "const ".toList := by decide
      rw [if_pos rfl, String.toList_append, List.mem_append, not_or]
      exact ⟨hconst, hname⟩
  | number x =>
    cases h
    exact hp.line
  | text t =>
    cases h
    exact Text.newline_notMem_quoted t
  | symbol op =>
    cases h
    exact fun hmem => (hp _ hmem).2 rfl

namespace Kind

def all : List Kind :=
  [program, functionDeclaration, variableDeclaration, parameters, parameter, block,
    expressionStatement, ifStatement, whileStatement, returnStatement, binaryExpression,
    unaryExpression, logicalExpression, assignmentExpression, functionCall, arguments, identifier,
    numericLiteral, stringLiteral, type, returnType]

theorem mem_all (k : Kind) : k ∈ all := by cases k <;> decide

theorem title_injective {k l : Kind} (h : k.title = l.title) : k = l := by
  have hnodup : (all.map title).Nodup := by decide +kernel
  exact List.inj_on_of_nodup_map hnodup k.mem_all l.mem_all h

theorem isWord_title (k : Kind) : IsWord k.title.toList := by cases k <;> decide +kernel

theorem unbroken_title (k : Kind) : Unbroken k.title := Text.unbroken_of_isWord k.isWord_title

theorem title_ne_nil (k : Kind) : k.title.toList ≠ [] := by
  intro h
  have hword := k.isWord_title
  rw [h] at hword
  exact hword

end Kind

/-- What follows the title. -/
def tail : Option String → List Char
  | none => []
  | some shown => ' ' :: shown.toList

theorem tail_injective {s s' : Option String} (h : tail s = tail s') : s = s' := by
  match s, s' with
  | none, none => rfl
  | none, some _ => cases h
  | some _, none => cases h
  | some _, some _ => rw [String.toList_injective (List.cons.inj h).2]

theorem line_toList (n : Node) : n.line.toList =
    List.replicate (2 * n.depth) ' ' ++ (n.kind.title.toList ++ tail n.payload.shown?) := by
  unfold line
  cases n.payload.shown? with
  | none => simp [tail]
  | some shown => simp [tail]

theorem newline_notMem_line {n : Node} (h : n.Legible) : '\n' ∉ n.line.toList := by
  rw [line_toList, List.mem_append, List.mem_append, not_or, not_or]
  refine ⟨fun hmem => ?_, fun hmem => (n.kind.unbroken_title _ hmem).2 rfl, fun hmem => ?_⟩
  · exact absurd (List.eq_of_mem_replicate hmem) (by decide)
  · cases hshown : n.payload.shown? with
    | none =>
      rw [hshown] at hmem
      cases hmem
    | some shown =>
      rw [hshown] at hmem
      rcases List.mem_cons.mp hmem with heq | hmem
      · exact absurd heq (by decide)
      · exact Payload.newline_notMem h.payload hshown hmem

theorem run_append_inj {p : Char → Bool} {as bs cs ds : List Char} (has : ∀ c ∈ as, p c = true)
    (hbs : ∀ c ∈ bs, p c = true) (hcs : ∀ c ∈ cs.head?, p c = false)
    (hds : ∀ c ∈ ds.head?, p c = false) (h : as ++ cs = bs ++ ds) : as = bs ∧ cs = ds := by
  obtain ⟨htake, hdrop⟩ := Lexeme.run_iff.mpr ⟨has, hcs⟩
  obtain ⟨htake', hdrop'⟩ := Lexeme.run_iff.mpr ⟨hbs, hds⟩
  rw [h] at htake hdrop
  exact ⟨htake.symm.trans htake', hdrop.symm.trans hdrop'⟩

theorem head_title {k : Kind} {cs : List Char} :
    ∀ c ∈ (k.title.toList ++ cs).head?, decide (c = ' ') = false := by
  intro c hc
  rw [List.head?_append_of_ne_nil _ k.title_ne_nil] at hc
  exact decide_eq_false (k.unbroken_title c (List.mem_of_mem_head? hc)).1

theorem head_tail {s : Option String} : ∀ c ∈ (tail s).head?, decide (c ≠ ' ') = false := by
  intro c hc
  cases s with
  | none => cases hc
  | some shown =>
    obtain rfl := Option.some.inj hc
    rfl

theorem entry_of_line {n m : Node} (hn : n.Legible) (hm : m.Legible) (h : n.line = m.line) :
    n.entry = m.entry := by
  have hchars := congrArg String.toList h
  rw [line_toList, line_toList] at hchars
  have hblank : ∀ k, ∀ c ∈ List.replicate k ' ', decide (c = ' ') = true := fun k c hc =>
    decide_eq_true (List.eq_of_mem_replicate hc)
  have htitle : ∀ k : Kind, ∀ c ∈ k.title.toList, decide (c ≠ ' ') = true := fun k c hc =>
    decide_eq_true (k.unbroken_title c hc).1
  obtain ⟨hindent, hrest⟩ := run_append_inj (hblank _) (hblank _) head_title head_title hchars
  obtain ⟨hkind, hshown⟩ := run_append_inj (htitle _) (htitle _) head_tail head_tail hrest
  have hdepth : 2 * n.depth = 2 * m.depth := by simpa using congrArg List.length hindent
  have hkind : n.kind = m.kind := Kind.title_injective (String.toList_injective hkind)
  have hpayload : n.payload = m.payload := by
    refine Payload.eq_of_shown ?_ hn.payload hm.payload (tail_injective hshown)
    rw [hn.form, hm.form, hkind]
  rw [entry, entry, Nat.eq_of_mul_eq_mul_left (by decide) hdepth, hkind, hpayload]

variable {ns ms : List Node}

theorem listing_toList (ns : List Node) :
    (listing ns).toList = ns.flatMap fun n => n.line.toList ++ ['\n'] := by
  rw [listing, String.toList_join, List.flatMap_map]
  simp

theorem splitOn_listing (h : ∀ n ∈ ns, n.Legible) :
    (listing ns).toList.splitOn '\n' = (ns.map fun n => n.line.toList) ++ [[]] := by
  rw [listing_toList, List.splitOn]
  induction ns with
  | nil => rfl
  | cons n ns ih =>
    have hline : ∀ c ∈ n.line.toList, (c == '\n') = false := fun c hc =>
      beq_false_of_ne fun heq => newline_notMem_line (h n List.mem_cons_self) (heq ▸ hc)
    have hrest := ih fun m hm => h m (List.mem_cons_of_mem n hm)
    rw [List.flatMap_cons, List.append_assoc, List.singleton_append,
      List.splitOnP_append_cons_of_forall_mem hline '\n' rfl, hrest]
    rfl

theorem entries_of_listing (hns : ∀ n ∈ ns, n.Legible) (hms : ∀ m ∈ ms, m.Legible)
    (h : listing ns = listing ms) : ns.map entry = ms.map entry := by
  have hlines := splitOn_listing hns
  rw [h, splitOn_listing hms] at hlines
  refine Outline.map_list_eq (fun n hn m hm hline => ?_) (List.append_cancel_right hlines).symm
  exact entry_of_line (hns n hn) (hms m hm) (String.toList_injective hline)

end Node

/-- Programs with one listing differ in their spans only, if all of their nodes are legible. -/
theorem Program.bare_of_listing {a b : Program} (ha : ∀ n ∈ a.nodes, n.Legible)
    (hb : ∀ n ∈ b.nodes, n.Legible) (h : a.listing = b.listing) : a.bare = b.bare :=
  bare_of_entries (Node.entries_of_listing ha hb h)

end Dvilipi
