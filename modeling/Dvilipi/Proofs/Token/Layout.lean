import Dvilipi.Token.Trivia

/-!
What the text between two tokens looks like: blanks, line comments that go on to the newline, and block
comments that end at the first `*/`. Skipping trivia takes exactly such a text; only at the end of the
source may a last block comment stay open.
-/

namespace Dvilipi.Trivia
set_option autoImplicit false

/-- `Layout gap rest` says that `gap`, with `rest` behind it, consists of blanks and whole comments. -/
inductive Layout : List Char → List Char → Prop where
  | nil {rest : List Char} : Layout [] rest
  | blank {c : Char} {gap rest : List Char} (hc : Text.isBlank c = true) (h : Layout gap rest) :
      Layout (c :: gap) rest
  | line {body gap rest : List Char} (hbody : '\n' ∉ body)
      (hend : ∀ c ∈ (gap ++ rest).head?, c = '\n') (h : Layout gap rest) :
      Layout ('/' :: '/' :: (body ++ gap)) rest
  | block {body gap rest : List Char} (hbody : ¬ ['*', '/'] <:+: body) (h : Layout gap rest) :
      Layout ('/' :: '*' :: (body ++ '*' :: '/' :: gap)) rest

/-- Blanks and whole comments, and then a block comment that is never closed. -/
def Unclosed (gap : List Char) : Prop :=
  ∃ before body, gap = before ++ '/' :: '*' :: body ∧ Layout before ('/' :: '*' :: body) ∧
    ¬ ['*', '/'] <:+: body

/-- What stands between tokens: a layout, which may stay open at the end of the source. -/
def Between (gap rest : List Char) : Prop := Layout gap rest ∨ rest = [] ∧ Unclosed gap

variable {gap rest body : List Char} {c : Char}

theorem Between.blank (hc : Text.isBlank c = true) (h : Between gap rest) :
    Between (c :: gap) rest := by
  rcases h with h | ⟨rfl, before, body, rfl, hbefore, hbody⟩
  · exact .inl (.blank hc h)
  · exact .inr ⟨rfl, c :: before, body, rfl, .blank hc hbefore, hbody⟩

theorem Between.line (hbody : '\n' ∉ body) (hend : ∀ c ∈ (gap ++ rest).head?, c = '\n')
    (h : Between gap rest) : Between ('/' :: '/' :: (body ++ gap)) rest := by
  rcases h with h | ⟨rfl, before, last, rfl, hbefore, hlast⟩
  · exact .inl (.line hbody hend h)
  · refine .inr ⟨rfl, '/' :: '/' :: (body ++ before), last, by simp, .line hbody ?_ hbefore, hlast⟩
    simpa using hend

theorem Between.block (hbody : ¬ ['*', '/'] <:+: body) (h : Between gap rest) :
    Between ('/' :: '*' :: (body ++ '*' :: '/' :: gap)) rest := by
  rcases h with h | ⟨rfl, before, last, rfl, hbefore, hlast⟩
  · exact .inl (.block hbody h)
  · exact .inr ⟨rfl, '/' :: '*' :: (body ++ '*' :: '/' :: before), last, by simp,
      .block hbody hbefore, hlast⟩

/-- What is left of a block comment, and what follows it. -/
def InBlock (gap rest : List Char) : Prop :=
  (∃ body more, gap = body ++ '*' :: '/' :: more ∧ ¬ ['*', '/'] <:+: body ∧ Between more rest) ∨
    rest = [] ∧ ¬ ['*', '/'] <:+: gap

/-- What is left of a line comment, and what follows it. -/
def InLine (gap rest : List Char) : Prop :=
  ∃ body more, gap = body ++ more ∧ '\n' ∉ body ∧ (∀ c ∈ (more ++ rest).head?, c = '\n') ∧
    Between more rest

theorem InBlock.between (h : InBlock gap rest) : Between ('/' :: '*' :: gap) rest := by
  rcases h with ⟨body, more, rfl, hbody, hmore⟩ | ⟨rfl, hgap⟩
  · exact hmore.block hbody
  · exact .inr ⟨rfl, [], gap, rfl, .nil, hgap⟩

theorem InLine.between (h : InLine gap rest) : Between ('/' :: '/' :: gap) rest := by
  obtain ⟨body, more, rfl, hbody, hend, hmore⟩ := h
  exact hmore.line hbody hend

theorem InLine.of_cons (h : InLine (c :: gap) rest) (hc : c ≠ '\n') : InLine gap rest := by
  obtain ⟨body, more, hgap, hbody, hend, hmore⟩ := h
  cases body with
  | nil =>
    rw [List.nil_append] at hgap
    subst hgap
    exact absurd (hend c rfl) hc
  | cons d body =>
    obtain ⟨rfl, rfl⟩ := List.cons.inj hgap
    exact ⟨body, more, rfl, fun hmem => hbody (List.mem_cons_of_mem _ hmem), hend, hmore⟩

theorem infix_cons_iff_of_head (hc : ¬ (c = '*' ∧ body.head? = some '/')) :
    ['*', '/'] <:+: c :: body ↔ ['*', '/'] <:+: body := by
  constructor
  · intro h
    rcases List.infix_cons_iff.mp h with h | h
    · obtain ⟨rfl, hbody⟩ := List.cons_prefix_cons.mp h
      obtain ⟨more, rfl⟩ := hbody
      exact absurd ⟨rfl, rfl⟩ hc
    · exact h
  · exact fun h => List.infix_cons_iff.mpr (.inr h)

theorem InBlock.cons (hc : ¬ (c = '*' ∧ (gap ++ rest).head? = some '/')) (h : InBlock gap rest) :
    InBlock (c :: gap) rest := by
  rcases h with ⟨body, more, rfl, hbody, hmore⟩ | ⟨rfl, hgap⟩
  · refine .inl ⟨c :: body, more, rfl, ?_, hmore⟩
    rwa [infix_cons_iff_of_head]
    rintro ⟨rfl, hhead⟩
    cases body with
    | nil => cases hhead
    | cons d body => exact hc ⟨rfl, hhead⟩
  · refine .inr ⟨rfl, ?_⟩
    rw [List.append_nil] at hc
    rwa [infix_cons_iff_of_head hc]

/-- What a mode makes of the text that it skips. The modes for the second character of `/*` and of `*/`
skip this character first. -/
def Mode.Skips : Mode → List Char → List Char → Prop
  | .blank, gap, rest => Between gap rest
  | .line, gap, rest => InLine gap rest
  | .opening, gap, rest => InBlock gap.tail rest
  | .block, gap, rest => InBlock gap rest
  | .closing, gap, rest => (gap = [] → rest = []) ∧ Between gap.tail rest

theorem between_nil : Between [] rest := .inl .nil

theorem Mode.skips_nil (mode : Mode) : mode.Skips [] [] := by
  cases mode with
  | blank => exact between_nil
  | line => exact ⟨[], [], rfl, List.not_mem_nil, by simp, between_nil⟩
  | opening => exact .inr ⟨rfl, by decide⟩
  | block => exact .inr ⟨rfl, by decide⟩
  | closing => exact ⟨id, between_nil⟩

theorem skips_slash_line (hhead : (gap ++ rest).head? = some '/') (h : Mode.line.Skips gap rest) :
    Between ('/' :: gap) rest := by
  have hline : InLine gap rest := h
  cases gap with
  | nil =>
    obtain ⟨body, more, hgap, -, hend, -⟩ := hline
    obtain ⟨rfl, rfl⟩ := List.append_eq_nil_iff.mp hgap.symm
    exact absurd (hend '/' hhead) (by decide)
  | cons d gap =>
    obtain rfl : d = '/' := by simpa using hhead
    exact (hline.of_cons (by decide)).between

theorem skips_slash_opening (hhead : (gap ++ rest).head? = some '*')
    (h : Mode.opening.Skips gap rest) : Between ('/' :: gap) rest := by
  have hblock : InBlock gap.tail rest := h
  cases gap with
  | nil =>
    rcases hblock with ⟨body, more, hgap, -, -⟩ | ⟨rfl, -⟩
    · simp at hgap
    · cases hhead
  | cons d gap =>
    obtain rfl : d = '*' := by simpa using hhead
    exact hblock.between

theorem skips_star_closing (hhead : (gap ++ rest).head? = some '/')
    (h : Mode.closing.Skips gap rest) : InBlock ('*' :: gap) rest := by
  obtain ⟨hnil, hmore⟩ := h
  cases gap with
  | nil =>
    rw [hnil rfl] at hhead
    cases hhead
  | cons d gap =>
    obtain rfl : d = '/' := by simpa using hhead
    exact .inl ⟨[], gap, rfl, by decide, hmore⟩

/-- One character is skipped, and the automaton goes on in the next mode. -/
theorem Mode.Skips.cons {mode next : Mode} (hnext : mode.next? c (gap ++ rest).head? = some next)
    (h : next.Skips gap rest) : mode.Skips (c :: gap) rest := by
  cases mode with
  | blank =>
    simp only [Mode.next?] at hnext
    split at hnext
    · next hblank =>
      cases hnext
      exact Between.blank hblank h
    · split at hnext
      · next hline =>
        cases hnext
        exact hline.1 ▸ skips_slash_line hline.2 h
      · split at hnext
        · next hblock =>
          cases hnext
          exact hblock.1 ▸ skips_slash_opening hblock.2 h
        · cases hnext
  | line =>
    simp only [Mode.next?, Option.some.injEq] at hnext
    split at hnext
    · next hc =>
      subst hc hnext
      exact ⟨[], '\n' :: gap, rfl, List.not_mem_nil, by simp, Between.blank (by decide) h⟩
    · next hc =>
      subst hnext
      obtain ⟨body, more, rfl, hbody, hend, hmore⟩ := h
      exact ⟨c :: body, more, rfl, by simp [Ne.symm hc, hbody], hend, hmore⟩
  | opening =>
    cases hnext
    exact h
  | block =>
    simp only [Mode.next?, Option.some.injEq] at hnext
    split at hnext
    · next hclose =>
      subst hnext
      exact hclose.1 ▸ skips_star_closing hclose.2 h
    · next hopen =>
      subst hnext
      exact InBlock.cons hopen h
  | closing =>
    cases hnext
    exact ⟨(nomatch ·), h⟩

theorem skips_split (mode : Mode) (cs : List Char) :
    mode.Skips (split mode cs).1 (split mode cs).2 := by
  induction cs generalizing mode with
  | nil => exact mode.skips_nil
  | cons c cs ih =>
    unfold split
    split
    · next next hnext =>
      rw [← split_append next cs] at hnext
      exact (ih next).cons hnext
    · next hnone =>
      cases mode with
      | blank => exact between_nil
      | line => cases hnone
      | opening => cases hnone
      | block => cases hnone
      | closing => cases hnone

theorem between_split (cs : List Char) : Between (split .blank cs).1 (split .blank cs).2 :=
  skips_split .blank cs

theorem split_blank_cons (hc : Text.isBlank c = true) (cs : List Char) :
    split .blank (c :: cs) = (c :: (split .blank cs).1, (split .blank cs).2) := by
  have hnext : Mode.blank.next? c cs.head? = some .blank := if_pos hc
  simp only [split, hnext]

theorem split_line (hbody : '\n' ∉ body) {cs : List Char} (hend : ∀ c ∈ cs.head?, c = '\n') :
    split .line (body ++ cs) = (body ++ (split .blank cs).1, (split .blank cs).2) := by
  induction body with
  | nil =>
    cases cs with
    | nil => rfl
    | cons c cs =>
      obtain rfl := hend c rfl
      exact (split_blank_cons (by decide) cs).symm
  | cons c body ih =>
    rw [List.mem_cons, not_or] at hbody
    have hnext : Mode.line.next? c (body ++ cs).head? = some .line := by
      simp [Mode.next?, Ne.symm hbody.1]
    simp only [List.cons_append, split, hnext, ih hbody.2]

theorem split_block (hbody : ¬ ['*', '/'] <:+: body) (cs : List Char) :
    split .block (body ++ '*' :: '/' :: cs) =
      (body ++ '*' :: '/' :: (split .blank cs).1, (split .blank cs).2) := by
  induction body with
  | nil => rfl
  | cons c body ih =>
    have hopen : ¬ (c = '*' ∧ (body ++ '*' :: '/' :: cs).head? = some '/') := by
      rintro ⟨rfl, hhead⟩
      cases body with
      | nil => exact absurd (Option.some.inj hhead) (by decide)
      | cons d body =>
        obtain rfl : d = '/' := Option.some.inj hhead
        exact hbody ⟨[], body, rfl⟩
    have hnext : Mode.block.next? c (body ++ '*' :: '/' :: cs).head? = some .block := by
      rw [Mode.next?, if_neg hopen]
    have hrest : ¬ ['*', '/'] <:+: body := fun h => hbody (List.infix_cons_iff.mpr (.inr h))
    simp only [List.cons_append, split, hnext, ih hrest]

/-- A layout is skipped, and then what trivia the rest starts with. -/
theorem Layout.split_eq (h : Layout gap rest) :
    split .blank (gap ++ rest) = (gap ++ (split .blank rest).1, (split .blank rest).2) := by
  induction h with
  | nil => rfl
  | blank hc _ ih => rw [List.cons_append, split_blank_cons hc, ih, List.cons_append]
  | @line body gap rest hbody hend _ ih =>
    have hopen : split .blank ('/' :: '/' :: (body ++ (gap ++ rest))) =
        ('/' :: '/' :: (split .line (body ++ (gap ++ rest))).1,
          (split .line (body ++ (gap ++ rest))).2) := rfl
    simp only [List.cons_append, List.append_assoc]
    rw [hopen, split_line hbody hend, ih]
  | @block body gap rest hbody _ ih =>
    have hopen : split .blank ('/' :: '*' :: (body ++ '*' :: '/' :: (gap ++ rest))) =
        ('/' :: '*' :: (split .block (body ++ '*' :: '/' :: (gap ++ rest))).1,
          (split .block (body ++ '*' :: '/' :: (gap ++ rest))).2) := rfl
    simp only [List.cons_append, List.append_assoc]
    rw [hopen, split_block hbody, ih]

/-- A layout depends on what follows only where a line comment ends it. -/
theorem Layout.congr {rest' : List Char} (h : Layout gap rest)
    (hrest : (∀ c ∈ rest.head?, c = '\n') → ∀ c ∈ rest'.head?, c = '\n') : Layout gap rest' := by
  induction h with
  | nil => exact .nil
  | blank hc _ ih => exact .blank hc (ih hrest)
  | @line body gap rest hbody hend _ ih =>
    refine .line hbody (fun c hc => ?_) (ih hrest)
    cases gap with
    | nil => exact hrest hend c hc
    | cons d gap => exact hend c hc
  | block hbody _ ih => exact .block hbody (ih hrest)

theorem Layout.append {more : List Char} (h : Layout gap (more ++ rest)) (h' : Layout more rest) :
    Layout (gap ++ more) rest := by
  generalize hfollow : more ++ rest = follow at h
  induction h with
  | nil => exact h'
  | blank hc _ ih => exact .blank hc (ih hfollow)
  | @line body gap follow hbody hend _ ih =>
    rw [List.cons_append, List.cons_append, List.append_assoc]
    refine .line hbody ?_ (ih hfollow)
    rwa [List.append_assoc, hfollow]
  | @block body gap follow hbody _ ih =>
    simpa using Layout.block hbody (ih hfollow)

theorem Unclosed.opens (h : Unclosed gap) : ['/', '*'] <:+: gap := by
  obtain ⟨before, body, rfl, -, -⟩ := h
  exact ⟨before, body, by simp⟩

/-- Blanks and whole comments, and then a line comment without the newline that ends it. -/
def Trailing (gap : List Char) : Prop :=
  ∃ before body, gap = before ++ '/' :: '/' :: body ∧ Layout before ('/' :: '/' :: body) ∧
    '\n' ∉ body

theorem Trailing.behind {before : List Char} (h : Trailing gap) (hbefore : Layout before gap) :
    Trailing (before ++ gap) := by
  obtain ⟨inner, body, rfl, hinner, hbody⟩ := h
  exact ⟨before ++ inner, body, (List.append_assoc ..).symm, hbefore.append hinner, hbody⟩

/-- A layout of which no line comment is the last part may stand in front of anything. -/
theorem Layout.whole (h : Layout gap []) (hline : ¬ Trailing gap) (rest : List Char) :
    Layout gap rest := by
  generalize hnil : ([] : List Char) = follow at h
  induction h with
  | nil => exact .nil
  | blank hc _ ih => exact .blank hc (ih (fun h => hline (h.behind (.blank hc .nil))) hnil)
  | @line body gap follow hbody hend _ ih =>
    subst hnil
    rw [List.append_nil] at hend
    cases gap with
    | nil => exact absurd ⟨[], body, by simp, .nil, hbody⟩ hline
    | cons d gap =>
      refine .line hbody (by simpa using hend) (ih (fun h => hline ?_) rfl)
      have hbefore : Layout ('/' :: '/' :: (body ++ [])) (d :: gap) := .line hbody hend .nil
      simpa using h.behind hbefore
  | @block body gap follow hbody _ ih =>
    refine .block hbody (ih (fun h => hline ?_) hnil)
    have hbefore : Layout ('/' :: '*' :: (body ++ ['*', '/'])) gap := .block hbody .nil
    simpa using h.behind hbefore

theorem split_unclosed (hbody : ¬ ['*', '/'] <:+: body) : split .block body = (body, []) := by
  induction body with
  | nil => rfl
  | cons c body ih =>
    have hopen : ¬ (c = '*' ∧ body.head? = some '/') := by
      rintro ⟨rfl, hhead⟩
      obtain ⟨more, rfl⟩ := List.head?_eq_some_iff.mp hhead
      exact hbody ⟨[], more, rfl⟩
    have hnext : Mode.block.next? c body.head? = some .block := by
      rw [Mode.next?, if_neg hopen]
    simp only [split, hnext, ih (mt (infix_cons_iff_of_head hopen).mpr hbody)]

theorem split_open (h : Unclosed gap ∨ Trailing gap) (hnewline : c ≠ '\n') (hslash : c ≠ '/') :
    (split .blank (gap ++ [c])).2 = [] := by
  rcases h with ⟨before, body, rfl, hbefore, hbody⟩ | ⟨before, body, rfl, hbefore, hbody⟩
  · have hclosed : ¬ ['*', '/'] <:+: body ++ [c] := by
      rw [List.infix_concat_iff, not_or]
      refine ⟨fun hsuffix => ?_, hbody⟩
      have hlast := hsuffix.getLast (by simp)
      rw [List.getLast_concat] at hlast
      exact hslash hlast.symm
    have hopen : split .blank ('/' :: '*' :: (body ++ [c])) = ('/' :: '*' :: (body ++ [c]), []) := by
      have hsplit : split .blank ('/' :: '*' :: (body ++ [c])) =
          ('/' :: '*' :: (split .block (body ++ [c])).1, (split .block (body ++ [c])).2) := rfl
      rw [hsplit, split_unclosed hclosed]
    have hlayout : Layout before ('/' :: '*' :: (body ++ [c])) := hbefore.congr id
    have hsplit := hlayout.split_eq
    rw [hopen] at hsplit
    simp only [List.append_assoc, List.cons_append, hsplit]
  · have hend : '\n' ∉ body ++ [c] := by simp [hbody, hnewline.symm]
    have hopen : split .blank ('/' :: '/' :: (body ++ [c])) =
        ('/' :: '/' :: (split .line (body ++ [c])).1, (split .line (body ++ [c])).2) := rfl
    have hnone : ∀ d ∈ ([] : List Char).head?, d = '\n' := by simp
    have hline := split_line hend hnone
    rw [List.append_nil] at hline
    rw [hline] at hopen
    have hlayout : Layout before ('/' :: '/' :: (body ++ [c])) := hbefore.congr id
    have hsplit := hlayout.split_eq
    rw [hopen] at hsplit
    simp only [List.append_assoc, List.cons_append, hsplit]
    rfl

theorem Layout.not_open (h : Layout gap (c :: rest)) (hblank : Text.isBlank c = false)
    (hslash : c ≠ '/') : ¬ Unclosed gap ∧ ¬ Trailing gap := by
  have hnewline : c ≠ '\n' := by
    rintro rfl
    exact absurd hblank (by decide)
  have hlayout : Layout gap [c] := h.congr id
  have hsingle : (split .blank [c]).2 = [c] := by
    have hnone : Mode.blank.next? c ([] : List Char).head? = none := by
      simp [Mode.next?, hblank]
    simp only [split, hnone]
  have hrest : (split .blank (gap ++ [c])).2 = [c] := by rw [hlayout.split_eq, hsingle]
  have hopen : ¬ (Unclosed gap ∨ Trailing gap) := by
    intro h
    rw [split_open h hnewline hslash] at hrest
    cases hrest
  exact not_or.mp hopen

end Dvilipi.Trivia
