import Mathlib.Data.List.TakeWhile
import Dvilipi.Proofs.Token.Literal

/-!
The forms of tokens. What a piece of text is to the lexer is told by the piece and the one character
behind it: a numeral, a word and an operator end where this character does not go on with them, a
literal with its second quotation mark, and a literal that has none at the end of the source.
-/

namespace Dvilipi
set_option autoImplicit false

theorem Script.digitValue?_eq_some_iff {s : Script} {c : Char} {v : Nat} :
    s.digitValue? c = some v ↔ s.zero ≤ c.toNat ∧ c.toNat < s.zero + 10 ∧ v = c.toNat - s.zero := by
  unfold digitValue?
  split <;> grind

namespace Text

variable {c : Char}

theorem startsWord_of_isDevanagariDigit (h : isDevanagariDigit c = true) : startsWord c = true := by
  obtain ⟨v, hv⟩ := Option.isSome_iff_exists.mp h
  obtain ⟨hle, hlt, -⟩ := Script.digitValue?_eq_some_iff.mp hv
  have hblock : isDevanagari c = true := by
    simp only [Script.zero] at hle hlt
    simp only [isDevanagari, Bool.and_eq_true, decide_eq_true_eq]
    omega
  simp [startsWord, hblock]

theorem continuesWord_iff : continuesWord c = true ↔ isDigit c = true ∨ startsWord c = true := by
  simp only [continuesWord, isDigit, Bool.or_eq_true]
  have hdevanagari := startsWord_of_isDevanagariDigit (c := c)
  grind

theorem not_isBlank_of_startsWord (h : startsWord c = true) : isBlank c = false := by
  simp [startsWord, isLatinLetter, isDevanagari, isJoiner] at h
  rcases h with ((hletter | rfl) | hdevanagari) | hjoiner
  · simp [isBlank]
    omega
  · decide
  · simp [isBlank]
    omega
  · simp [isBlank]
    omega

theorem not_isBlank_of_isDigit (h : isDigit c = true) : isBlank c = false := by
  rw [isDigit, Bool.or_eq_true] at h
  rcases h with hlatin | hdevanagari
  · obtain ⟨v, hv⟩ := Option.isSome_iff_exists.mp hlatin
    obtain ⟨hle, hlt, -⟩ := Script.digitValue?_eq_some_iff.mp hv
    simp only [Script.zero] at hle hlt
    simp [isBlank]
    omega
  · exact not_isBlank_of_startsWord (startsWord_of_isDevanagariDigit hdevanagari)

end Text

namespace Lexeme

variable {c : Char}

theorem class_of_isOperatorMark (h : isOperatorMark c = true) :
    Text.isBlank c = false ∧ Text.isDigit c = false ∧ Text.startsWord c = false ∧
      isQuoteMark c = false := by
  simp only [isOperatorMark, List.contains_iff_mem, List.mem_cons, List.not_mem_nil, or_false] at h
  rcases h with rfl | rfl | rfl | rfl | rfl | rfl | rfl | rfl | rfl | rfl | rfl | rfl
  all_goals decide

theorem class_of_isDelimiterMark (h : isDelimiterMark c = true) :
    Text.isBlank c = false ∧ c ≠ '/' ∧ Text.isDigit c = false ∧ Text.startsWord c = false ∧
      isQuoteMark c = false ∧ isOperatorMark c = false := by
  simp only [isDelimiterMark, List.contains_iff_mem, List.mem_cons, List.not_mem_nil, or_false] at h
  rcases h with rfl | rfl | rfl | rfl | rfl | rfl | rfl | rfl | rfl
  all_goals decide

end Lexeme

theorem Trivia.split_cons_iff {c : Char} {cs : List Char} :
    split .blank (c :: cs) = ([], c :: cs) ↔
      Text.isBlank c = false ∧ (c = '/' → cs.head? ≠ some '/' ∧ cs.head? ≠ some '*') := by
  have hsplit : split .blank (c :: cs) = ([], c :: cs) ↔ Mode.blank.next? c cs.head? = none := by
    cases hnext : Mode.blank.next? c cs.head? with
    | none => simp [split, hnext]
    | some mode => simp [split, hnext]
  rw [hsplit, Mode.next?]
  grind

namespace Lexeme

/-- A run of characters ends where it does because of the character behind it. -/
theorem run_iff {p : Char → Bool} {raw rest : List Char} :
    (raw ++ rest).takeWhile p = raw ∧ (raw ++ rest).dropWhile p = rest ↔
      (∀ a ∈ raw, p a = true) ∧ ∀ a ∈ rest.head?, p a = false := by
  constructor
  · rintro ⟨htake, hdrop⟩
    constructor
    · intro a ha
      rw [← htake] at ha
      exact List.mem_takeWhile_imp ha
    · intro a ha
      have hnot := List.head?_dropWhile_not p (raw ++ rest)
      rw [hdrop, Option.mem_def.mp ha] at hnot
      exact Bool.eq_false_iff.mpr (by simpa using hnot)
  · rintro ⟨hraw, hrest⟩
    rw [List.takeWhile_append_of_pos hraw, List.dropWhile_append_of_pos hraw]
    cases rest with
    | nil => simp
    | cons b rest =>
      have hb := hrest b rfl
      simp [hb]

variable {quote : Char} {text body tail raw rest : List Char} {c : Token.Content}
  {ahead : Option Char}

theorem encodes_escaped (quote d : Char) : Encodes quote (escaped d) ['\\', d] := by
  by_cases hn : d = 'n'
  · subst hn
    exact .newline
  by_cases ht : d = 't'
  · subst ht
    exact .tab
  by_cases hr : d = 'r'
  · subst hr
    exact .carriageReturn
  · rw [escaped_of_ne hn ht hr]
    exact .escaped hn ht hr

/-- Behind an opening quotation mark stands a written text, and then the closing mark or the end of the
source, where a last backslash may be left over. -/
theorem exists_writes_of_closeQuote (hquote : quote ≠ '\\') (cs : List Char) :
    ∃ text body tail, Writes quote text body ∧ (closeQuote quote cs).1 = body ++ tail ∧
      unquote quote (closeQuote quote cs).1 = text ∧
        (tail = [quote] ∨ (closeQuote quote cs).2 = [] ∧ (tail = [] ∨ tail = ['\\'])) := by
  fun_induction closeQuote quote cs with
  | case1 => exact ⟨[], [], [], .nil, rfl, rfl, .inr ⟨rfl, .inl rfl⟩⟩
  | case2 rest => exact ⟨[], [], [quote], .nil, rfl, unquote_quote [], .inl rfl⟩
  | case3 hne =>
    refine ⟨[], [], ['\\'], .nil, rfl, ?_, .inr ⟨rfl, .inr rfl⟩⟩
    simp [unquote]
  | case4 d rest s hne ih =>
    obtain ⟨text, body, tail, hwrites, hbody, htext, htail⟩ := ih
    refine ⟨_, _, tail, .cons (encodes_escaped quote d) hwrites, ?_, ?_, htail⟩
    · exact congrArg (fun t => '\\' :: d :: t) hbody
    · rw [unquote_backslash _ hquote, htext]
  | case5 d rest hd hbackslash s ih =>
    obtain ⟨text, body, tail, hwrites, hbody, htext, htail⟩ := ih
    refine ⟨_, _, tail, .cons (.plain hd hbackslash) hwrites, ?_, ?_, htail⟩
    · exact congrArg (d :: ·) hbody
    · rw [unquote_cons _ hd hbackslash, htext]

theorem Writes.string_unclosed (h : Writes quote text body) (hquote : quote ≠ '\\')
    (htail : tail = [] ∨ tail = ['\\']) :
    Lexeme.string quote (body ++ tail) =
      ⟨.string (String.ofList text), quote :: (body ++ tail), []⟩ := by
  have hopen : Lexeme.closeQuote quote tail = (tail, []) ∧ Lexeme.unquote quote tail = [] := by
    rcases htail with rfl | rfl
    · exact ⟨rfl, rfl⟩
    · simp [Lexeme.closeQuote, Lexeme.unquote, hquote.symm]
  have hclosed := h.closeQuote hquote tail
  have htext := h.unquote hquote tail
  rw [hopen.1] at hclosed
  rw [hopen.2, List.append_nil] at htext
  simp only [Lexeme.string, hclosed, htext]

/-- A text between two quotation marks, however it is written. -/
def IsLiteral (raw : List Char) : Prop :=
  ∃ quote text body, isQuoteMark quote = true ∧ Writes quote text body ∧
    raw = quote :: (body ++ [quote])

/-- The text `raw` is that of a token which says `c`, where the text behind it begins with `ahead` or is
empty. -/
inductive Form : List Char → Token.Content → Option Char → Prop where
  | number {a : Char} {as : List Char} {ahead : Option Char} (ha : Text.isDigit a = true)
      (has : ∀ b ∈ as, continuesNumber b = true) (hahead : ∀ d ∈ ahead, continuesNumber d = false) :
      Form (a :: as) (.number (numeral (a :: as))) ahead
  | word {a : Char} {as : List Char} {ahead : Option Char} (ha : Text.startsWord a = true)
      (hdigit : Text.isDigit a = false) (has : ∀ b ∈ as, Text.continuesWord b = true)
      (hahead : ∀ d ∈ ahead, Text.continuesWord d = false) :
      Form (a :: as) (wordContent (String.ofList (a :: as))) ahead
  | literal {quote : Char} {text body : List Char} {ahead : Option Char}
      (hquote : isQuoteMark quote = true) (h : Writes quote text body) :
      Form (quote :: (body ++ [quote])) (.string (String.ofList text)) ahead
  | unclosed {quote : Char} {text body tail : List Char} (hquote : isQuoteMark quote = true)
      (h : Writes quote text body) (htail : tail = [] ∨ tail = ['\\']) :
      Form (quote :: (body ++ tail)) (.string (String.ofList text)) none
  | mark {a : Char} {ahead : Option Char} (ha : isOperatorMark a = true)
      (hahead : ∀ d ∈ ahead, extendsOperator a d = false)
      (hslash : a = '/' → ahead ≠ some '/' ∧ ahead ≠ some '*') :
      Form [a] (.operator (String.singleton a)) ahead
  | marks {a b : Char} {ahead : Option Char} (ha : isOperatorMark a = true)
      (hb : extendsOperator a b = true) : Form [a, b] (.operator (String.ofList [a, b])) ahead
  | delimiter {a : Char} {ahead : Option Char} (ha : isDelimiterMark a = true) :
      Form [a] (.delimiter a) ahead

namespace Form

/-- A token is read where its form begins. -/
theorem reads (h : Form raw c ahead) (hrest : rest.head? = ahead) :
    Trivia.split .blank (raw ++ rest) = ([], raw ++ rest) ∧
      first? (raw ++ rest) = some ⟨c, raw, rest⟩ := by
  cases h with
  | @number a as _ ha has hahead =>
    have hslash : a ≠ '/' := by
      rintro rfl
      exact absurd ha (by decide)
    have hall : ∀ b ∈ a :: as, continuesNumber b = true :=
      List.forall_mem_cons.mpr ⟨by simp [continuesNumber, ha], has⟩
    obtain ⟨htake, hdrop⟩ := run_iff.mpr ⟨hall, hrest ▸ hahead⟩
    constructor
    · exact Trivia.split_cons_iff.mpr ⟨Text.not_isBlank_of_isDigit ha, fun he => absurd he hslash⟩
    · rw [List.cons_append] at htake hdrop ⊢
      simp only [first?, if_pos ha, Lexeme.number, htake, hdrop]
  | @word a as _ ha hdigit has hahead =>
    have hslash : a ≠ '/' := by
      rintro rfl
      exact absurd ha (by decide)
    have hall : ∀ b ∈ a :: as, Text.continuesWord b = true :=
      List.forall_mem_cons.mpr ⟨Text.continuesWord_of_startsWord ha, has⟩
    obtain ⟨htake, hdrop⟩ := run_iff.mpr ⟨hall, hrest ▸ hahead⟩
    constructor
    · exact Trivia.split_cons_iff.mpr ⟨Text.not_isBlank_of_startsWord ha, fun he => absurd he hslash⟩
    · rw [List.cons_append] at htake hdrop ⊢
      simp [first?, hdigit, ha, Lexeme.word, htake, hdrop]
  | literal hquote h =>
    rw [List.cons_append, List.append_assoc, List.singleton_append]
    refine ⟨Trivia.split_quote hquote _, ?_⟩
    rw [first?_quote hquote, h.string (ne_backslash_of_isQuoteMark hquote)]
  | unclosed hquote h htail =>
    rw [List.head?_eq_none_iff.mp hrest, List.append_nil]
    refine ⟨Trivia.split_quote hquote _, ?_⟩
    rw [first?_quote hquote, h.string_unclosed (ne_backslash_of_isQuoteMark hquote) htail]
  | @mark a _ ha hahead hslash =>
    obtain ⟨hblank, hdigit, hword, hquote⟩ := class_of_isOperatorMark ha
    refine ⟨Trivia.split_cons_iff.mpr ⟨hblank, hrest ▸ hslash⟩, ?_⟩
    subst hrest
    cases rest with
    | nil => simp [first?, hdigit, hword, hquote, ha, operator]
    | cons d rest => simp [first?, hdigit, hword, hquote, ha, operator, hahead d rfl]
  | @marks a b _ ha hb =>
    obtain ⟨hblank, hdigit, hword, hquote⟩ := class_of_isOperatorMark ha
    refine ⟨Trivia.split_cons_iff.mpr ⟨hblank, ?_⟩, ?_⟩
    · rintro rfl
      obtain rfl : b = '=' := by simpa [extendsOperator] using hb
      simp
    · simp [first?, hdigit, hword, hquote, ha, operator, hb]
  | @delimiter a _ ha =>
    obtain ⟨hblank, hslash, hdigit, hword, hquote, hmark⟩ := class_of_isDelimiterMark ha
    refine ⟨Trivia.split_cons_iff.mpr ⟨hblank, fun he => absurd he hslash⟩, ?_⟩
    simp [first?, hdigit, hword, hquote, hmark, ha]

end Form

/-- Every token that is read has a form. -/
theorem form_of_first? (hsplit : Trivia.split .blank (raw ++ rest) = ([], raw ++ rest))
    (h : first? (raw ++ rest) = some ⟨c, raw, rest⟩) : Form raw c rest.head? := by
  cases raw with
  | nil => exact absurd rfl (first?_raw_ne_nil h)
  | cons a as =>
    simp only [List.cons_append, first?] at h
    split at h
    · next hdigit =>
      obtain ⟨rfl, htake, hdrop⟩ := Lexeme.mk.inj (Option.some.inj h)
      rw [← List.cons_append] at htake hdrop ⊢
      obtain ⟨hall, hahead⟩ := run_iff.mp ⟨htake, hdrop⟩
      rw [htake]
      exact .number hdigit (List.forall_mem_cons.mp hall).2 hahead
    split at h
    · next hdigit hword =>
      obtain ⟨rfl, htake, hdrop⟩ := Lexeme.mk.inj (Option.some.inj h)
      rw [← List.cons_append] at htake hdrop ⊢
      obtain ⟨hall, hahead⟩ := run_iff.mp ⟨htake, hdrop⟩
      rw [htake]
      exact .word hword (by simpa using hdigit) (List.forall_mem_cons.mp hall).2 hahead
    split at h
    · next hquote =>
      obtain ⟨rfl, hraw, hrest⟩ := Lexeme.mk.inj (Option.some.inj h)
      obtain ⟨-, has⟩ := List.cons.inj hraw
      obtain ⟨text, body, tail, hwrites, hbody, htext, htail⟩ :=
        exists_writes_of_closeQuote (ne_backslash_of_isQuoteMark hquote) (as ++ rest)
      rw [htext, ← has, hbody]
      rcases htail with rfl | ⟨hnil, htail⟩
      · exact .literal hquote hwrites
      · rw [← hrest, hnil]
        exact .unclosed hquote hwrites htail
    split at h
    · next hmark =>
      obtain ⟨-, hslash⟩ := Trivia.split_cons_iff.mp (List.cons_append ▸ hsplit)
      cases hs : as ++ rest with
      | nil =>
        obtain ⟨rfl, rfl⟩ := List.append_eq_nil_iff.mp hs
        cases h
        exact .mark hmark (by simp) (by simp)
      | cons d ds =>
        rw [hs] at h hslash
        simp only [operator] at h
        split at h
        · next hextends =>
          cases h
          exact .marks hmark hextends
        · next hextends =>
          cases h
          refine .mark hmark ?_ hslash
          simpa using hextends
    split at h
    · next hdelimiter =>
      cases h
      exact .delimiter hdelimiter
    · cases h

namespace Form

theorem alone (h : Form raw c ahead) : Form raw c none := by
  cases h with
  | number ha has _ => exact .number ha has nofun
  | word ha hdigit has _ => exact .word ha hdigit has nofun
  | literal hquote h => exact .literal hquote h
  | unclosed hquote h htail => exact .unclosed hquote h htail
  | mark ha _ _ => exact .mark ha nofun (by simp)
  | marks ha hb => exact .marks ha hb
  | delimiter ha => exact .delimiter ha

theorem content_eq {c' : Token.Content} {ahead' : Option Char} (h : Form raw c ahead)
    (h' : Form raw c' ahead') : c = c' := by
  have hread : first? (raw ++ []) = some ⟨c, raw, []⟩ := (h.alone.reads rfl).2
  have hread' : first? (raw ++ []) = some ⟨c', raw, []⟩ := (h'.alone.reads rfl).2
  rw [hread'] at hread
  cases hread
  rfl

theorem isLiteral {d : Char} {text : String} (h : Form raw (.string text) (some d)) :
    IsLiteral raw := by
  generalize hc : Token.Content.string text = c at h
  generalize ha : some d = ahead at h
  cases h with
  | number => cases hc
  | word =>
    unfold wordContent at hc
    split at hc <;> cases hc
  | literal hquote h => exact ⟨_, _, _, hquote, h, rfl⟩
  | unclosed => cases ha
  | mark => cases hc
  | marks => cases hc
  | delimiter => cases hc

theorem of_number {x : Float} (h : Form raw (.number x) ahead) :
    (∃ a as, raw = a :: as ∧ Text.isDigit a = true ∧ ∀ b ∈ as, continuesNumber b = true) ∧
      (∀ d ∈ ahead, continuesNumber d = false) ∧ x = numeral raw := by
  generalize hc : Token.Content.number x = c at h
  cases h with
  | number ha has hahead =>
    cases hc
    exact ⟨⟨_, _, rfl, ha, has⟩, hahead, rfl⟩
  | word =>
    unfold wordContent at hc
    split at hc <;> cases hc
  | literal => cases hc
  | unclosed => cases hc
  | mark => cases hc
  | marks => cases hc
  | delimiter => cases hc

theorem ne_point {x : Float} (h : Form raw (.number x) ahead) : ahead ≠ some '.' := by
  rintro rfl
  exact absurd (h.of_number.2.1 '.' rfl) (by decide)

/-- A character that no token and no trivia begin with does not go on with a token, unless it is a point
behind a numeral or the token is a string without closing mark. -/
theorem before {d : Char} (h : Form raw c ahead)
    (hstring : (∃ text, c = .string text) → IsLiteral raw)
    (hpoint : d = '.' → ∀ x, c ≠ .number x) (hdigit : Text.isDigit d = false)
    (hword : Text.startsWord d = false) (hmark : isOperatorMark d = false) :
    Form raw c (some d) := by
  have hd : Text.continuesWord d = false := by
    rw [Bool.eq_false_iff, Ne, Text.continuesWord_iff, hdigit, hword]
    simp
  cases h with
  | number ha has _ =>
    refine .number ha has fun e he => ?_
    obtain rfl := Option.some.inj he
    have hne : d ≠ '.' := fun he => hpoint he _ rfl
    simp [continuesNumber, hdigit, hne]
  | word ha hdigit' has _ =>
    refine .word ha hdigit' has fun e he => ?_
    obtain rfl := Option.some.inj he
    exact hd
  | literal hquote h => exact .literal hquote h
  | unclosed hquote h htail =>
    obtain ⟨quote', text', body', hquote', hwrites, hraw⟩ := hstring ⟨_, rfl⟩
    have hliteral : Form _ _ (some d) := .literal hquote' hwrites
    rw [← hraw] at hliteral
    rw [content_eq (.unclosed hquote h htail) hliteral]
    exact hliteral
  | @mark a _ ha _ _ =>
    have hne : ∀ b, isOperatorMark b = true → d ≠ b := by
      rintro b hb rfl
      rw [hmark] at hb
      cases hb
    refine .mark ha (fun e he => ?_) fun _ => ?_
    · obtain rfl := Option.some.inj he
      simp [extendsOperator, hne '=' (by decide), hne a ha]
    · simp [hne '/' (by decide), hne '*' (by decide)]
  | marks ha hb => exact .marks ha hb
  | delimiter ha => exact .delimiter ha

theorem blank {d : Char} (h : Form raw c ahead) (hd : Text.isBlank d = true)
    (hstring : (∃ text, c = .string text) → ahead ≠ none) : Form raw c (some d) := by
  have hne : ∀ e, Text.isBlank e = false → d ≠ e := by
    rintro e he rfl
    rw [he] at hd
    cases hd
  refine h.before ?_ (fun hpoint => absurd hpoint (hne '.' (by decide))) ?_ ?_ ?_
  · rintro ⟨text, rfl⟩
    cases ahead with
    | none => exact absurd rfl (hstring ⟨text, rfl⟩)
    | some e => exact h.isLiteral
  · exact Bool.eq_false_iff.mpr fun hdigit => hne d (Text.not_isBlank_of_isDigit hdigit) rfl
  · exact Bool.eq_false_iff.mpr fun hword => hne d (Text.not_isBlank_of_startsWord hword) rfl
  · exact Bool.eq_false_iff.mpr fun hmark => hne d (class_of_isOperatorMark hmark).1 rfl

end Form

end Lexeme

namespace Lexer

variable {l m : Lexer} {t : Token} {gap raw rest : List Char} {c : Token.Content}

theorem Step.form (h : l.Step gap raw t m) (hraw : raw ≠ []) :
    Lexeme.Form raw t.content m.rest.head? :=
  Lexeme.form_of_first? h.starts (h.first? hraw)

theorem next_of_form (hl : l.rest = gap ++ (raw ++ rest)) (hgap : Trivia.Layout gap (raw ++ rest))
    (h : Lexeme.Form raw c rest.head?) :
    l.next = (.ok ⟨c, (l.place.after gap).position,
        (l.place.after gap).span (l.place.after (gap ++ raw))⟩,
      ⟨l.source, l.place.after (gap ++ raw), rest⟩) := by
  obtain ⟨hsplit, hfirst⟩ := h.reads rfl
  have hskip : l.skipTrivia = ⟨l.source, l.place.after gap, raw ++ rest⟩ := by
    rw [skipTrivia, hl, hgap.split_eq, hsplit, List.append_nil]
  unfold next token
  rw [hskip, Place.after_append]
  dsimp only
  rw [hfirst]
  split
  · next hnil =>
    rw [hnil] at hfirst
    cases hfirst
  · rfl

/-- The same token is read from the same text if what comes behind it does not go on with it. -/
theorem Step.before {k : Lexer} (h : l.Step gap raw t m) (hraw : raw ≠ [])
    (hform : Lexeme.Form raw t.content rest.head?) (hk : k.rest = gap ++ (raw ++ rest))
    (hplace : k.place = l.place) :
    k.Step gap raw t ⟨k.source, m.place, rest⟩ ∧ k.next = (.ok t, ⟨k.source, m.place, rest⟩) := by
  have hlayout : Trivia.Layout gap (raw ++ rest) := by
    refine (h.layout hraw).congr fun hend => ?_
    cases raw with
    | nil => exact absurd rfl hraw
    | cons d raw => exact hend
  obtain ⟨hsplit, hfirst⟩ := hform.reads rfl
  constructor
  · refine ⟨?_, .inr hfirst, hplace ▸ h.position, hplace ▸ h.span, hplace ▸ h.place⟩
    rw [hk, hlayout.split_eq, hsplit, List.append_nil]
  · have hnext := next_of_form hk hlayout hform
    rwa [hplace, ← h.place, ← h.span, ← h.position] at hnext

theorem scans_layout (hl : l.rest = gap) (hgap : Trivia.Layout gap []) :
    l.Scans [⟨.endOfInput, (l.place.after gap).position,
      ⟨(l.place.after gap).offset, (l.place.after gap).offset⟩⟩] := by
  have hskip : l.skipTrivia = ⟨l.source, l.place.after gap, []⟩ := by
    have hsplit := hgap.split_eq
    rw [List.append_nil] at hsplit
    rw [skipTrivia, hl, hsplit]
    simp [Trivia.split]
  refine .last (m := l.skipTrivia) ?_ rfl
  unfold next token
  rw [hskip]
  rfl

end Lexer
end Dvilipi
