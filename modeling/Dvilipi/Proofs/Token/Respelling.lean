import Dvilipi.Proofs.Print.Lexing
import Dvilipi.Proofs.Token.Seam

/-!
Sources that differ in the script of their words and digits. What the lexer does with a character
depends on its class: all digits are alike to it, and so are all other characters that start words. A
text whose words and numbers are respelled therefore keeps its tokens, as no token begins or ends
anywhere else.
-/

namespace Dvilipi
set_option autoImplicit false

namespace Text

/-- What a character is to the lexer. -/
inductive Class where
  | digit
  | letter
  | other (c : Char)

def classOf (c : Char) : Class :=
  if isDigit c then .digit else if startsWord c then .letter else .other c

variable {c d e : Char}

theorem classOf_eq_digit_iff : classOf c = .digit ↔ isDigit c = true := by
  unfold classOf
  grind

theorem classOf_eq_letter_iff : classOf c = .letter ↔ isDigit c = false ∧ startsWord c = true := by
  unfold classOf
  grind

/-- Nothing is of the class of a character that is neither a digit nor starts words but itself. -/
theorem eq_iff_of_classOf (h : classOf c = classOf d) (he : isDigit e = false)
    (hs : startsWord e = false) : c = e ↔ d = e := by
  unfold classOf at h
  grind

theorem isDigit_of_classOf (h : classOf c = classOf d) : isDigit c = isDigit d := by
  unfold classOf at h
  grind

theorem continuesWord_of_classOf (h : classOf c = classOf d) :
    continuesWord c = continuesWord d := by
  have hiff : continuesWord c = true ↔ continuesWord d = true := by
    rw [continuesWord_iff, continuesWord_iff]
    unfold classOf at h
    grind
  exact Bool.eq_iff_iff.mpr hiff

/-- The same digit, in either script, or the same character. -/
def SameDigit (c d : Char) : Prop :=
  c = d ∨ ∃ s s' v, Script.digitValue? s c = some v ∧ Script.digitValue? s' d = some v

theorem isDigit_of_digitValue? {s : Script} {v : Nat} (h : s.digitValue? c = some v) :
    isDigit c = true := by
  cases s with
  | latin => simp [isDigit, isLatinDigit, h]
  | devanagari => simp [isDigit, isDevanagariDigit, h]

theorem latinDigit_of_digitValue? {s : Script} {v : Nat} (h : s.digitValue? c = some v) :
    latinDigit c = Script.latin.digit v := by
  cases s with
  | latin =>
    obtain ⟨hle, hlt, rfl⟩ := Script.digitValue?_eq_some_iff.mp h
    have hnone : Script.devanagari.digitValue? c = none := by
      rw [Option.eq_none_iff_forall_ne_some]
      intro v hv
      obtain ⟨hle', -⟩ := Script.digitValue?_eq_some_iff.mp hv
      simp only [Script.zero] at hlt hle'
      omega
    rw [latinDigit_of_not_isDevanagariDigit (by simp [isDevanagariDigit, hnone]), Script.digit,
      Nat.add_sub_cancel' hle, Char.ofNat_toNat]
  | devanagari => rw [latinDigit, h]

theorem SameDigit.latinDigit_eq (h : SameDigit c d) : latinDigit c = latinDigit d := by
  rcases h with rfl | ⟨s, s', v, hc, hd⟩
  · rfl
  · rw [latinDigit_of_digitValue? hc, latinDigit_of_digitValue? hd]

theorem SameDigit.classOf_eq (h : SameDigit c d) : classOf c = classOf d := by
  rcases h with rfl | ⟨s, s', v, hc, hd⟩
  · rfl
  · rw [classOf_eq_digit_iff.mpr (isDigit_of_digitValue? hc),
      classOf_eq_digit_iff.mpr (isDigit_of_digitValue? hd)]

/-- Both texts are empty, or begin with characters of one class. -/
def SameHead (cs ds : List Char) : Prop := cs.head?.map classOf = ds.head?.map classOf

namespace SameHead

variable {cs ds : List Char}

theorem refl (cs : List Char) : SameHead cs cs := rfl

theorem nil_iff (h : SameHead cs ds) : cs = [] ↔ ds = [] := by
  cases cs <;> cases ds <;> simp_all [SameHead]

theorem cons (h : classOf c = classOf d) (cs ds : List Char) : SameHead (c :: cs) (d :: ds) :=
  congrArg some h

theorem append (h : SameHead cs ds) {as bs : List Char} (h' : SameHead as bs) :
    SameHead (cs ++ as) (ds ++ bs) := by
  cases cs with
  | nil =>
    obtain rfl := h.nil_iff.mp rfl
    exact h'
  | cons c cs =>
    cases ds with
    | nil => cases h.nil_iff.mpr rfl
    | cons d ds => exact cons (Option.some.inj h) _ _

theorem head?_eq_some_iff (h : SameHead cs ds) (he : isDigit e = false)
    (hs : startsWord e = false) : cs.head? = some e ↔ ds.head? = some e := by
  cases cs with
  | nil => rw [h.nil_iff.mp rfl]
  | cons c cs =>
    cases ds with
    | nil => cases h.nil_iff.mpr rfl
    | cons d ds => simpa using eq_iff_of_classOf (Option.some.inj h) he hs

theorem imp {P : Char → Prop} (h : SameHead cs ds)
    (hP : ∀ {c d}, classOf c = classOf d → P c → P d) (hcs : ∀ c ∈ cs.head?, P c) :
    ∀ d ∈ ds.head?, P d := by
  intro d hd
  unfold SameHead at h
  rw [Option.mem_def.mp hd] at h
  obtain ⟨c, hc, hclass⟩ := Option.map_eq_some_iff.mp h
  exact hP hclass (hcs c hc)

end SameHead

end Text

open Text (SameDigit SameHead classOf)

namespace Token.Content

/-- The texts that say the same as the text `raw` of the token: a word of the language in either
script, a number with the digits of either script, everything else as it is. -/
def Respells : Token.Content → List Char → List Char → Prop
  | .keyword word _, _, raw' => ∃ script, raw' = (word.spelling script).toList
  | .number _, raw, raw' => List.Forall₂ SameDigit raw raw'
  | _, raw, raw' => raw' = raw

/-- What a token says, with the words of the language in one script. -/
def latinized : Token.Content → Token.Content
  | .keyword word _ => .keyword word .latin
  | c => c

theorem kind_latinized (c : Token.Content) : c.latinized.kind = c.kind := by
  cases c <;> rfl

theorem number?_latinized (c : Token.Content) : c.latinized.number? = c.number? := by
  cases c <;> rfl

theorem text_latinized {c : Token.Content} (h : ∀ word, c.kind ≠ .keyword word) :
    c.latinized.text = c.text := by
  cases c with
  | keyword word => exact absurd rfl (h word)
  | _ => rfl

end Token.Content

namespace Lexeme

variable {raw rest raw' rest' : List Char} {c : Token.Content}

theorem continuesNumber_of_classOf {a b : Char} (h : classOf a = classOf b) :
    continuesNumber a = continuesNumber b := by
  have hpoint : a = '.' ↔ b = '.' := Text.eq_iff_of_classOf h (by decide) (by decide)
  rw [continuesNumber, continuesNumber, Text.isDigit_of_classOf h]
  grind

theorem spelling_eq_cons (word : Keyword) (script : Script) : ∃ b bs,
    (word.spelling script).toList = b :: bs ∧ classOf b = .letter ∧
      ∀ a ∈ b :: bs, Text.continuesWord a = true := by
  have hword := Print.isWord_spelling word script
  generalize (word.spelling script).toList = text at hword
  cases text with
  | nil => exact hword.elim
  | cons b bs =>
    obtain ⟨hstart, hdigit, hbs⟩ := hword
    exact ⟨b, bs, rfl, Text.classOf_eq_letter_iff.mpr ⟨hdigit, hstart⟩, List.forall_mem_cons.mpr
      ⟨Text.continuesWord_of_startsWord hstart, List.all_eq_true.mp hbs⟩⟩

theorem extendsOperator_of_classOf {mark a b : Char} (h : classOf a = classOf b) :
    extendsOperator mark a = extendsOperator mark b := by
  have hequals : a = '=' ↔ b = '=' := Text.eq_iff_of_classOf h (by decide) (by decide)
  have hand : a = '&' ↔ b = '&' := Text.eq_iff_of_classOf h (by decide) (by decide)
  have hor : a = '|' ↔ b = '|' := Text.eq_iff_of_classOf h (by decide) (by decide)
  unfold extendsOperator
  grind

/-- The respelled text of a token is that of the same token, but for the script of a word. -/
theorem Form.respelled (h : Form raw c rest.head?) (hraw : c.Respells raw raw')
    (hrest : SameHead rest rest') :
    (∃ c', Form raw' c' rest'.head? ∧ c'.latinized = c.latinized) ∧ SameHead raw raw' := by
  generalize hahead : rest.head? = ahead at h
  cases h with
  | @number a as _ ha has hend =>
    have hdigits : List.Forall₂ SameDigit (a :: as) raw' := hraw
    cases hdigits with
    | @cons _ b _ bs hab habs =>
      have hbs : ∀ d ∈ bs, continuesNumber d = true := by
        clear hraw
        induction habs with
        | nil => simp
        | cons hcd _ ih =>
          obtain ⟨hc, hcs⟩ := List.forall_mem_cons.mp has
          exact List.forall_mem_cons.mpr ⟨continuesNumber_of_classOf hcd.classOf_eq ▸ hc, ih hcs⟩
      have hvalue : numeral (b :: bs) = numeral (a :: as) := by
        have hlatin : (a :: as).map Text.latinDigit = (b :: bs).map Text.latinDigit := by
          rw [← List.forall₂_eq_eq_eq, List.forall₂_map_left_iff, List.forall₂_map_right_iff]
          exact List.Forall₂.imp (fun _ _ hcd => SameDigit.latinDigit_eq hcd) (.cons hab habs)
        rw [numeral, numeral, hlatin]
      refine ⟨⟨_, ?_, rfl⟩, .cons hab.classOf_eq _ _⟩
      rw [← hvalue]
      refine .number (Text.isDigit_of_classOf hab.classOf_eq ▸ ha) hbs ?_
      exact hrest.imp (fun hcd hc => continuesNumber_of_classOf hcd ▸ hc) (hahead ▸ hend)
  | @word a as _ ha hdigit has hend =>
    have hend' : ∀ d ∈ rest'.head?, Text.continuesWord d = false :=
      hrest.imp (fun hcd hc => Text.continuesWord_of_classOf hcd ▸ hc) (hahead ▸ hend)
    unfold wordContent at hraw ⊢
    split at hraw
    · next keyword script hkeyword =>
      obtain ⟨script', rfl⟩ := hraw
      obtain ⟨b, bs, htext, hb, hbs⟩ := spelling_eq_cons keyword script'
      obtain ⟨hdigit', hb'⟩ := Text.classOf_eq_letter_iff.mp hb
      have hform := Form.word hb' hdigit' (List.forall_mem_cons.mp hbs).2 hend'
      rw [← htext, String.ofList_toList, wordContent, Keyword.ofWord?_spelling] at hform
      refine ⟨⟨_, hform, rfl⟩, ?_⟩
      rw [htext]
      exact .cons ((Text.classOf_eq_letter_iff.mpr ⟨hdigit, ha⟩).trans hb.symm) _ _
    · next hnone =>
      obtain rfl : raw' = a :: as := hraw
      have hform := Form.word ha hdigit has hend'
      rw [wordContent, hnone] at hform
      exact ⟨⟨_, hform, rfl⟩, .refl _⟩
  | literal hquote h =>
    obtain rfl := hraw
    exact ⟨⟨_, .literal hquote h, rfl⟩, .refl _⟩
  | unclosed hquote h htail =>
    obtain rfl := hraw
    rw [hrest.nil_iff.mp (List.head?_eq_none_iff.mp hahead)]
    exact ⟨⟨_, .unclosed hquote h htail, rfl⟩, .refl _⟩
  | mark ha hend hslash =>
    obtain rfl := hraw
    refine ⟨⟨_, .mark ha ?_ fun he => ?_, rfl⟩, .refl _⟩
    · exact hrest.imp (fun hcd hc => extendsOperator_of_classOf hcd ▸ hc) (hahead ▸ hend)
    · have hslash' := (hrest.head?_eq_some_iff (e := '/') (by decide) (by decide)).not
      have hstar' := (hrest.head?_eq_some_iff (e := '*') (by decide) (by decide)).not
      exact (hahead ▸ hslash he).imp hslash'.mp hstar'.mp
  | marks ha hb =>
    obtain rfl := hraw
    exact ⟨⟨_, .marks ha hb, rfl⟩, .refl _⟩
  | delimiter ha =>
    obtain rfl := hraw
    exact ⟨⟨_, .delimiter ha, rfl⟩, .refl _⟩

end Lexeme

namespace Token

/-- The text from the offset `n` on, with its tokens respelled and what stands between them kept. -/
inductive Respelled (cs : List Char) : Nat → List Token → List Char → Prop where
  | last {n : Nat} {t : Token} : Respelled cs n [t] (cs.drop n)
  | cons {n : Nat} {t : Token} {ts : List Token} {raw more : List Char}
      (hraw : t.content.Respells (t.span.slice cs) raw)
      (hmore : Respelled cs t.span.stop ts more) :
      Respelled cs n (t :: ts) ((⟨n, t.span.start⟩ : Span).slice cs ++ (raw ++ more))

/-- The tokens say the same, but for the script of a word of the language. -/
def SaysSame (t u : Token) : Prop := u.content.latinized = t.content.latinized

theorem SaysSame.isEnd_eq {t u : Token} (h : t.SaysSame u) : u.isEnd = t.isEnd := by
  have hend : ∀ c : Content, c.latinized = .endOfInput ↔ c = .endOfInput := by
    rintro ⟨⟩ <;> simp [Content.latinized]
  unfold SaysSame at h
  rw [Bool.eq_iff_iff, isEnd_iff, isEnd_iff, ← hend, ← hend t.content, h]

end Token

namespace Lexer

variable {l m : Lexer} {t : Token} {ts : List Token} {gap raw raw' rest' : List Char}

theorem Step.respelled (h : l.Step gap raw t m) (hne : raw ≠ []) (hraw : t.content.Respells raw raw')
    (hrest : SameHead m.rest rest') : SameHead l.rest (gap ++ (raw' ++ rest')) ∧
      ∀ k : Lexer, k.rest = gap ++ (raw' ++ rest') →
        ∃ u n, k.next = (.ok u, n) ∧ t.SaysSame u ∧ n.rest = rest' := by
  obtain ⟨⟨c, hform, hlatinized⟩, hhead⟩ := (h.form hne).respelled hraw hrest
  have hafter : SameHead (raw ++ m.rest) (raw' ++ rest') := hhead.append hrest
  have hlayout : Trivia.Layout gap (raw' ++ rest') := (h.layout hne).congr <|
    hafter.imp fun hcd hc => (Text.eq_iff_of_classOf hcd (by decide) (by decide)).mp hc
  constructor
  · rw [h.rest_eq]
    exact (SameHead.refl gap).append hafter
  · intro k hk
    exact ⟨_, _, next_of_form hk hlayout hform, hlatinized, rfl⟩

/-- A respelled source has the same tokens, but for the script of its words. -/
theorem Scans.respelled (h : l.Scans ts) {before cs text : List Char} (hl : l.StandsAfter before cs)
    (htext : Token.Respelled cs before.length ts text) : SameHead l.rest text ∧
      ∀ k : Lexer, k.rest = text → ∃ us, k.Scans us ∧ List.Forall₂ Token.SaysSame ts us := by
  -- what begins the rest decides where a token ends, so both facts go through the induction
  induction h generalizing before text with
  | @last l m t hnext ht =>
    cases htext with
    | last =>
      have hrest : cs.drop before.length = l.rest := by rw [hl.1, List.drop_left]
      rw [hrest]
      refine ⟨.refl _, fun k hk => ?_⟩
      obtain ⟨u, n, hu, hcontent, -⟩ := next_congr hnext (congrArg (fun cs =>
        (Trivia.split .blank cs).2) hk)
      have hend : u.isEnd = true := by rwa [Token.isEnd, hcontent]
      exact ⟨[u], .last hu hend, .cons (congrArg _ hcontent) .nil⟩
    | cons _ hmore => cases hmore
  | @cons l m t ts hnext ht hts ih =>
    obtain ⟨gap, raw, hstep⟩ := step_of_next hnext
    have hne := hstep.raw_ne_nil (Token.isEnd_eq_false_iff.mp ht)
    cases htext with
    | last => cases hts
    | cons hraw hmore =>
      rw [hl.slice_token hstep] at hraw
      rw [hl.slice_gap hstep]
      rw [← hl.length_eq_stop hstep] at hmore
      obtain ⟨hhead, htail⟩ := ih (hl.step hstep) hmore
      obtain ⟨hfirst, hnext'⟩ := hstep.respelled hne hraw hhead
      refine ⟨hfirst, fun k hk => ?_⟩
      obtain ⟨u, n, hu, hsame, hn⟩ := hnext' k hk
      obtain ⟨us, hus, hall⟩ := htail n hn
      exact ⟨u :: us, .cons hu (hsame.isEnd_eq ▸ ht) hus, .cons hsame hall⟩

/-- The second source is the first with tokens of it respelled. -/
def Respells (source source' : String) : Prop :=
  ∃ ts, (ofSource source).scanAll.1 = .ok ts ∧ Token.Respelled source.toList 0 ts source'.toList

theorem Respells.scanAll {source source' : String} (h : Respells source source') : ∃ ts us,
    (ofSource source).scanAll.1 = .ok ts ∧ (ofSource source').scanAll.1 = .ok us ∧
      List.Forall₂ Token.SaysSame ts us := by
  obtain ⟨ts, hts, hrespelled⟩ := h
  obtain ⟨-, hscans⟩ :=
    (scans_of_scanAll hts).respelled (standsAfter_ofChars source.toList) hrespelled
  obtain ⟨us, hus, hsame⟩ := hscans (ofSource source') rfl
  exact ⟨ts, us, hts, hus.scanAll, hsame⟩

end Lexer
end Dvilipi
