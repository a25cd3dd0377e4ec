import Dvilipi.Token.Lexer

/-!
What a whole scan collects, one token after the other.
-/

namespace Dvilipi
set_option autoImplicit false

theorem eq_ok_of_toOption {ε α : Type} {x : Except ε α} {a : α} (h : x.toOption = some a) :
    x = .ok a := by
  cases x with
  | error e => cases h
  | ok b => exact congrArg Except.ok (Option.some.inj h)

/-- What tokens say, without the end tokens among them. -/
def Token.contents (ts : List Token) : List Token.Content :=
  (ts.map Token.content).filter (· ≠ .endOfInput)

theorem Token.isEnd_eq_false_iff {t : Token} : t.isEnd = false ↔ t.content ≠ .endOfInput := by
  simp [Token.isEnd]

theorem Token.contents_cons_end {t : Token} {ts : List Token} (h : t.isEnd = true) :
    Token.contents (t :: ts) = Token.contents ts := by
  rw [Token.isEnd_iff] at h
  simp [Token.contents, h]

theorem Token.contents_cons {t : Token} {ts : List Token} (h : t.content ≠ .endOfInput) :
    Token.contents (t :: ts) = t.content :: Token.contents ts := by
  simp [Token.contents, h]

namespace Lexer

variable {l m : Lexer} {t : Token} {ts : List Token}

theorem scanAll_error {e : LexError} (h : l.next = (.error e, m)) : l.scanAll = (.error e, m) := by
  rw [scanAll]
  split <;> simp_all

theorem scanAll_end (h : l.next = (.ok t, m)) (ht : t.isEnd = true) :
    l.scanAll = (.ok [t], m) := by
  rw [scanAll]
  split <;> simp_all

theorem scanAll_cons (h : l.next = (.ok t, m)) (ht : t.isEnd = false) :
    l.scanAll = (m.scanAll.1.map (t :: ·), m.scanAll.2) := by
  rw [scanAll]
  split <;> simp_all

/-- From `l` on the source holds the tokens `ts`, the last of them the end token. -/
inductive Scans : Lexer → List Token → Prop where
  | last {l m : Lexer} {t : Token} (hnext : l.next = (.ok t, m)) (ht : t.isEnd = true) :
      Scans l [t]
  | cons {l m : Lexer} {t : Token} {ts : List Token} (hnext : l.next = (.ok t, m))
      (ht : t.isEnd = false) (hrest : Scans m ts) : Scans l (t :: ts)

theorem Scans.scanAll (h : Scans l ts) : l.scanAll.1 = .ok ts := by
  induction h with
  | last hnext ht => rw [scanAll_end hnext ht]
  | cons hnext ht _ ih =>
    rw [scanAll_cons hnext ht, ih]
    rfl

theorem scans_of_scanAll (h : l.scanAll.1 = .ok ts) : Scans l ts := by
  induction l using scanAll.induct generalizing ts with
  | case1 l e m hnext =>
    rw [scanAll_error hnext] at h
    cases h
  | case2 l t m hnext ht =>
    rw [scanAll_end hnext ht] at h
    cases h
    exact .last hnext ht
  | case3 l t m hnext ht _ ih =>
    rw [scanAll_cons hnext (by simpa using ht)] at h
    cases hm : m.scanAll.1 with
    | error e =>
      rw [hm] at h
      cases h
    | ok us =>
      rw [hm] at h
      cases h
      exact .cons hnext (by simpa using ht) (ih hm)

theorem Scans.uncons (h : l.Scans ts) (hnext : l.next = (.ok t, m)) :
    ∃ us, ts = t :: us ∧ (t.isEnd = false → m.Scans us) := by
  cases h with
  | last hnext' ht =>
    rw [hnext] at hnext'
    cases hnext'
    exact ⟨[], rfl, fun hne => by rw [ht] at hne; cases hne⟩
  | cons hnext' ht hrest =>
    rw [hnext] at hnext'
    cases hnext'
    exact ⟨_, rfl, fun _ => hrest⟩

theorem Scans.ends (h : l.Scans ts) : ∃ us e, ts = us ++ [e] ∧ e.isEnd = true := by
  induction h with
  | @last l m t hnext ht => exact ⟨[], t, rfl, ht⟩
  | @cons l m t ts hnext ht hrest ih =>
    obtain ⟨us, e, rfl, he⟩ := ih
    exact ⟨t :: us, e, rfl, he⟩

theorem Scans.unique {us : List Token} (h : l.Scans ts) (h' : l.Scans us) : ts = us :=
  Except.ok.inj (h.scanAll.symm.trans h'.scanAll)

theorem Scans.eq_end (h : l.Scans ts) (hnext : l.next = (.ok t, m)) (ht : t.isEnd = true) :
    ts = [t] :=
  h.unique (.last hnext ht)

/-- From `l` on the lexer gives the tokens `ts`, none of them the end token, and becomes `m`. -/
inductive Gives : Lexer → List Token → Lexer → Prop where
  | nil (l : Lexer) : Gives l [] l
  | cons {l m k : Lexer} {t : Token} {ts : List Token} (hnext : l.next = (.ok t, m))
      (ht : t.isEnd = false) (hrest : Gives m ts k) : Gives l (t :: ts) k

namespace Gives

variable {k : Lexer} {us : List Token}

theorem trans (h : Gives l ts m) (h' : Gives m us k) : Gives l (ts ++ us) k := by
  induction h with
  | nil => exact h'
  | cons hnext ht _ ih => exact .cons hnext ht (ih h')

theorem snoc (h : Gives l ts m) (hnext : m.next = (.ok t, k)) (ht : t.isEnd = false) :
    Gives l (ts ++ [t]) k := h.trans (.cons hnext ht (.nil k))

theorem length_le (h : Gives l ts m) : ts.length + m.rest.length ≤ l.rest.length := by
  induction h with
  | nil => exact Nat.le_of_eq (Nat.zero_add _)
  | cons hnext ht _ ih =>
    have hlt := next_length hnext ht
    rw [List.length_cons]
    omega

theorem scans (h : Gives l ts m) (hs : l.Scans us) : ∃ vs, us = ts ++ vs ∧ m.Scans vs := by
  induction h generalizing us with
  | nil => exact ⟨us, rfl, hs⟩
  | cons hnext ht _ ih =>
    obtain ⟨vs, rfl, hrest⟩ := hs.uncons hnext
    obtain ⟨ws, rfl, hws⟩ := ih (hrest ht)
    exact ⟨ws, rfl, hws⟩

theorem scanAll (h : Gives l ts m) : l.scanAll.1 = m.scanAll.1.map (ts ++ ·) := by
  induction h with
  | @nil l => cases l.scanAll.1 <;> rfl
  | @cons l m k t ts hnext ht _ ih =>
    rw [scanAll_cons hnext ht, ih]
    cases k.scanAll.1 <;> rfl

theorem scanAll_rest {e : LexError} (h : Gives l ts m) (he : l.scanAll.1 = .error e) :
    m.scanAll.1 = .error e := by
  rw [h.scanAll] at he
  cases hm : m.scanAll.1 with
  | error d =>
    rw [hm] at he
    exact he
  | ok us =>
    rw [hm] at he
    cases he

theorem scanAll_end (h : Gives l ts m) (hnext : m.next = (.ok t, k)) (ht : t.isEnd = true) :
    l.scanAll.1 = .ok (ts ++ [t]) := by
  rw [h.scanAll, Lexer.scanAll_end hnext ht]
  rfl

theorem scanAll_error {e : LexError} (h : Gives l ts m) (hnext : m.next = (.error e, k)) :
    l.scanAll.1 = .error e := by
  rw [h.scanAll, Lexer.scanAll_error hnext]
  rfl

end Gives

theorem Scans.gives {last : Token} (h : l.Scans (ts ++ [last])) :
    ∃ k n, l.Gives ts k ∧ k.next = (.ok last, n) ∧ last.isEnd = true := by
  induction ts generalizing l with
  | nil =>
    cases h with
    | last hnext ht => exact ⟨l, _, .nil l, hnext, ht⟩
    | cons _ _ hrest => cases hrest
  | cons t ts ih =>
    generalize hus : ts ++ [last] = us at ih
    rw [List.cons_append, hus] at h
    cases h with
    | last => simp at hus
    | cons hnext ht hrest =>
      obtain ⟨k, n, hgives, hlast⟩ := ih hrest
      exact ⟨k, n, .cons hnext ht hgives, hlast⟩

/-- After finitely many tokens a lexer gives the end token or fails. -/
theorem gives_to_end (l : Lexer) : ∃ ts m, Gives l ts m ∧
    ((∃ t k, m.next = (.ok t, k) ∧ t.isEnd = true) ∨ ∃ e k, m.next = (.error e, k)) := by
  induction l using scanAll.induct with
  | case1 l e m hnext => exact ⟨[], l, .nil l, .inr ⟨e, m, hnext⟩⟩
  | case2 l t m hnext ht => exact ⟨[], l, .nil l, .inl ⟨t, m, hnext, ht⟩⟩
  | case3 l t m hnext ht _ ih =>
    obtain ⟨ts, k, hgives, hlast⟩ := ih
    exact ⟨t :: ts, k, .cons hnext (by simpa using ht) hgives, hlast⟩

end Lexer
end Dvilipi
