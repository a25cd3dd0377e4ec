import Dvilipi.Proofs.Parser.OnDemand
import Dvilipi.Proofs.Tree.Determined
import Dvilipi.Proofs.Tree.Shift

/-!
Parsing goes along with putting sources one after the other. The statements of the first source keep
their places, those of the second are displaced by what stands in front of it.
-/

namespace Dvilipi
set_option autoImplicit false

namespace Program

variable {source : String} {a : Program} {ts : List Token}

theorem readFrom_of_ofSource (h : ofSource source = .ok a) (hs : (Lexer.ofSource source).Scans ts) :
    ∃ us e, ts = us ++ [e] ∧ Stmt.AllReadFrom a.statements us := by
  cases hp : Parser.ofSource (Lexer.ofSource source) with
  | error e =>
    rw [ofSource, hp] at h
    cases h
  | ok p =>
    obtain ⟨q, hq⟩ := (ofSource_eq_ok hp).mp h
    have hreads := Parser.reads_program p.budget p
    rw [hq] at hreads
    obtain ⟨us, hus, hall⟩ := hreads
    obtain ⟨m, hm, hnext⟩ := hus.gives (Parser.next_of_ofSource hp)
    obtain ⟨vs, rfl, hvs⟩ := hm.scans hs
    have hend := Token.isEnd_iff.mpr (Parser.end_of_program hq)
    exact ⟨us, q.current, by rw [hvs.eq_end hnext hend], hall⟩

/-- Two sources with a newline between them are parsed as one, if the first leaves no comment open: to
its statements as they are, and to those of the second, displaced by the characters in front of it. -/
theorem ofSource_concat {first second : String} {a b : Program} (ha : ofSource first = .ok a)
    (hb : ofSource second = .ok b) (hclosed : ¬ Lexer.EndsInComment first) :
    ofSource (first ++ "\n" ++ second) =
      .ok ⟨a.statements ++ b.statements.map (Stmt.shift (first.length + 1))⟩ := by
  obtain ⟨d, ⟨ts, hts, hd⟩, -⟩ := says_of_ofSource ha
  obtain ⟨-, ⟨ws, hws, -⟩, -⟩ := says_of_ofSource hb
  obtain ⟨us, e, rfl, hscans⟩ :=
    Lexer.scans_join hts hws (hd ▸ d.string_notMem_getLast?) hclosed
  obtain ⟨c, hc, hbare⟩ := ofSource_join ha hb hclosed
  obtain ⟨us', end₁, hus, hareads⟩ := readFrom_of_ofSource ha hts
  obtain ⟨vs, end₂, rfl, hbreads⟩ := readFrom_of_ofSource hb hws
  obtain ⟨rs, end₃, hrs, hcreads⟩ := readFrom_of_ofSource hc hscans
  obtain ⟨rfl, -⟩ := List.append_inj' hus rfl
  rw [List.map_append, ← List.append_assoc] at hrs
  obtain ⟨rfl, -⟩ := List.append_inj' hrs rfl
  have hshifted : Stmt.bareList c.statements = Stmt.bareList
      (a.statements ++ Stmt.shiftList (first.length + 1) b.statements) := by
    rw [hbare, Stmt.bareList_append, Stmt.bareList_append, Stmt.bareList_shiftList]
  rw [hc, ← Stmt.shiftList_eq_map, ← hcreads.unique (hareads.append hbreads.shift) hshifted]

/-- No `else` is looked for in the second source, and its sign is no minus. -/
theorem ofSource_concat_conditional : ∃ a b, ofSource "if a \x7b \x7d // no else" = .ok a ∧
    ofSource "-b;" = .ok b ∧ ofSource ("if a \x7b \x7d // no else" ++ "\n" ++ "-b;") =
      .ok ⟨a.statements ++ b.statements.map (Stmt.shift 20)⟩ := by
  have hfirst : (ofSource "if a \x7b \x7d // no else").toOption.isSome = true := by decide +kernel
  have hsecond : (ofSource "-b;").toOption.isSome = true := by decide +kernel
  obtain ⟨a, ha⟩ := Option.isSome_iff_exists.mp hfirst
  obtain ⟨b, hb⟩ := Option.isSome_iff_exists.mp hsecond
  have hlength : "if a \x7b \x7d // no else".length + 1 = 20 := by decide
  have hjoined := ofSource_concat (eq_ok_of_toOption ha) (eq_ok_of_toOption hb)
    (Lexer.not_endsInComment (by decide +kernel))
  rw [hlength] at hjoined
  exact ⟨a, b, eq_ok_of_toOption ha, eq_ok_of_toOption hb, hjoined⟩

end Program
end Dvilipi
