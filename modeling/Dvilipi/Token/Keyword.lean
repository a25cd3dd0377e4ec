import Dvilipi.Text.Script

/-!
The reserved words. Each has one spelling in either script, and no spelling serves two words.
-/

namespace Dvilipi
set_option autoImplicit false

inductive Keyword where
  | fn
  | let_
  | const
  | if_
  | else_
  | while_
  | for_
  | return_
  | async
  | await
  | match_
  | tensor
  | type_
  | interface
  | import_
  | export_
  | try_
  | catch_
  | throw_
  deriving DecidableEq, Repr

namespace Keyword

def all : List Keyword :=
  [fn, let_, const, if_, else_, while_, for_, return_, async, await, match_, tensor, type_,
    interface, import_, export_, try_, catch_, throw_]

def latin : Keyword → String
  | fn => "fn"
  | let_ => "let"
  | const => "const"
  | if_ => "if"
  | else_ => "else"
  | while_ => "while"
  | for_ => "for"
  | return_ => "return"
  | async => "async"
  | await => "await"
  | match_ => "match"
  | tensor => "tensor"
  | type_ => "type"
  | interface => "interface"
  | import_ => "import"
  | export_ => "export"
  | try_ => "try"
  | catch_ => "catch"
  | throw_ => "throw"

def devanagari : Keyword → String
  | fn => "कार्य"
  | let_ => "चर"
  | const => "स्थिर"
  | if_ => "यदि"
  | else_ => "अन्यथा"
  | while_ => "यावत्"
  | for_ => "प्रति"
  | return_ => "प्रतिफल"
  | async => "असमकालिक"
  | await => "प्रतीक्षा"
  | match_ => "मेल"
  | tensor => "टेन्सर"
  | type_ => "प्रकार"
  | interface => "अन्तरापृष्ठ"
  | import_ => "आयात"
  | export_ => "निर्यात"
  | try_ => "प्रयास"
  | catch_ => "ग्रहण"
  | throw_ => "क्षेप"

def spelling (k : Keyword) : Script → String
  | .latin => k.latin
  | .devanagari => k.devanagari

/-- The reserved word that `word` spells, and the script it is spelled in. -/
def ofWord? (word : String) : Option (Keyword × Script) :=
  match all.find? (fun k => k.latin == word) with
  | some k => some (k, .latin)
  | none => (all.find? (fun k => k.devanagari == word)).map fun k => (k, .devanagari)

theorem spelling_of_ofWord? {word : String} {k : Keyword} {s : Script}
    (h : ofWord? word = some (k, s)) : k.spelling s = word := by
  unfold ofWord? at h
  split at h
  · next hk =>
    cases h
    simpa [spelling] using List.find?_some hk
  · obtain ⟨j, hj, he⟩ := Option.map_eq_some_iff.mp h
    cases he
    simpa [spelling] using List.find?_some hj

theorem ofWord?_spelling (k : Keyword) (s : Script) : ofWord? (k.spelling s) = some (k, s) := by
  cases k <;> cases s <;> decide +kernel

end Keyword
end Dvilipi
