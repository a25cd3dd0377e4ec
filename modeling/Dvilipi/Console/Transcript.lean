import Dvilipi.Console.Diagnostic

/-!
Transcripts: what a run of the console or of a script has shown so far. Transcripts are joined end to
end.
-/

namespace Dvilipi
set_option autoImplicit false

structure Transcript where
  stdout : ByteArray
  diagnostics : List Diagnostic
  /-- Messages about files and streams, which belong to no source text. -/
  plain : List String

namespace Transcript

def empty : Transcript := ⟨.empty, [], []⟩

def ofBytes (bytes : ByteArray) : Transcript := ⟨bytes, [], []⟩

def ofText (text : String) : Transcript := ofBytes text.toUTF8

def ofDiagnostic (d : Diagnostic) : Transcript := ⟨.empty, [d], []⟩

def ofPlain (message : String) : Transcript := ⟨.empty, [], [message]⟩

instance : Append Transcript where
  append a b := ⟨a.stdout ++ b.stdout, a.diagnostics ++ b.diagnostics, a.plain ++ b.plain⟩

theorem append_def (a b : Transcript) :
    a ++ b = ⟨a.stdout ++ b.stdout, a.diagnostics ++ b.diagnostics, a.plain ++ b.plain⟩ := rfl

theorem append_empty (a : Transcript) : a ++ empty = a := by
  simp [append_def, empty]

end Transcript
end Dvilipi
