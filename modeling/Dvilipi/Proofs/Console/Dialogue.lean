import Dvilipi.Console.Repl
import Dvilipi.Proofs.Session.Hidden
import Dvilipi.Proofs.Text.Lines

/-!
The console as a dialogue: it answers each line by itself, and only what a line leaves behind in the
session can show in the answers to others. Lines that run no program leave nothing behind.
-/

namespace Dvilipi
set_option autoImplicit false

def Transcript.join (ts : List Transcript) : Transcript := ts.foldr (· ++ ·) .empty

theorem Transcript.join_singleton (a : Transcript) : join [a] = a := a.append_empty

namespace Repl

def decode (line : List UInt8) : Option String := String.fromUTF8? ⟨line.toArray⟩

/-- What the console does about a line. It leaves at a line that is no text. -/
def answer (rounds : Nat) (s : Session) (line : List UInt8) : Response :=
  match decode line with
  | none => .leave (.ofPlain undecodable)
  | some text => respond rounds s text

/-- The answers to the lines that are read, each behind its prompt, and at last to the end of the input;
and whether the session came to an end. -/
def dialogue (rounds : Nat) (s : Session) : List (List UInt8) → List Transcript × Bool
  | [] => ([.ofText prompt ++ .ofText "\n"], true)
  | line :: lines =>
    match answer rounds s line with
    | .stay shown t =>
      let d := dialogue rounds t lines
      ((.ofText prompt ++ shown) :: d.1, d.2)
    | .leave shown => ([.ofText prompt ++ shown], true)
    | .unfinished => ([.ofText prompt], false)

variable {rounds : Nat} {s t : Session} {line : List UInt8} {shown : Transcript}

theorem dialogue_stay (h : answer rounds s line = .stay shown t) (lines : List (List UInt8)) :
    dialogue rounds s (line :: lines) =
      ((.ofText prompt ++ shown) :: (dialogue rounds t lines).1, (dialogue rounds t lines).2) := by
  rw [dialogue, h]

theorem dialogue_leave (h : answer rounds s line = .leave shown) (lines : List (List UInt8)) :
    dialogue rounds s (line :: lines) = ([.ofText prompt ++ shown], true) := by
  rw [dialogue, h]

theorem dialogue_unfinished (h : answer rounds s line = .unfinished) (lines : List (List UInt8)) :
    dialogue rounds s (line :: lines) = ([.ofText prompt], false) := by
  rw [dialogue, h]

theorem converse_cons (rounds : Nat) (s : Session) (line : List UInt8) (lines : List (List UInt8)) :
    converse rounds s (line :: lines) = match answer rounds s line with
      | .stay shown t =>
        (.ofText prompt ++ shown ++ (converse rounds t lines).1, (converse rounds t lines).2)
      | .leave shown => (.ofText prompt ++ shown, true)
      | .unfinished => (.ofText prompt, false) := by
  rw [converse, answer, decode]
  cases String.fromUTF8? ⟨line.toArray⟩ with
  | none => rfl
  | some text => cases h : respond rounds s text <;> simp only [h]

theorem converse_eq_dialogue (rounds : Nat) (s : Session) (lines : List (List UInt8)) :
    converse rounds s lines =
      (Transcript.join (dialogue rounds s lines).1, (dialogue rounds s lines).2) := by
  induction lines generalizing s with
  | nil => rw [converse, dialogue, Transcript.join_singleton]
  | cons line lines ih =>
    rw [converse_cons]
    cases h : answer rounds s line with
    | stay shown t =>
      dsimp only
      rw [dialogue_stay h, ih]
      rfl
    | leave shown => rw [dialogue_leave h, Transcript.join_singleton]
    | unfinished => rw [dialogue_unfinished h, Transcript.join_singleton]

/-- The sessions differ in what has been shown, and otherwise in nothing that a program can tell. Each
line starts with an empty sink. -/
def Resembles (s t : Session) : Prop :=
  Session.Shadows { s with sink := .unlimited } { t with sink := .unlimited }

theorem resembles_of_shadows (h : s.Shadows t) : Resembles s t :=
  ⟨h.natives, h.functions, h.environment, rfl, h.depth⟩

/-- The same is shown, and the console goes on in sessions that resemble each other. -/
inductive Response.Alike : Response → Response → Prop where
  | stay {shown : Transcript} {s t : Session} (h : Resembles s t) :
      Alike (.stay shown s) (.stay shown t)
  | leave {shown : Transcript} : Alike (.leave shown) (.leave shown)
  | unfinished : Alike .unfinished .unfinished

theorem Resembles.runText (h : Resembles s t) (rounds : Nat) (text : String) :
    (runText rounds s text).Alike (runText rounds t text) := by
  have hrun := Session.Shadows.run h rounds text
  unfold Repl.runText
  generalize Session.run rounds text { s with sink := .unlimited } = r,
    Session.run rounds text { t with sink := .unlimited } = r' at hrun ⊢
  cases hrun with
  | @ok v s' t' h' =>
    have hstay := resembles_of_shadows h'
    cases v <;> simp only [h'.sink] <;> exact .stay hstay
  | failed he h' =>
    subst he
    simp only [h'.sink]
    exact .stay (resembles_of_shadows h')
  | exhausted => exact .unfinished

theorem Resembles.respond (h : Resembles s t) (rounds : Nat) (text : String) :
    (respond rounds s text).Alike (respond rounds t text) := by
  unfold Repl.respond
  cases Command.ofLine text with
  | blank => exact .stay h
  | leave => exact .leave
  | help => exact .stay h
  | source text => exact h.runText rounds text

theorem Resembles.answer (h : Resembles s t) (rounds : Nat) (line : List UInt8) :
    (answer rounds s line).Alike (answer rounds t line) := by
  unfold Repl.answer
  cases decode line with
  | none => exact .leave
  | some text => exact h.respond rounds text

theorem Resembles.dialogue_eq (h : Resembles s t) (rounds : Nat)
    (lines : List (List UInt8)) : dialogue rounds s lines = dialogue rounds t lines := by
  induction lines generalizing s t with
  | nil => rfl
  | cons line lines ih =>
    have hanswer := h.answer rounds line
    unfold dialogue
    generalize Repl.answer rounds s line = r, Repl.answer rounds t line = r' at hanswer ⊢
    cases hanswer with
    | stay h' =>
      dsimp only
      rw [ih h']
    | leave => rfl
    | unfinished => rfl

/-- The command runs nothing: it is blank, asks for help, or holds no program. -/
def Command.Idle : Command → Prop
  | .blank => True
  | .leave => False
  | .help => True
  | .source text => ∃ e, Program.ofSource text = .error e

def Idle (line : List UInt8) : Prop := ∃ text, decode line = some text ∧ (Command.ofLine text).Idle

/-- The line asks to leave, or is no text. -/
def Final (line : List UInt8) : Prop :=
  ∀ text, decode line = some text → Command.ofLine text = .leave

theorem runText_error {text : String} {e : ParseError} (h : Program.ofSource text = .error e)
    (rounds : Nat) (s : Session) :
    ∃ shown t, runText rounds s text = .stay shown t ∧ Resembles s t := by
  unfold runText Session.run
  rw [h]
  exact ⟨_, _, rfl, rfl, fun _ _ => rfl, rfl, rfl, rfl⟩

/-- The console goes on behind an idle line as if it had not been there. -/
theorem Idle.answer (h : Idle line) (rounds : Nat) (s : Session) :
    ∃ shown t, answer rounds s line = .stay shown t ∧ Resembles s t := by
  obtain ⟨text, htext, hidle⟩ := h
  have hself : Resembles s s := resembles_of_shadows (.refl s)
  unfold Repl.answer respond
  rw [htext]
  dsimp only
  cases hcommand : Command.ofLine text with
  | blank => exact ⟨_, s, rfl, hself⟩
  | leave =>
    rw [hcommand] at hidle
    exact hidle.elim
  | help => exact ⟨_, s, rfl, hself⟩
  | source source =>
    rw [hcommand] at hidle
    obtain ⟨e, he⟩ := hidle
    exact runText_error he rounds s

theorem Final.answer (h : Final line) :
    ∃ shown, ∀ rounds s, answer rounds s line = .leave shown := by
  unfold Repl.answer
  cases htext : decode line with
  | none => exact ⟨_, fun _ _ => rfl⟩
  | some text =>
    refine ⟨.ofText farewell, fun rounds s => ?_⟩
    dsimp only
    rw [respond, h text htext]

variable (rounds s) (ls ms : List (List UInt8))

theorem dialogue_without (h : Idle line) :
    dialogue rounds s (ls ++ ms) =
      ((dialogue rounds s (ls ++ line :: ms)).1.eraseIdx ls.length,
        (dialogue rounds s (ls ++ line :: ms)).2) := by
  induction ls generalizing s with
  | nil =>
    obtain ⟨shown, t, hanswer, hsame⟩ := h.answer rounds s
    rw [List.nil_append, List.nil_append, dialogue_stay hanswer, hsame.dialogue_eq]
    rfl
  | cons l ls ih =>
    rw [List.cons_append, List.cons_append]
    cases hanswer : answer rounds s l with
    | stay shown t =>
      rw [dialogue_stay hanswer, dialogue_stay hanswer, ih t]
      rfl
    | leave shown =>
      rw [dialogue_leave hanswer, dialogue_leave hanswer]
      rfl
    | unfinished =>
      rw [dialogue_unfinished hanswer, dialogue_unfinished hanswer]
      rfl

theorem dialogue_final (h : Final line) (ms' : List (List UInt8)) :
    dialogue rounds s (ls ++ line :: ms') = dialogue rounds s (ls ++ line :: ms) := by
  induction ls generalizing s with
  | nil =>
    obtain ⟨shown, hanswer⟩ := h.answer
    rw [List.nil_append, List.nil_append, dialogue_leave (hanswer rounds s),
      dialogue_leave (hanswer rounds s)]
  | cons l ls ih =>
    rw [List.cons_append, List.cons_append, dialogue, dialogue]
    cases answer rounds s l with
    | stay shown t =>
      dsimp only
      rw [ih t]
    | leave shown => rfl
    | unfinished => rfl

/-- The answers of a console that reads the given bytes, and whether its session came to an end. -/
def answers (stdin : List UInt8) : List Transcript × Bool :=
  dialogue rounds (.fresh .unlimited) (Text.byteLines stdin)

theorem transcript_eq_answers (stdin : List UInt8) :
    transcript rounds stdin =
      (.ofText banner ++ Transcript.join (answers rounds stdin).1, (answers rounds stdin).2) := by
  rw [transcript, converse_eq_dialogue, answers]

/-- The console shows its banner and then the answers to the lines it reads. Without an idle line, it
reads the other lines as before and gives them the same answers in the same order. What stands behind a
final line does not count. -/
theorem transcript_undisturbed (stdin : List UInt8) :
    transcript rounds stdin =
        (.ofText banner ++ Transcript.join (answers rounds stdin).1, (answers rounds stdin).2) ∧
      ∀ ls line ms, Text.byteLines stdin = ls ++ line :: ms →
        (Idle line →
          Text.byteLines (ls.flatten ++ ms.flatten) = ls ++ ms ∧
            answers rounds (ls.flatten ++ ms.flatten) =
              ((answers rounds stdin).1.eraseIdx ls.length, (answers rounds stdin).2) ∧
            transcript rounds (ls.flatten ++ ms.flatten) =
              (.ofText banner ++ Transcript.join ((answers rounds stdin).1.eraseIdx ls.length),
                (answers rounds stdin).2)) ∧
        (Final line → ∀ other ms', Text.byteLines other = ls ++ line :: ms' →
          answers rounds other = answers rounds stdin ∧
            transcript rounds other = transcript rounds stdin) := by
  refine ⟨transcript_eq_answers rounds stdin, fun ls line ms h => ⟨fun hidle => ?_, ?_⟩⟩
  · have hlines := Text.byteLines_without h
    have hothers : answers rounds (ls.flatten ++ ms.flatten) =
        ((answers rounds stdin).1.eraseIdx ls.length, (answers rounds stdin).2) := by
      rw [answers, answers, hlines, h]
      exact dialogue_without rounds (.fresh .unlimited) ls ms hidle
    refine ⟨hlines, hothers, ?_⟩
    rw [transcript_eq_answers, hothers]
  · intro hfinal other ms' hother
    have hsame : answers rounds other = answers rounds stdin := by
      rw [answers, answers, hother, h]
      exact dialogue_final rounds (.fresh .unlimited) ls ms hfinal ms'
    refine ⟨hsame, ?_⟩
    rw [transcript_eq_answers, transcript_eq_answers, hsame]

def bytesOf (text : String) : List UInt8 := text.toUTF8.data.toList

theorem idle_brace : Idle (bytesOf "\x7d\n") := by
  have htext : decode (bytesOf "\x7d\n") = some "\x7d\n" := by decide +kernel
  have hcommand : Command.ofLine "\x7d\n" = .source "\x7d" := by decide +kernel
  have herror : (Program.ofSource "\x7d").toBool = false := by decide +kernel
  refine ⟨_, htext, ?_⟩
  rw [hcommand]
  cases h : Program.ofSource "\x7d" with
  | error e => exact ⟨e, h⟩
  | ok p =>
    rw [h] at herror
    cases herror

theorem final_quit : Final (bytesOf "quit\n") := by
  have htext : decode (bytesOf "quit\n") = some "quit\n" := by decide +kernel
  intro text h
  rw [htext] at h
  cases h
  decide +kernel

/-- The second of the lines is no program, and the fourth one leaves. -/
theorem transcript_undisturbed_brace :
    let stdin := bytesOf "a = 'b';\n\x7d\na;\nquit\n\x7d"
    Idle (bytesOf "\x7d\n") ∧ Final (bytesOf "quit\n") ∧
      (answers 1 stdin).1.length = 4 ∧ (answers 1 stdin).2 = true ∧
      transcript 1 (bytesOf "a = 'b';\na;\nquit\n\x7d") =
        (.ofText banner ++ Transcript.join ((answers 1 stdin).1.eraseIdx 1), true) ∧
      transcript 1 (bytesOf "a = 'b';\n\x7d\na;\nquit\nelse") = transcript 1 stdin := by
  intro stdin
  let before : List (List UInt8) := [bytesOf "a = 'b';\n"]
  let brace := bytesOf "\x7d\n"
  let between := [bytesOf "a;\n"]
  let quit := bytesOf "quit\n"
  have hidle : Text.byteLines stdin = before ++ brace :: (between ++ [quit, bytesOf "\x7d"]) := by
    decide +kernel
  have hfinal : Text.byteLines stdin = (before ++ brace :: between) ++ quit :: [bytesOf "\x7d"] := by
    decide +kernel
  have hother : Text.byteLines (bytesOf "a = 'b';\n\x7d\na;\nquit\nelse") =
      (before ++ brace :: between) ++ quit :: [bytesOf "else"] := by
    decide +kernel
  have hkept : bytesOf "a = 'b';\na;\nquit\n\x7d" =
      before.flatten ++ (between ++ [quit, bytesOf "\x7d"]).flatten := by
    decide +kernel
  have hended : (answers 1 stdin).2 = true := by decide +kernel
  obtain ⟨-, hundisturbed⟩ := transcript_undisturbed 1 stdin
  refine ⟨idle_brace, final_quit, by decide +kernel, hended, ?_, ?_⟩
  · rw [hkept, ← hended]
    exact ((hundisturbed _ _ _ hidle).1 idle_brace).2.2
  · exact ((hundisturbed _ _ _ hfinal).2 final_quit _ _ hother).2

end Repl
end Dvilipi
