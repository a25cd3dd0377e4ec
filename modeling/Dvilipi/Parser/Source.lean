import Dvilipi.Parser.Progress

/-!
Parsing of sources. The budget of a production is taken from the tokens that are pending, so it never
runs out. A parser that failed stays where it stopped and may be asked again.
-/

namespace Dvilipi
set_option autoImplicit false

namespace Parser

variable {σ : Type} [TokenSource σ]

def budget (p : Parser σ) : Nat := p.pending + 2

theorem expression_ne_exhausted (p : Parser σ) : expression p.budget p ≠ .exhausted :=
  (takes_expression (p.pending + 1) p (Nat.lt_succ_self _)).ne_exhausted

theorem program_ne_exhausted (p : Parser σ) : program p.budget p ≠ .exhausted :=
  (below_program (Nat.lt_succ_self _)).ne_exhausted

def parseExpression (p : Parser σ) : Except ParseError Expr × Parser σ :=
  (expression p.budget p).settled p.expression_ne_exhausted

def parseProgram (p : Parser σ) : Except ParseError Program × Parser σ :=
  (program p.budget p).settled p.program_ne_exhausted

end Parser

def Program.ofSource (source : String) : Except ParseError Program := do
  let p ← Parser.ofSource (Lexer.ofSource source)
  p.parseProgram.1

end Dvilipi
