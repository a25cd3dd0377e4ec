import Dvilipi.Proofs.Tree.Bare
import Dvilipi.Token.Keyword

/-!
Trees with other type names. A type name is kept as it is spelled, so the one type that is a word of
the language has two spellings; trees that differ in it only are made the same by `latinized`.
-/

namespace Dvilipi
set_option autoImplicit false

def Parameter.mapType (k : TypeName → TypeName) (p : Parameter) : Parameter :=
  { p with ascription := p.ascription.map k }

mutual

def Stmt.mapTypes (k : TypeName → TypeName) : Stmt → Stmt
  | .function f ps r body s =>
    .function f (ps.map (Parameter.mapType k)) (r.map k) (body.mapTypes k) s
  | .binding x constant t e s => .binding x constant (t.map k) e s
  | .expression e s => .expression e s
  | .ifThen c yes s => .ifThen c (yes.mapTypes k) s
  | .ifElse c yes no s => .ifElse c (yes.mapTypes k) (no.mapTypes k) s
  | .while_ c body s => .while_ c (body.mapTypes k) s
  | .return_ e s => .return_ e s

def Block.mapTypes (k : TypeName → TypeName) : Block → Block
  | .mk statements s => .mk (Stmt.mapTypesList k statements) s

def Stmt.mapTypesList (k : TypeName → TypeName) : List Stmt → List Stmt
  | [] => []
  | s :: ss => s.mapTypes k :: Stmt.mapTypesList k ss

end

def Program.mapTypes (k : TypeName → TypeName) (p : Program) : Program :=
  ⟨Stmt.mapTypesList k p.statements⟩

variable {k : TypeName → TypeName}

theorem TypeName.optional_bare_map (hk : ∀ t, (k t).bare = k t.bare) (t : Option TypeName) :
    (t.map k).map TypeName.bare = (t.map TypeName.bare).map k := by
  cases t with
  | none => rfl
  | some t => exact congrArg some (hk t)

theorem Parameter.bare_mapType (hk : ∀ t, (k t).bare = k t.bare) (p : Parameter) :
    (p.mapType k).bare = p.bare.mapType k :=
  congrArg (Parameter.mk p.name · .blank) (TypeName.optional_bare_map hk p.ascription)

mutual

theorem Stmt.bare_mapTypes (hk : ∀ t, (k t).bare = k t.bare) :
    ∀ s : Stmt, (s.mapTypes k).bare = s.bare.mapTypes k
  | .function f ps r body sp => by
    have hps : (ps.map (Parameter.mapType k)).map Parameter.bare =
        (ps.map Parameter.bare).map (Parameter.mapType k) := by
      rw [List.map_map, List.map_map]
      exact List.map_congr_left fun p _ => p.bare_mapType hk
    simp only [Stmt.mapTypes, Stmt.bare, hps, TypeName.optional_bare_map hk, body.bare_mapTypes hk]
  | .binding x constant t e sp => by
    simp only [Stmt.mapTypes, Stmt.bare, TypeName.optional_bare_map hk]
  | .expression e sp => rfl
  | .ifThen c yes sp => by simp only [Stmt.mapTypes, Stmt.bare, yes.bare_mapTypes hk]
  | .ifElse c yes no sp => by
    simp only [Stmt.mapTypes, Stmt.bare, yes.bare_mapTypes hk, no.bare_mapTypes hk]
  | .while_ c body sp => by simp only [Stmt.mapTypes, Stmt.bare, body.bare_mapTypes hk]
  | .return_ e sp => rfl

theorem Block.bare_mapTypes (hk : ∀ t, (k t).bare = k t.bare) :
    ∀ b : Block, (b.mapTypes k).bare = b.bare.mapTypes k
  | .mk ss sp => by simp only [Block.mapTypes, Block.bare, Stmt.bareList_mapTypesList hk ss]

theorem Stmt.bareList_mapTypesList (hk : ∀ t, (k t).bare = k t.bare) :
    ∀ ss : List Stmt, Stmt.bareList (Stmt.mapTypesList k ss) = Stmt.mapTypesList k (Stmt.bareList ss)
  | [] => rfl
  | s :: ss => by
    simp only [Stmt.mapTypesList, Stmt.bareList, s.bare_mapTypes hk, Stmt.bareList_mapTypesList hk ss]

end

theorem Program.bare_mapTypes (hk : ∀ t, (k t).bare = k t.bare) (p : Program) :
    (p.mapTypes k).bare = p.bare.mapTypes k :=
  congrArg Program.mk (Stmt.bareList_mapTypesList hk p.statements)

/-- The type `tensor` in its Latin spelling, every other type as it is. -/
def TypeName.latinized (t : TypeName) : TypeName :=
  if t.name = Keyword.tensor.devanagari then { t with name := Keyword.tensor.latin } else t

theorem TypeName.bare_latinized (t : TypeName) : t.latinized.bare = t.bare.latinized := by
  unfold latinized bare
  dsimp only
  split <;> rfl

theorem TypeName.latinized_tensor (script : Script) (span : Span) :
    latinized ⟨Keyword.tensor.spelling script, span⟩ = ⟨Keyword.tensor.latin, span⟩ := by
  cases script <;> rfl

def Program.latinized (p : Program) : Program := p.mapTypes TypeName.latinized

theorem Program.bare_latinized (p : Program) : p.latinized.bare = p.bare.latinized :=
  p.bare_mapTypes TypeName.bare_latinized

end Dvilipi
