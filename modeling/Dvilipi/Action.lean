/-!
Actions on a state. An action ends with a value or an error, and either way leaves a state behind; it
may also give up because a budget that it was given is used up. In a sequence the first error, or the
first giving up, ends the whole.
-/

namespace Dvilipi
set_option autoImplicit false

inductive Reply (ε σ α : Type) where
  | ok (value : α) (state : σ)
  | failed (error : ε) (state : σ)
  | exhausted

/-- The value or error of a reply that is no giving up, and the state left behind. -/
def Reply.settled {ε σ α : Type} (r : Reply ε σ α) (h : r ≠ .exhausted) : Except ε α × σ :=
  match r, h with
  | .ok a s, _ => (.ok a, s)
  | .failed e s, _ => (.error e, s)

theorem Reply.settled_eq_ok {ε σ α : Type} {r : Reply ε σ α} (h : r ≠ .exhausted) {a : α} {s : σ} :
    r.settled h = (.ok a, s) ↔ r = .ok a s := by
  cases r with
  | ok b t => simp [settled]
  | failed e t => simp [settled]
  | exhausted => exact absurd rfl h

theorem Reply.settled_eq_error {ε σ α : Type} {r : Reply ε σ α} (h : r ≠ .exhausted) {e : ε}
    {s : σ} : r.settled h = (.error e, s) ↔ r = .failed e s := by
  cases r with
  | ok b t => simp [settled]
  | failed d t => simp [settled]
  | exhausted => exact absurd rfl h

def Action (ε σ α : Type) : Type := σ → Reply ε σ α

namespace Action

variable {ε σ α β : Type}

@[always_inline, inline] protected def pure (a : α) : Action ε σ α := fun s => .ok a s

@[always_inline, inline] protected def bind (p : Action ε σ α) (f : α → Action ε σ β) : Action ε σ β :=
  fun s =>
    match p s with
    | .ok a t => f a t
    | .failed e t => .failed e t
    | .exhausted => .exhausted

@[always_inline] instance : Monad (Action ε σ) where
  pure := Action.pure
  bind := Action.bind

@[always_inline, inline] def fail (e : ε) : Action ε σ α := fun s => .failed e s

def exhausted : Action ε σ α := fun _ => .exhausted

@[always_inline, inline] def get : Action ε σ σ := fun s => .ok s s

@[always_inline, inline] def modify (f : σ → σ) : Action ε σ Unit := fun s => .ok () (f s)

theorem bind_apply (p : Action ε σ α) (f : α → Action ε σ β) (s : σ) :
    (p >>= f) s =
      match p s with
      | .ok a t => f a t
      | .failed e t => .failed e t
      | .exhausted => .exhausted := rfl

theorem bind_eq_ok {p : Action ε σ α} {f : α → Action ε σ β} {s t : σ} {b : β} :
    (p >>= f) s = .ok b t ↔ ∃ a u, p s = .ok a u ∧ f a u = .ok b t := by
  rw [bind_apply]
  cases p s with
  | ok a u => exact ⟨fun h => ⟨a, u, rfl, h⟩, fun ⟨_, _, h, hf⟩ => by cases h; exact hf⟩
  | failed e u => simp
  | exhausted => simp

theorem bind_eq_failed {p : Action ε σ α} {f : α → Action ε σ β} {s t : σ} {e : ε} :
    (p >>= f) s = .failed e t ↔
      p s = .failed e t ∨ ∃ a u, p s = .ok a u ∧ f a u = .failed e t := by
  rw [bind_apply]
  cases p s with
  | ok a u =>
    constructor
    · exact fun h => .inr ⟨a, u, rfl, h⟩
    · rintro (h | ⟨_, _, h, hf⟩)
      · cases h
      · cases h
        exact hf
  | failed e u => simp
  | exhausted => simp

theorem bind_eq_exhausted {p : Action ε σ α} {f : α → Action ε σ β} {s : σ} :
    (p >>= f) s = .exhausted ↔
      p s = .exhausted ∨ ∃ a u, p s = .ok a u ∧ f a u = .exhausted := by
  rw [bind_apply]
  cases p s with
  | ok a u =>
    constructor
    · exact fun h => .inr ⟨a, u, rfl, h⟩
    · rintro (h | ⟨_, _, h, hf⟩)
      · cases h
      · cases h
        exact hf
  | failed e u => simp
  | exhausted => simp

theorem id_map (p : Action ε σ α) : id <$> p = p := by
  funext s
  change Action.bind p (fun a => Action.pure (id a)) s = p s
  unfold Action.bind
  cases p s <;> rfl

theorem bind_assoc {γ : Type} (p : Action ε σ α) (f : α → Action ε σ β) (g : β → Action ε σ γ) :
    p >>= f >>= g = p >>= fun a => f a >>= g := by
  funext s
  simp only [bind_apply]
  cases p s <;> rfl

instance : LawfulMonad (Action ε σ) := .mk' _ id_map (fun _ _ => rfl) bind_assoc

end Action
end Dvilipi
