/-!
Where the output of a session goes. A sink stores bytes; it may have a limit, beyond which it keeps
what still fits and fails, and it may refuse to be flushed.
-/

namespace Dvilipi
set_option autoImplicit false

structure Sink where
  stored : ByteArray
  limit : Option Nat
  flushFails : Bool

namespace Sink

def unlimited : Sink := ⟨.empty, none, false⟩

instance : Inhabited Sink := ⟨unlimited⟩

/-- How many of `n` further bytes the sink takes. -/
def accepted (s : Sink) (n : Nat) : Nat :=
  match s.limit with
  | some limit => min n (limit - s.stored.size)
  | none => n

def full : String := "sink full"

/-- Stores a text; a text that does not fit is cut off at the limit. -/
def write (s : Sink) (text : String) : Except String Unit × Sink :=
  let bytes := text.toUTF8
  let n := s.accepted bytes.size
  if n < bytes.size then
    (.error full, { s with stored := s.stored ++ bytes.extract 0 n })
  else (.ok (), { s with stored := s.stored ++ bytes })

def flush (s : Sink) : Except String Unit :=
  if s.flushFails then .error "flush failed" else .ok ()

theorem write_unlimited (s : Sink) (h : s.limit = none) (text : String) :
    s.write text = (.ok (), { s with stored := s.stored ++ text.toUTF8 }) := by
  simp [write, accepted, h]

end Sink
end Dvilipi
