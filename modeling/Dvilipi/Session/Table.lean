/-!
Tables from names to what they stand for. No name occurs twice; a name that is bound again keeps its
place and a new name goes to the end. What a table says is told by `get?`.
-/

namespace Dvilipi
set_option autoImplicit false

namespace Table

variable {α : Type}

/-- The keys of an association list. -/
def keys (entries : List (String × α)) : List String := entries.map Prod.fst

/-- Binds `name` in an association list: in its place if it is bound, else at the end. -/
def bind (name : String) (a : α) : List (String × α) → List (String × α)
  | [] => [(name, a)]
  | (key, b) :: rest => if key = name then (key, a) :: rest else (key, b) :: bind name a rest

def find? (name : String) : List (String × α) → Option α
  | [] => none
  | (key, a) :: rest => if key = name then some a else find? name rest

theorem mem_keys_bind {name key : String} {a : α} {entries : List (String × α)}
    (h : key ∈ keys (bind name a entries)) : key = name ∨ key ∈ keys entries := by
  induction entries with
  | nil => exact .inl (by simpa [bind, keys] using h)
  | cons entry rest ih =>
    obtain ⟨k, b⟩ := entry
    simp only [bind] at h
    split at h
    · exact .inr h
    · rcases List.mem_cons.mp h with rfl | h
      · exact .inr List.mem_cons_self
      · exact (ih h).imp id (List.mem_cons_of_mem _)

theorem nodup_keys_bind {name : String} {a : α} {entries : List (String × α)}
    (h : (keys entries).Nodup) : (keys (bind name a entries)).Nodup := by
  induction entries with
  | nil => simp [bind, keys]
  | cons entry rest ih =>
    obtain ⟨k, b⟩ := entry
    obtain ⟨hk, hr⟩ := List.nodup_cons.mp h
    simp only [bind]
    split
    · exact h
    · next hne =>
      refine List.nodup_cons.mpr ⟨fun hm => ?_, ih hr⟩
      rcases mem_keys_bind hm with he | hm
      · exact hne he
      · exact hk hm

theorem find?_bind (name key : String) (a : α) (entries : List (String × α)) :
    find? key (bind name a entries) = if name = key then some a else find? key entries := by
  induction entries with
  | nil => rfl
  | cons entry rest ih =>
    obtain ⟨k, b⟩ := entry
    by_cases hkn : k = name
    · subst hkn
      by_cases hk : k = key <;> simp [bind, find?, hk]
    · by_cases hk : k = key
      · subst hk
        simp [bind, find?, hkn, Ne.symm hkn]
      · simp [bind, find?, hkn, hk, ih]

end Table

structure Table (α : Type) where
  entries : List (String × α)
  nodup : (Table.keys entries).Nodup

namespace Table

variable {α : Type}

def empty : Table α := ⟨[], List.nodup_nil⟩

instance : Inhabited (Table α) := ⟨empty⟩

def insert (t : Table α) (name : String) (a : α) : Table α :=
  ⟨bind name a t.entries, nodup_keys_bind t.nodup⟩

def get? (t : Table α) (name : String) : Option α := find? name t.entries

def contains (t : Table α) (name : String) : Bool := (t.get? name).isSome

def size (t : Table α) : Nat := t.entries.length

def insertAll (t : Table α) (entries : List (String × α)) : Table α :=
  entries.foldl (fun t entry => t.insert entry.1 entry.2) t

/-- Whether both tables bind the same names, to things that `same` holds of. -/
def agrees (same : α → α → Bool) (t u : Table α) : Bool :=
  t.size == u.size && t.entries.all fun entry =>
    match u.get? entry.1 with
    | some b => same entry.2 b
    | none => false

@[simp] theorem get?_empty (name : String) : (empty : Table α).get? name = none := rfl

theorem get?_insert (t : Table α) (name key : String) (a : α) :
    (t.insert name a).get? key = if name = key then some a else t.get? key :=
  find?_bind name key a t.entries

@[simp] theorem get?_insert_self (t : Table α) (name : String) (a : α) :
    (t.insert name a).get? name = some a := by
  simp [get?_insert]

theorem get?_insert_of_ne {name key : String} (h : name ≠ key) (t : Table α) (a : α) :
    (t.insert name a).get? key = t.get? key := by
  simp [get?_insert, h]

end Table
end Dvilipi
