import Dvilipi.Session.Table
import Mathlib.Data.List.Perm.Subperm

/-!
What tables say after many insertions, and when their contents are replaced. Two tables agree if they
say the same under every name; the order of their entries does not count.
-/

namespace Dvilipi.Table
set_option autoImplicit false

variable {α : Type}

section Contents

variable {t u : Table α} {name : String} {a : α}

theorem find?_eq_some_iff {entries : List (String × α)} (h : (keys entries).Nodup) :
    find? name entries = some a ↔ (name, a) ∈ entries := by
  induction entries with
  | nil => simp [find?]
  | cons entry rest ih =>
    obtain ⟨key, b⟩ := entry
    obtain ⟨hkey, hrest⟩ := List.nodup_cons.mp h
    rw [find?, List.mem_cons, Prod.mk.injEq]
    split
    · next heq =>
      subst heq
      have hfresh : (key, a) ∉ rest := fun hmem => hkey (List.mem_map.mpr ⟨_, hmem, rfl⟩)
      simp [hfresh, eq_comm]
    · next hne => simp [ih hrest, Ne.symm hne]

theorem get?_eq_some_iff : t.get? name = some a ↔ (name, a) ∈ t.entries :=
  find?_eq_some_iff t.nodup

theorem mem_keys_iff : name ∈ keys t.entries ↔ ∃ a, t.get? name = some a := by
  simp [keys, get?_eq_some_iff]

theorem length_keys : (keys t.entries).length = t.size := by
  rw [keys, List.length_map, size]

theorem size_eq_of_keys (h : ∀ name, name ∈ keys t.entries ↔ name ∈ keys u.entries) :
    t.size = u.size := by
  rw [← length_keys, ← length_keys]
  exact ((List.perm_ext_iff_of_nodup t.nodup u.nodup).mpr h).length_eq

/-- As many names on both sides, and those of one side among those of the other: they are the same. -/
theorem keys_of_size_eq (hsize : t.size = u.size) (hsubset : keys t.entries ⊆ keys u.entries) :
    name ∈ keys t.entries ↔ name ∈ keys u.entries := by
  have hlength : (keys u.entries).length ≤ (keys t.entries).length := by
    rw [length_keys, length_keys]
    exact Nat.le_of_eq hsize.symm
  exact ((List.subperm_of_subset t.nodup hsubset).perm_of_length_le hlength).mem_iff

theorem agrees_iff_size {same : α → α → Bool} : t.agrees same u = true ↔
    t.size = u.size ∧ ∀ name a, t.get? name = some a →
      ∃ b, u.get? name = some b ∧ same a b = true := by
  simp only [agrees, Bool.and_eq_true, beq_iff_eq, List.all_eq_true, Prod.forall, get?_eq_some_iff]
  refine and_congr_right fun _ => forall₂_congr fun name a => imp_congr_right fun _ => ?_
  cases hu : u.get? name <;> simp [← get?_eq_some_iff, hu]

theorem agrees_iff {same : α → α → Bool} : t.agrees same u = true ↔
    ∀ name, Option.Rel (fun a b => same a b = true) (t.get? name) (u.get? name) := by
  rw [agrees_iff_size]
  constructor
  · intro ⟨hsize, hsame⟩ name
    have hsubset : keys t.entries ⊆ keys u.entries := fun key hkey => by
      obtain ⟨a, ha⟩ := mem_keys_iff.mp hkey
      obtain ⟨b, hb, -⟩ := hsame key a ha
      exact mem_keys_iff.mpr ⟨b, hb⟩
    cases ht : t.get? name with
    | some a =>
      obtain ⟨b, hb, hab⟩ := hsame name a ht
      rw [hb]
      exact .some hab
    | none =>
      cases hu : u.get? name with
      | none => exact .none
      | some b =>
        obtain ⟨a, ha⟩ := mem_keys_iff.mp ((keys_of_size_eq hsize hsubset).mpr
          (mem_keys_iff.mpr ⟨b, hu⟩))
        cases ht.symm.trans ha
  · intro hrel
    refine ⟨size_eq_of_keys fun name => ?_, fun name a ha => ?_⟩
    · have hname := hrel name
      rw [mem_keys_iff, mem_keys_iff]
      generalize t.get? name = a, u.get? name = b at hname
      cases hname <;> simp
    · have hname := ha ▸ hrel name
      generalize u.get? name = b at hname
      cases hname with
      | some hab => exact ⟨_, rfl, hab⟩

end Contents

theorem insertAll_append (t : Table α) (as bs : List (String × α)) :
    t.insertAll (as ++ bs) = (t.insertAll as).insertAll bs :=
  List.foldl_append

theorem get?_insertAll (t : Table α) (as : List (String × α)) (key : String) :
    (t.insertAll as).get? key =
      ((as.reverse.find? fun entry => entry.1 = key).map Prod.snd).or (t.get? key) := by
  induction as generalizing t with
  | nil => rfl
  | cons entry as ih =>
    have hrest := ih (t.insert entry.1 entry.2)
    rw [List.reverse_cons, List.find?_append, Option.map_or, Option.or_assoc]
    refine hrest.trans (congrArg _ ?_)
    rw [get?_insert]
    by_cases hname : entry.1 = key <;> simp [hname]

section Map

variable {β : Type} (f : α → β)

theorem keys_map (entries : List (String × α)) :
    keys (entries.map fun entry => (entry.1, f entry.2)) = keys entries := by
  rw [keys, List.map_map]
  rfl

def map (t : Table α) : Table β :=
  ⟨t.entries.map fun entry => (entry.1, f entry.2), by rw [keys_map]; exact t.nodup⟩

theorem find?_map (name : String) (entries : List (String × α)) :
    find? name (entries.map fun entry => (entry.1, f entry.2)) = (find? name entries).map f := by
  induction entries with
  | nil => rfl
  | cons entry rest ih =>
    simp only [List.map_cons, find?, ih]
    split <;> rfl

theorem get?_map (t : Table α) (name : String) : (t.map f).get? name = (t.get? name).map f :=
  find?_map f name t.entries

theorem bind_map (name : String) (a : α) (entries : List (String × α)) :
    bind name (f a) (entries.map fun entry => (entry.1, f entry.2)) =
      (bind name a entries).map fun entry => (entry.1, f entry.2) := by
  induction entries with
  | nil => rfl
  | cons entry rest ih =>
    simp only [List.map_cons, bind, ih]
    split <;> rfl

theorem map_insert (t : Table α) (name : String) (a : α) :
    (t.insert name a).map f = (t.map f).insert name (f a) := by
  unfold map insert
  simp only [bind_map]

end Map

end Dvilipi.Table
