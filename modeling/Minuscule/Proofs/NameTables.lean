import Minuscule.NameTable
import Mathlib.Data.List.Nodup

/-!
The index of a table against its entries. They are kept side by side, and they belong together when the index leads to
the place of every entry by its name and to no other place. Then names are distinct, what is looked up is found exactly
if it has been entered, and a lookup never goes past the entries.
-/

namespace Minuscule.NameTable
variable {Entry : Type}

/-- The index leads to the entries by their names, and to nothing else. -/
def Indexed (name : Entry → String) (table : NameTable Entry) : Prop :=
  ∀ wanted place, table.index.lookup wanted = some place ↔ table.entries[place]?.map name = some wanted

variable {name : Entry → String} {table : NameTable Entry}

theorem indexed_empty : (empty : NameTable Entry).Indexed name := by
  intro wanted place
  simp [empty]

theorem contains_eq_false_iff {wanted : String} :
    table.contains wanted = false ↔ table.index.lookup wanted = none := by
  simp [contains]

theorem lookup_append (table : NameTable Entry) (own : String) (entry : Entry) (wanted : String) :
    (table.append own entry).index.lookup wanted =
      if wanted = own then some table.entries.length else table.index.lookup wanted := by
  rw [NameTable.append, List.lookup_cons]
  split
  · next same => rw [if_pos (beq_iff_eq.mp same)]
  · next other => rw [if_neg (by simpa using other)]

/-- The entry at the end is one more to be named. -/
theorem map_getElem?_append (table : NameTable Entry) (own : String) (entry : Entry) (wanted : String) (place : Nat) :
    (table.append own entry).entries[place]?.map name = some wanted ↔
      table.entries[place]?.map name = some wanted ∨ place = table.entries.length ∧ name entry = wanted := by
  rw [NameTable.append]
  rcases Nat.lt_trichotomy place table.entries.length with before | rfl | past
  · simp [List.getElem?_append_left before, Nat.ne_of_lt before]
  · simp
  · rw [List.getElem?_eq_none (Nat.le_of_lt past), List.getElem?_eq_none (by simpa using Nat.succ_le_of_lt past)]
    simp [Nat.ne_of_gt past]

/-- What has been found is found when a new name is entered. -/
theorem find?_append {own wanted : String} {entry found : Entry} (absent : table.contains own = false)
    (present : table.find? wanted = some found) : (table.append own entry).find? wanted = some found := by
  obtain ⟨place, listed, there⟩ := Option.bind_eq_some_iff.mp present
  have other : wanted ≠ own := by
    rintro rfl
    rw [contains_eq_false_iff.mp absent] at listed
    cases listed
  have inside := (List.getElem?_eq_some_iff.mp there).1
  rw [find?, lookup_append, if_neg other, listed, Option.bind_some, NameTable.append, List.getElem?_append_left inside,
    there]

/-- A new name is entered behind all others. -/
theorem Indexed.append (indexed : table.Indexed name) {entry : Entry} (absent : table.contains (name entry) = false) :
    (table.append (name entry) entry).Indexed name := by
  intro wanted place
  rw [lookup_append, map_getElem?_append, ← indexed wanted place]
  by_cases same : wanted = name entry
  · subst same
    simp [contains_eq_false_iff.mp absent, eq_comm]
  · simp [same, Ne.symm same]

namespace Indexed
variable (indexed : table.Indexed name)
include indexed

theorem inside {wanted : String} {place : Nat} (found : table.index.lookup wanted = some place) :
    place < table.entries.length := by
  obtain ⟨entry, there, _⟩ := Option.map_eq_some_iff.mp ((indexed wanted place).mp found)
  exact (List.getElem?_eq_some_iff.mp there).1

theorem lookup_eq {place : Nat} {entry : Entry} (there : table.entries[place]? = some entry) :
    table.index.lookup (name entry) = some place :=
  (indexed _ _).mpr (congrArg (Option.map name) there)

theorem find?_eq_some_iff {wanted : String} {entry : Entry} :
    table.find? wanted = some entry ↔ entry ∈ table.entries ∧ name entry = wanted := by
  rw [find?, Option.bind_eq_some_iff]
  constructor
  · rintro ⟨place, found, there⟩
    rw [indexed, there] at found
    exact ⟨List.mem_of_getElem? there, Option.some.inj found⟩
  · rintro ⟨member, rfl⟩
    obtain ⟨place, there⟩ := List.getElem?_of_mem member
    exact ⟨place, indexed.lookup_eq there, there⟩

theorem contains_iff {wanted : String} : table.contains wanted = true ↔ ∃ entry ∈ table.entries, name entry = wanted := by
  rw [contains, Option.isSome_iff_exists]
  constructor
  · rintro ⟨place, found⟩
    obtain ⟨entry, there, named⟩ := Option.map_eq_some_iff.mp ((indexed wanted place).mp found)
    exact ⟨entry, List.mem_of_getElem? there, named⟩
  · rintro ⟨entry, member, rfl⟩
    obtain ⟨place, there⟩ := List.getElem?_of_mem member
    exact ⟨place, indexed.lookup_eq there⟩

theorem find?_eq_none_iff {wanted : String} :
    table.find? wanted = none ↔ ∀ entry ∈ table.entries, name entry ≠ wanted := by
  simp only [Option.eq_none_iff_forall_ne_some, ne_eq, indexed.find?_eq_some_iff, not_and]

theorem distinct : (table.entries.map name).Nodup := by
  rw [List.nodup_iff_injective_getElem]
  intro first second same
  apply Fin.ext
  have place : ∀ at' : Fin (table.entries.map name).length,
      table.index.lookup (table.entries.map name)[at'] = some at'.val := by
    intro at'
    rw [indexed, ← List.getElem?_map]
    exact List.getElem?_eq_getElem at'.isLt
  have found := place first
  simp only [Fin.getElem_fin] at found same
  rw [same] at found
  exact Option.some.inj (found.symm.trans (place second))

/-- The index gives what a search among the entries would give. -/
theorem find?_eq (wanted : String) : table.find? wanted = table.entries.find? (name · = wanted) := by
  cases searched : table.entries.find? (name · = wanted) with
  | none =>
    rw [indexed.find?_eq_none_iff]
    simpa using searched
  | some entry =>
    rw [indexed.find?_eq_some_iff]
    exact ⟨List.mem_of_find?_eq_some searched, by simpa using List.find?_some searched⟩

end Indexed

end Minuscule.NameTable
