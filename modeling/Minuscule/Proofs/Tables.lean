import Minuscule.Proofs.Declaring
import Minuscule.Proofs.Lists
import Minuscule.Proofs.NameTables

/-!
Tables seen as lists of names and kinds. A table lists what was entered in it, in this order, and its width is the
storage of the list. An entry is taken exactly when its name is new and there is storage left for it; entries in one
scope leave the other scopes and the functions alone.
-/

namespace Minuscule

/-- The storage of a variable. -/
def VariableKind.width : VariableKind → Nat
  | array length => wordWidth * length
  | _ => wordWidth

theorem VariableKind.width?_eq (kind : VariableKind) :
    kind.width? = if kind.width ≤ storageMax then some kind.width else none := by
  cases kind <;> rfl

/-- The storage of all entries together. -/
def storage (entries : List (String × VariableKind)) : Nat :=
  sumOf (fun entry => entry.2.width) entries

theorem storage_append (entries more : List (String × VariableKind)) :
    storage (entries ++ more) = storage entries + storage more :=
  sumOf_append _ entries more

/-- The names are distinct and the storage suffices. -/
structure Fits (entries : List (String × VariableKind)) : Prop where
  distinct : (entries.map Prod.fst).Nodup
  storage : storage entries ≤ storageMax

theorem fits_nil : Fits [] :=
  ⟨List.nodup_nil, Nat.zero_le _⟩

theorem Fits.of_append {entries more : List (String × VariableKind)} (fits : Fits (entries ++ more)) :
    Fits entries := by
  obtain ⟨distinct, bound⟩ := fits
  rw [List.map_append] at distinct
  rw [storage_append] at bound
  exact ⟨distinct.of_append_left, by omega⟩

theorem fits_concat {entries : List (String × VariableKind)} (fits : Fits entries) (name : String)
    (kind : VariableKind) :
    Fits (entries ++ [(name, kind)]) ↔ name ∉ entries.map Prod.fst ∧ storage entries + kind.width ≤ storageMax := by
  have single : storage [(name, kind)] = kind.width := Nat.add_zero _
  constructor
  · rintro ⟨distinct, bound⟩
    rw [List.map_append, List.map_singleton, List.nodup_append_comm] at distinct
    rw [storage_append, single] at bound
    exact ⟨(List.nodup_cons.mp distinct).1, bound⟩
  · rintro ⟨fresh, bound⟩
    refine ⟨?_, ?_⟩
    · rw [List.map_append, List.map_singleton, List.nodup_append_comm]
      exact List.nodup_cons.mpr ⟨fresh, fits.distinct⟩
    · rw [storage_append, single]
      exact bound

namespace VariableTable

/-- The kind has a width, and the storage has that much left. -/
def Room (table : VariableTable) (kind : VariableKind) : Prop :=
  kind.width ≤ storageMax ∧ table.width + kind.width ≤ storageMax

instance (table : VariableTable) (kind : VariableKind) : Decidable (table.Room kind) :=
  inferInstanceAs (Decidable (_ ∧ _))

/-- The table with a variable at its end. -/
def extended (table : VariableTable) (name : String) (kind : VariableKind) : VariableTable :=
  ⟨table.append name ⟨name, kind, kind.width, table.width⟩, table.width + kind.width⟩

theorem entries_extended (table : VariableTable) (name : String) (kind : VariableKind) :
    (table.extended name kind).entries = table.entries ++ [⟨name, kind, kind.width, table.width⟩] :=
  rfl

/-- All that a declaration can come to. -/
theorem declare_cases (table : VariableTable) (name : String) (kind : VariableKind) :
    (table.contains name = true ∧ table.declare name kind = (.error (.taken name), table)) ∨
      (table.contains name = false ∧ ¬table.Room kind ∧
        table.declare name kind = (.error (.tooLarge name), table)) ∨
      (table.contains name = false ∧ table.Room kind ∧
        table.declare name kind = (.ok table.width, table.extended name kind)) := by
  cases used : table.contains name with
  | true => exact .inl ⟨rfl, by simp [declare, used]⟩
  | false =>
    right
    by_cases small : kind.width ≤ storageMax
    · by_cases left : table.width + kind.width ≤ storageMax
      · refine .inr ⟨rfl, ⟨small, left⟩, ?_⟩
        simp [declare, used, VariableKind.width?_eq, small, left, extended]
      · refine .inl ⟨rfl, fun room => left room.2, ?_⟩
        simp [declare, used, VariableKind.width?_eq, small, left]
    · refine .inl ⟨rfl, fun room => small room.1, ?_⟩
      simp [declare, used, VariableKind.width?_eq, small]

/-- A table lists its entries and no others. -/
structure Lists (table : VariableTable) (entries : List (String × VariableKind)) : Prop where
  listed : table.entries.map (fun entry => (entry.name, entry.kind)) = entries
  width : table.width = storage entries
  indexed : table.Indexed Variable.name

theorem lists_empty : empty.Lists [] :=
  ⟨rfl, rfl, NameTable.indexed_empty⟩

section Entries
variable {table : VariableTable} {entries : List (String × VariableKind)} (lists : table.Lists entries)
include lists

theorem Lists.find? (name : String) : (table.find? name).map Variable.kind = entries.lookup name := by
  rw [← lists.listed, lookup_map, lists.indexed.find?_eq]

theorem Lists.contains_iff (name : String) : table.contains name = true ↔ name ∈ entries.map Prod.fst := by
  rw [lists.indexed.contains_iff, ← lists.listed]
  simp

theorem Lists.extended {name : String} {kind : VariableKind} (absent : table.contains name = false) :
    (table.extended name kind).Lists (entries ++ [(name, kind)]) where
  listed := by
    rw [entries_extended, List.map_append, lists.listed]
    rfl
  width := by
    rw [storage_append, ← lists.width]
    rfl
  indexed := @NameTable.Indexed.append _ _ _ lists.indexed ⟨name, kind, _, _⟩ absent

/-- An entry is taken if it fits, and otherwise refused. -/
theorem Lists.declare (name : String) (kind : VariableKind) :
    ((name ∉ entries.map Prod.fst ∧ storage entries + kind.width ≤ storageMax) ∧
      ∃ offset after, table.declare name kind = (.ok offset, after) ∧ after.Lists (entries ++ [(name, kind)])) ∨
    ¬(name ∉ entries.map Prod.fst ∧ storage entries + kind.width ≤ storageMax) ∧
      ∃ reason after, table.declare name kind = (.error reason, after) := by
  have known := lists.contains_iff name
  rcases table.declare_cases name kind with ⟨used, answer⟩ | ⟨absent, full, answer⟩ | ⟨absent, room, answer⟩
  · exact .inr ⟨fun fits => fits.1 (known.mp used), _, _, answer⟩
  · refine .inr ⟨fun fits => full ?_, _, _, answer⟩
    rw [Room, lists.width]
    omega
  · refine .inl ⟨⟨?_, lists.width ▸ room.2⟩, _, _, answer, lists.extended absent⟩
    rw [← known, absent]
    exact Bool.false_ne_true

end Entries

end VariableTable

namespace Symbols

/-- The scope has a table, which lists these entries. -/
def Holds (symbols : Symbols) (scope : Scope) (entries : List (String × VariableKind)) : Prop :=
  ∃ table, symbols.table? scope = some table ∧ table.Lists entries

/-- Nothing has changed but the table of a scope. -/
structure SameBut (scope : Scope) (before after : Symbols) : Prop where
  functions : after.functions = before.functions
  size : after.locals.size = before.locals.size
  tables : ∀ other, other ≠ scope → after.table? other = before.table? other

theorem SameBut.refl (scope : Scope) (symbols : Symbols) : SameBut scope symbols symbols :=
  ⟨rfl, rfl, fun _ _ => rfl⟩

theorem SameBut.trans {scope : Scope} {first second third : Symbols} (early : SameBut scope first second)
    (late : SameBut scope second third) : SameBut scope first third :=
  ⟨late.functions.trans early.functions, late.size.trans early.size,
    fun other different => (late.tables other different).trans (early.tables other different)⟩

theorem SameBut.holds {scope other : Scope} {before after : Symbols} (same : SameBut scope before after)
    (different : other ≠ scope) {entries : List (String × VariableKind)} (holds : before.Holds other entries) :
    after.Holds other entries := by
  obtain ⟨table, present, lists⟩ := holds
  exact ⟨table, (same.tables other different).trans present, lists⟩

theorem table?_setTable {symbols : Symbols} {scope : Scope} {table : VariableTable}
    (present : symbols.table? scope = some table) (other : VariableTable) :
    (symbols.setTable scope other).table? scope = some other := by
  rcases scope with _ | number
  · rfl
  · have inside := (Array.getElem?_eq_some_iff.mp present).1
    simp [setTable, table?, inside]

theorem sameBut_setTable (symbols : Symbols) (scope : Scope) (table : VariableTable) :
    SameBut scope symbols (symbols.setTable scope table) := by
  rcases scope with _ | number
  · refine ⟨rfl, rfl, fun other different => ?_⟩
    rcases other with _ | number
    · exact absurd rfl different
    · rfl
  · refine ⟨rfl, Array.size_setIfInBounds, fun other different => ?_⟩
    rcases other with _ | number'
    · rfl
    · have apart : number ≠ number' := fun same => different (same ▸ rfl)
      exact Array.getElem?_setIfInBounds_ne apart

/-- A table that is put back where it was changes nothing. -/
theorem setTable_self {symbols : Symbols} {scope : Scope} {table : VariableTable}
    (present : symbols.table? scope = some table) : symbols.setTable scope table = symbols := by
  rcases scope with _ | number
  · cases present
    rfl
  · obtain ⟨inside, rfl⟩ := Array.getElem?_eq_some_iff.mp present
    simp only [setTable]
    rw [Array.setIfInBounds_def, dif_pos inside, Array.set_getElem_self]

theorem declare?_eq {symbols : Symbols} {scope : Scope} {table after : VariableTable}
    (present : symbols.table? scope = some table) {name : String} {kind : VariableKind}
    {answer : Except DeclareError Nat} (answered : table.declare name kind = (answer, after)) :
    symbols.declare? scope name kind = some (answer, symbols.setTable scope after) := by
  rw [declare?, present, Option.map_some, answered]

/-- All that a declaration in a scope with a table can come to: a refused one leaves the symbols as they were. -/
theorem declare?_cases {symbols : Symbols} {scope : Scope} {table : VariableTable}
    (present : symbols.table? scope = some table) (name : String) (kind : VariableKind) :
    (table.contains name = true ∧ symbols.declare? scope name kind = some (.error (.taken name), symbols)) ∨
      (table.contains name = false ∧ ¬table.Room kind ∧
        symbols.declare? scope name kind = some (.error (.tooLarge name), symbols)) ∨
      (table.contains name = false ∧ table.Room kind ∧ symbols.declare? scope name kind =
        some (.ok table.width, symbols.setTable scope (table.extended name kind))) := by
  rcases table.declare_cases name kind with ⟨used, answer⟩ | ⟨free, full, answer⟩ | ⟨free, room, answer⟩
  · exact .inl ⟨used, by rw [declare?_eq present answer, setTable_self present]⟩
  · exact .inr (.inl ⟨free, full, by rw [declare?_eq present answer, setTable_self present]⟩)
  · exact .inr (.inr ⟨free, room, declare?_eq present answer⟩)

theorem sameBut_enter (symbols : Symbols) (scope : Scope) (name : String) (kind : VariableKind) :
    SameBut scope symbols (symbols.enter scope name kind) := by
  unfold enter declare?
  rcases symbols.table? scope with _ | table
  · exact .refl scope symbols
  · exact sameBut_setTable symbols scope _

section Entries
variable {symbols : Symbols} {scope : Scope} {entries : List (String × VariableKind)}

/-- An entry is refused unless it fits. -/
theorem Holds.declare? (holds : symbols.Holds scope entries) (fits : Fits entries) (name : String)
    (kind : VariableKind) :
    (Fits (entries ++ [(name, kind)]) ∧ ∃ offset after, symbols.declare? scope name kind = some (.ok offset, after) ∧
      after.Holds scope (entries ++ [(name, kind)])) ∨
    ¬Fits (entries ++ [(name, kind)]) ∧
      ∃ reason after, symbols.declare? scope name kind = some (.error reason, after) := by
  obtain ⟨table, present, lists⟩ := holds
  rw [fits_concat fits]
  rcases lists.declare name kind with ⟨fitting, offset, after, taken, lists⟩ | ⟨unfit, reason, after, refused⟩
  · exact .inl ⟨fitting, offset, _, declare?_eq present taken, after, table?_setTable present after, lists⟩
  · exact .inr ⟨unfit, reason, _, declare?_eq present refused⟩

theorem Holds.enter (holds : symbols.Holds scope entries) (fits : Fits entries) {name : String} {kind : VariableKind}
    (fitting : Fits (entries ++ [(name, kind)])) :
    (symbols.enter scope name kind).Holds scope (entries ++ [(name, kind)]) := by
  rcases holds.declare? fits name kind with ⟨_, offset, after, taken, held⟩ | ⟨unfit, _⟩
  · rw [Symbols.enter, taken]
    exact held
  · exact absurd fitting unfit

theorem Holds.entryFaults_eq_nil (holds : symbols.Holds scope entries) (fits : Fits entries) (subject : Occurrence)
    (kind : VariableKind) : symbols.entryFaults scope subject kind = [] ↔ Fits (entries ++ [(subject.name, kind)]) := by
  rcases holds.declare? fits subject.name kind with ⟨fitting, offset, after, taken, _⟩ | ⟨unfit, reason, after, refused⟩
  · simp [entryFaults, taken, fitting]
  · cases reason <;> simp [entryFaults, refused, unfit]

theorem Holds.parameter_faults_eq_nil (holds : symbols.Holds scope entries) (fits : Fits entries)
    (parameter : Parameter) :
    parameter.faults scope symbols = [] ↔ Fits (entries ++ [(parameter.subject.name, parameter.kind)]) := by
  rcases holds.declare? fits parameter.subject.name parameter.kind with
    ⟨fitting, offset, after, taken, _⟩ | ⟨unfit, reason, after, refused⟩
  · simp [Parameter.faults, taken, fitting]
  · simp [Parameter.faults, refused, unfit]

end Entries

end Symbols

/-- Declarations that enter items in a scope: an item is taken without an error when it is admitted and fits. -/
structure Enters {α : Type} (scope : Scope) (after : Symbols → α → Symbols)
    (faults : Symbols → α → List SemanticError) (entry : α → String × VariableKind) (admitted : α → Prop)
    (item : α) : Prop where
  check : ∀ {symbols : Symbols} {entries}, symbols.Holds scope entries → Fits entries →
    (faults symbols item = [] ↔ admitted item ∧ Fits (entries ++ [entry item]))
  taken : ∀ {symbols : Symbols} {entries}, symbols.Holds scope entries → Fits entries → admitted item →
    Fits (entries ++ [entry item]) → (after symbols item).Holds scope (entries ++ [entry item])
  same : ∀ symbols, Symbols.SameBut scope symbols (after symbols item)

namespace Enters
variable {α : Type} {scope : Scope} {after : Symbols → α → Symbols} {faults : Symbols → α → List SemanticError}
  {entry : α → String × VariableKind} {admitted : α → Prop} {items : List α} {symbols : Symbols}
  {entries : List (String × VariableKind)}

/-- A row is taken without an error when all its items are admitted and fit together. -/
theorem faultsAll_eq_nil (each : ∀ item ∈ items, Enters scope after faults entry admitted item)
    (holds : symbols.Holds scope entries) (fits : Fits entries) :
    faultsAll after faults symbols items = [] ↔
      (∀ item ∈ items, admitted item) ∧ Fits (entries ++ items.map entry) := by
  induction items generalizing symbols entries with
  | nil => simp [faultsAll, fits]
  | cons item rest ih =>
    obtain ⟨here, later⟩ := List.forall_mem_cons.mp each
    rw [faultsAll, List.append_eq_nil_iff, here.check holds fits, List.forall_mem_cons, List.map_cons,
      List.append_cons entries (entry item) (rest.map entry)]
    constructor
    · rintro ⟨⟨admits, fitting⟩, quiet⟩
      obtain ⟨all, whole⟩ := (ih later (here.taken holds fits admits fitting) fitting).mp quiet
      exact ⟨⟨admits, all⟩, whole⟩
    · rintro ⟨⟨admits, all⟩, whole⟩
      have fitting := whole.of_append
      exact ⟨⟨admits, fitting⟩, (ih later (here.taken holds fits admits fitting) fitting).mpr ⟨all, whole⟩⟩

theorem holds_foldl (each : ∀ item ∈ items, Enters scope after faults entry admitted item)
    (holds : symbols.Holds scope entries) (fits : Fits entries) (all : ∀ item ∈ items, admitted item)
    (whole : Fits (entries ++ items.map entry)) :
    (items.foldl after symbols).Holds scope (entries ++ items.map entry) := by
  induction items generalizing symbols entries with
  | nil => simpa using holds
  | cons item rest ih =>
    obtain ⟨here, later⟩ := List.forall_mem_cons.mp each
    obtain ⟨admits, all⟩ := List.forall_mem_cons.mp all
    rw [List.map_cons, List.append_cons] at whole ⊢
    have fitting := whole.of_append
    exact ih later (here.taken holds fits admits fitting) fitting all whole

theorem same_foldl (each : ∀ item ∈ items, Enters scope after faults entry admitted item) (symbols : Symbols) :
    Symbols.SameBut scope symbols (items.foldl after symbols) := by
  induction items generalizing symbols with
  | nil => exact .refl scope symbols
  | cons item rest ih =>
    obtain ⟨here, later⟩ := List.forall_mem_cons.mp each
    exact (here.same symbols).trans (ih later _)

end Enters

end Minuscule
