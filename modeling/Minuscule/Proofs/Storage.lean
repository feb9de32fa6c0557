import Minuscule.Proofs.Tables

/-!
What tables hold, whatever has been declared. The index of a table leads to each of its names where it stands, and the
variables lie one behind the other up to the width of the table, within the storage. A declaration is taken exactly
when its name is free and there is room for it, a taken name counts before missing room, and a declaration that is
refused hands back the symbols as they were. All this holds after any run of operations on the symbols.
-/

namespace Minuscule

/-- A table as its users see it: lookups are exact, and the index never leads out of the table. -/
structure NameTable.Answers {Entry : Type} (name : Entry → String) (table : NameTable Entry) : Prop where
  distinct : (table.entries.map name).Nodup
  indexed : table.Indexed name
  inside : ∀ wanted place, table.index.lookup wanted = some place → place < table.entries.length
  found : ∀ wanted entry, table.find? wanted = some entry ↔ entry ∈ table.entries ∧ name entry = wanted
  missed : ∀ wanted, table.find? wanted = none ↔ ∀ entry ∈ table.entries, name entry ≠ wanted
  known : ∀ wanted, table.contains wanted = true ↔ ∃ entry ∈ table.entries, name entry = wanted

theorem NameTable.Indexed.answers {Entry : Type} {name : Entry → String} {table : NameTable Entry}
    (indexed : table.Indexed name) : table.Answers name where
  distinct := indexed.distinct
  indexed := indexed
  inside _ _ := indexed.inside
  found _ _ := indexed.find?_eq_some_iff
  missed _ := indexed.find?_eq_none_iff
  known _ := indexed.contains_iff

/-- The bytes of a variable. -/
def Variable.Occupies (entry : Variable) (address : Nat) : Prop :=
  entry.offset ≤ address ∧ address < entry.offset + entry.width

namespace VariableTable

def Free (table : VariableTable) (name : String) : Prop :=
  ∀ entry ∈ table.entries, entry.name ≠ name

instance (table : VariableTable) (name : String) : Decidable (table.Free name) :=
  inferInstanceAs (Decidable (∀ entry ∈ table.entries, entry.name ≠ name))

theorem contains_eq_false_iff_free {table : VariableTable} (indexed : table.Indexed Variable.name) {name : String} :
    table.contains name = false ↔ table.Free name := by
  rw [← Bool.not_eq_true, indexed.contains_iff, Free]
  simp

/-- The index belongs to the entries, and the variables lie one behind the other within the storage. -/
structure Sound (table : VariableTable) : Prop where
  indexed : table.Indexed Variable.name
  sized : ∀ entry ∈ table.entries, entry.kind.width? = some entry.width
  placed : ∀ place entry, table.entries[place]? = some entry →
    entry.offset = sumOf Variable.width (table.entries.take place)
  total : table.width = sumOf Variable.width table.entries
  bounded : table.width ≤ storageMax

theorem sound_empty : empty.Sound where
  indexed := NameTable.indexed_empty
  sized _ member := absurd member List.not_mem_nil
  placed place entry found := by simp [empty, NameTable.empty] at found
  total := rfl
  bounded := Nat.zero_le _

/-- A declaration that is taken keeps the table sound. -/
theorem Sound.extended {table : VariableTable} (sound : table.Sound) {name : String} {kind : VariableKind}
    (absent : table.contains name = false) (room : table.Room kind) : (table.extended name kind).Sound where
  indexed := @NameTable.Indexed.append _ _ _ sound.indexed ⟨name, kind, _, _⟩ absent
  sized entry member := by
    rcases List.mem_append.mp member with old | new
    · exact sound.sized entry old
    · rw [List.mem_singleton.mp new, VariableKind.width?_eq, if_pos room.1]
  placed place entry found := by
    rw [entries_extended] at found ⊢
    by_cases old : place < table.entries.length
    · rw [List.getElem?_append_left old] at found
      rw [List.take_append_of_le_length (Nat.le_of_lt old)]
      exact sound.placed place entry found
    · rw [List.getElem?_append_right (by omega), List.getElem?_singleton] at found
      split at found
      · have last : place = table.entries.length := by omega
        cases found
        rw [last, List.take_left]
        exact sound.total
      · cases found
  total := by
    rw [entries_extended, sumOf_append, ← sound.total]
    rfl
  bounded := room.2

namespace Sound
variable {table : VariableTable}

theorem end_eq (sound : table.Sound) {place : Nat} {entry : Variable} (found : table.entries[place]? = some entry) :
    entry.offset + entry.width = sumOf Variable.width (table.entries.take (place + 1)) := by
  rw [List.take_add_one, found, sumOf_append, sound.placed place entry found]
  rfl

theorem end_le (sound : table.Sound) {entry : Variable} (member : entry ∈ table.entries) :
    entry.offset + entry.width ≤ table.width := by
  obtain ⟨place, found⟩ := List.getElem?_of_mem member
  have whole := sumOf_append Variable.width (table.entries.take (place + 1)) (table.entries.drop (place + 1))
  rw [List.take_append_drop, ← sound.end_eq found, ← sound.total] at whole
  omega

/-- A variable ends before the next one starts. -/
theorem inOrder (sound : table.Sound) :
    table.entries.Pairwise fun early late => early.offset + early.width ≤ late.offset := by
  rw [List.pairwise_iff_getElem]
  intro early late earlyInside lateInside before
  rw [sound.end_eq (List.getElem?_eq_getElem earlyInside), sound.placed late _ (List.getElem?_eq_getElem lateInside)]
  obtain ⟨between, split⟩ : table.entries.take (early + 1) <+: table.entries.take late :=
    List.take_prefix_take_left before
  rw [← split, sumOf_append]
  omega

end Sound

/-- A sound table as its users see it: lookups are exact, and no two variables share a byte of the storage. -/
structure Orderly (table : VariableTable) : Prop extends table.Sound where
  names : table.Answers Variable.name
  inOrder : table.entries.Pairwise fun early late => early.offset + early.width ≤ late.offset
  apart : table.entries.Pairwise fun early late => ∀ address, early.Occupies address → ¬late.Occupies address
  within : ∀ entry ∈ table.entries, entry.offset + entry.width ≤ storageMax

theorem Sound.orderly {table : VariableTable} (sound : table.Sound) : table.Orderly where
  toSound := sound
  names := sound.indexed.answers
  inOrder := sound.inOrder
  apart := by
    refine sound.inOrder.imp fun {early late} order address => ?_
    unfold Variable.Occupies
    omega
  within entry member := Nat.le_trans (sound.end_le member) sound.bounded

end VariableTable

/-- What can be done with symbols. -/
inductive Operation where
  | newLocals
  | declare (scope : Scope) (name : String) (kind : VariableKind)
  | define (function : Function)

namespace Symbols

/-- The symbols that an operation hands back, whatever its answer. -/
def perform (symbols : Symbols) : Operation → Symbols
  | .newLocals => symbols.newLocals.2
  | .declare scope name kind => symbols.enter scope name kind
  | .define function => (symbols.define function).2

def run (operations : List Operation) : Symbols :=
  operations.foldl perform empty

/-- All that the definition of a function can come to. -/
theorem define_cases (symbols : Symbols) (function : Function) :
    (symbols.functions.contains function.name = true ∧
      symbols.define function = (.error (.taken function.name), symbols)) ∨
    symbols.functions.contains function.name = false ∧
      symbols.define function =
        (.ok (), { symbols with functions := symbols.functions.append function.name function }) := by
  cases used : symbols.functions.contains function.name with
  | true => exact .inl ⟨rfl, by simp [define, used]⟩
  | false => exact .inr ⟨rfl, by simp [define, used]⟩

theorem table?_newLocals (symbols : Symbols) (scope : Scope) :
    symbols.newLocals.2.table? scope =
      if scope = .local symbols.newLocals.1 then some .empty else symbols.table? scope := by
  rcases scope with _ | number
  · rfl
  · simp [newLocals, table?, Array.getElem?_push]

/-- Every table is sound, and the index of the functions belongs to them. -/
structure Consistent (symbols : Symbols) : Prop where
  tables : ∀ scope table, symbols.table? scope = some table → table.Sound
  functions : symbols.functions.Indexed Function.name

theorem consistent_empty : empty.Consistent where
  tables scope table present := by
    rcases scope with _ | number
    · cases present
      exact VariableTable.sound_empty
    · simp [empty, table?] at present
  functions := NameTable.indexed_empty

namespace Consistent
variable {symbols : Symbols}

theorem newLocals (consistent : symbols.Consistent) : symbols.newLocals.2.Consistent where
  tables scope table present := by
    rw [table?_newLocals] at present
    split at present
    · cases present
      exact VariableTable.sound_empty
    · exact consistent.tables scope table present
  functions := consistent.functions

theorem setTable (consistent : symbols.Consistent) {scope : Scope} {table old : VariableTable}
    (present : symbols.table? scope = some old) (sound : table.Sound) : (symbols.setTable scope table).Consistent where
  tables other found there := by
    by_cases same : other = scope
    · subst same
      rw [table?_setTable present] at there
      cases there
      exact sound
    · rw [(sameBut_setTable symbols scope table).tables other same] at there
      exact consistent.tables other found there
  functions := by
    rw [(sameBut_setTable symbols scope table).functions]
    exact consistent.functions

theorem enter (consistent : symbols.Consistent) (scope : Scope) (name : String) (kind : VariableKind) :
    (symbols.enter scope name kind).Consistent := by
  unfold Symbols.enter
  rcases present : symbols.table? scope with _ | table
  · have nowhere : symbols.declare? scope name kind = none := by rw [declare?, present, Option.map_none]
    rw [nowhere]
    exact consistent
  · rcases declare?_cases present name kind with ⟨_, answer⟩ | ⟨_, _, answer⟩ | ⟨free, room, answer⟩ <;> rw [answer]
    · exact consistent
    · exact consistent
    · exact consistent.setTable present ((consistent.tables scope table present).extended free room)

theorem define (consistent : symbols.Consistent) {function : Function}
    (absent : symbols.functions.contains function.name = false) :
    Consistent { symbols with functions := symbols.functions.append function.name function } where
  tables := consistent.tables
  functions := consistent.functions.append absent

theorem perform (consistent : symbols.Consistent) (operation : Operation) :
    (symbols.perform operation).Consistent := by
  cases operation with
  | newLocals => exact consistent.newLocals
  | declare scope name kind => exact consistent.enter scope name kind
  | define function =>
    unfold Symbols.perform
    rcases symbols.define_cases function with ⟨_, answer⟩ | ⟨free, answer⟩ <;> simp only [answer]
    · exact consistent
    · exact consistent.define free

theorem foldl (consistent : symbols.Consistent) (operations : List Operation) :
    (operations.foldl Symbols.perform symbols).Consistent := by
  induction operations generalizing symbols with
  | nil => exact consistent
  | cons operation rest ih => exact ih (consistent.perform operation)

end Consistent

theorem consistent_run (operations : List Operation) : (run operations).Consistent :=
  consistent_empty.foldl operations

/-- What a declaration in a table comes to: it is taken, or refused for one of two reasons. -/
structure Declares (symbols : Symbols) (scope : Scope) (table : VariableTable) (name : String)
    (kind : VariableKind) : Prop where
  accepted : (∃ offset after, symbols.declare? scope name kind = some (.ok offset, after)) ↔
    table.Free name ∧ table.Room kind
  taken : (∃ after, symbols.declare? scope name kind = some (.error (.taken name), after)) ↔ ¬table.Free name
  tooLarge : (∃ after, symbols.declare? scope name kind = some (.error (.tooLarge name), after)) ↔
    table.Free name ∧ ¬table.Room kind
  entered : ∀ offset after, symbols.declare? scope name kind = some (.ok offset, after) →
    offset = table.width ∧ after.table? scope = some (table.extended name kind) ∧ SameBut scope symbols after ∧
      symbols.perform (.declare scope name kind) = after
  refused : ∀ reason after, symbols.declare? scope name kind = some (.error reason, after) →
    (reason = .taken name ∨ reason = .tooLarge name) ∧ after = symbols ∧
      symbols.perform (.declare scope name kind) = symbols

theorem declares {symbols : Symbols} {scope : Scope} {table : VariableTable}
    (present : symbols.table? scope = some table) (indexed : table.Indexed Variable.name) (name : String)
    (kind : VariableKind) : symbols.Declares scope table name kind := by
  have known := @VariableTable.contains_eq_false_iff_free _ indexed name
  have performed : symbols.perform (.declare scope name kind) = symbols.enter scope name kind := rfl
  unfold enter at performed
  rcases declare?_cases present name kind with ⟨used, answer⟩ | ⟨absent, full, answer⟩ | ⟨absent, room, answer⟩ <;>
    rw [answer] at performed
  · have free : ¬table.Free name := by simp [← known, used]
    refine ⟨by simp [answer, free], by simp [answer, free], by simp [answer, free], by simp [answer], ?_⟩
    intro reason after refused
    cases answer.symm.trans refused
    exact ⟨.inl rfl, rfl, performed⟩
  · have free := known.mp absent
    refine ⟨by simp [answer, full], by simp [answer, free], by simp [answer, free, full], by simp [answer], ?_⟩
    intro reason after refused
    cases answer.symm.trans refused
    exact ⟨.inr rfl, rfl, performed⟩
  · have free := known.mp absent
    refine ⟨by simp [answer, free, room], by simp [answer, free], by simp [answer, room], ?_, by simp [answer]⟩
    intro offset after taken
    cases answer.symm.trans taken
    exact ⟨rfl, table?_setTable present _, sameBut_setTable symbols scope _, performed⟩

/-- What the definition of a function comes to: it is refused only for its name. -/
structure Defines (symbols : Symbols) (function : Function) : Prop where
  accepted : (∃ after, symbols.define function = (.ok (), after)) ↔
    ∀ other ∈ symbols.functions.entries, other.name ≠ function.name
  entered : ∀ after, symbols.define function = (.ok (), after) →
    after.functions.entries = symbols.functions.entries ++ [function] ∧
      (∀ scope, after.table? scope = symbols.table? scope) ∧ symbols.perform (.define function) = after
  refused : ∀ reason after, symbols.define function = (.error reason, after) →
    reason = .taken function.name ∧ after = symbols ∧ symbols.perform (.define function) = symbols

theorem defines {symbols : Symbols} (indexed : symbols.functions.Indexed Function.name) (function : Function) :
    symbols.Defines function := by
  have known := @NameTable.Indexed.contains_iff _ _ _ indexed function.name
  rcases symbols.define_cases function with ⟨used, answer⟩ | ⟨absent, answer⟩
  · refine ⟨by simpa [answer] using known.mp used, by simp [answer], ?_⟩
    intro reason after refused
    cases answer.symm.trans refused
    exact ⟨rfl, rfl, congrArg Prod.snd answer⟩
  · have free : ∀ other ∈ symbols.functions.entries, other.name ≠ function.name := by
      simpa [absent] using known
    refine ⟨by simpa [answer] using free, ?_, by simp [answer]⟩
    intro after taken
    cases answer.symm.trans taken
    exact ⟨rfl, fun scope => by cases scope <;> rfl, congrArg Prod.snd answer⟩

/-- After any run of operations every table is in order, and declarations, definitions and new tables do exactly
what they should: a refused one changes nothing, and one that is taken changes a single table. -/
theorem run_keeps_order (operations : List Operation) :
    (∀ scope table, (run operations).table? scope = some table →
      table.Orderly ∧ ∀ name kind, (run operations).Declares scope table name kind) ∧
    (run operations).functions.Answers Function.name ∧
    (∀ function, (run operations).Defines function) ∧
    (run operations).newLocals.2.functions = (run operations).functions ∧
    (run operations).table? (.local (run operations).newLocals.1) = none ∧
    ∀ scope, (run operations).newLocals.2.table? scope =
      if scope = .local (run operations).newLocals.1 then some .empty else (run operations).table? scope := by
  have consistent := consistent_run operations
  refine ⟨?_, consistent.functions.answers, defines consistent.functions, rfl, ?_, table?_newLocals _⟩
  · intro scope table present
    have sound := consistent.tables scope table present
    exact ⟨sound.orderly, declares present sound.indexed⟩
  · exact Array.getElem?_size

/-- Three bytes are left of the global storage. -/
def nearlyFull : List Operation :=
  [.newLocals, .declare .global "wide" (.array 0x3fffffffffffffff), .declare (.local 0) "wide" .scalar]

/-- With less than a word left, a scalar is refused and an array without elements is taken. A name in use is refused
as such, however much storage it asks for. The other table has room. -/
theorem run_keeps_order_nearlyFull :
    (run nearlyFull).declare? .global "word" .scalar = some (.error (.tooLarge "word"), run nearlyFull) ∧
    (run nearlyFull).declare? .global "wide" (.array 0xffffffffffffffff) =
      some (.error (.taken "wide"), run nearlyFull) ∧
    (∃ offset after, (run nearlyFull).declare? .global "none" (.array 0) = some (.ok offset, after)) ∧
    ∃ offset after, (run nearlyFull).declare? (.local 0) "word" .scalar = some (.ok offset, after) := by
  obtain ⟨tables, _⟩ := run_keeps_order nearlyFull
  have global := (tables .global
    ⟨⟨[⟨"wide", .array 0x3fffffffffffffff, 0xfffffffffffffffc, 0⟩], [("wide", 0)]⟩, 0xfffffffffffffffc⟩ (by decide)).2
  have inner := (tables (.local 0) ⟨⟨[⟨"wide", .scalar, 4, 0⟩], [("wide", 0)]⟩, 4⟩ (by decide)).2
  obtain ⟨after, full⟩ := (global "word" .scalar).tooLarge.mpr (by decide)
  obtain ⟨after', used⟩ := (global "wide" (.array 0xffffffffffffffff)).taken.mpr (by decide)
  obtain ⟨_, rfl, _⟩ := (global "word" .scalar).refused _ _ full
  obtain ⟨_, rfl, _⟩ := (global "wide" (.array 0xffffffffffffffff)).refused _ _ used
  exact ⟨full, used, (global "none" (.array 0)).accepted.mpr (by decide), (inner "word" .scalar).accepted.mpr (by decide)⟩

end Symbols

end Minuscule
