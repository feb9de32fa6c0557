import Minuscule.Proofs.ControlFlow
import Minuscule.Proofs.Growth

/-!
The records that an evaluation leaves. The tables are sound and the functions have tables of their own whatever the
tree is. Where a program has no errors, its functions are recorded one by one as they are defined, and the table of each
lists its parameters and its local variables and nothing else.
-/

namespace Minuscule

/-- A function definition without its body. -/
structure Heading where
  declarator : Declarator
  params : List Parameter
  locals : List Declaration

namespace Heading

/-- The record of a function when so many are in front of it. -/
def record (number : Nat) (heading : Heading) : Function :=
  ⟨heading.declarator.subject.name, heading.declarator.type, heading.params.map Parameter.kind, number⟩

/-- Names and kinds of the parameters and, behind them, of the local variables. -/
def entries (heading : Heading) : List (String × Option VariableKind) :=
  heading.params.map (fun parameter => (parameter.subject.name, some parameter.kind)) ++
    heading.locals.map fun declaration => (declaration.declarator.subject.name, declaration.kind?)

end Heading

def Definition.heading? : Definition → Option Heading
  | ⟨_, .datum _⟩ => none
  | ⟨declarator, .function params locals _⟩ => some ⟨declarator, params, locals⟩

/-- The functions of a program in their order. -/
def Program.headings (program : Program) : List Heading :=
  program.filterMap Definition.heading?

theorem Program.headings_names (program : Program) :
    program.headings.map (fun heading => heading.declarator.subject.name) =
      program.filterMap Definition.functionName? := by
  rw [headings, List.map_filterMap]
  apply List.filterMap_congr
  rintro ⟨declarator, length | ⟨params, locals, body⟩⟩ _ <;> rfl

/-- The symbols have a record and a table for each function, under the number of its place. -/
structure Symbols.Records (symbols : Symbols) (headings : List Heading) : Prop where
  functions : symbols.functions.entries = headings.mapIdx Heading.record
  size : symbols.locals.size = headings.length
  tables : ∀ (number : Nat) (heading : Heading), headings[number]? = some heading →
    ∃ table : VariableTable, symbols.locals[number]? = some table ∧
      table.entries.map (fun entry => (entry.name, some entry.kind)) = heading.entries

namespace Declaration

/-- What a declaration enters, if its length is a number. -/
def stated (declaration : Declaration) : String × VariableKind :=
  (declaration.declarator.subject.name, declaration.kind?.getD .scalar)

theorem enters_stated (scope : Scope) (declaration : Declaration) :
    Enters scope (Declaration.after scope) (Declaration.faults scope) stated
      (fun declaration => declaration.declarator.type ≠ .void ∧ declaration.kind?.isSome = true) declaration where
  check holds fits := by
    by_cases void : declaration.declarator.type = .void
    · simp [faults, void]
    · rcases kind : declaration.kind? with _ | kind'
      · simp [faults, void, kind]
      · simp [faults, void, kind, stated, holds.entryFaults_eq_nil fits]
  taken holds fits admits fitting := by
    obtain ⟨kind, known⟩ := Option.isSome_iff_exists.mp admits.2
    simp only [stated, known, Option.getD_some] at fitting ⊢
    simp only [after, if_neg admits.1, known]
    exact holds.enter fits fitting
  same symbols := by
    unfold after
    split
    · exact .refl scope symbols
    · split
      · exact symbols.sameBut_enter scope _ _
      · exact .refl scope symbols

end Declaration

/-- What a function enters goes into its own table. -/
theorem Definition.same_bodySymbols (symbols : Symbols) (declarator : Declarator) (params : List Parameter)
    (locals : List Declaration) :
    Symbols.SameBut (.local symbols.locals.size) (symbols.openFunction declarator params)
      (bodySymbols symbols declarator params locals) := by
  have entered := Enters.same_foldl (fun parameter (_ : parameter ∈ params) =>
    Parameter.enters (.local symbols.locals.size) parameter) (symbols.openFunction declarator params)
  exact entered.trans (Enters.same_foldl (fun declaration (_ : declaration ∈ locals) =>
    Declaration.enters_stated (.local symbols.locals.size) declaration) _)

theorem Heading.entries_eq {declarator : Declarator} {params : List Parameter} {locals : List Declaration}
    (known : ∀ declaration ∈ locals, declaration.kind?.isSome = true) :
    (params.map Parameter.entry ++ locals.map Declaration.stated).map (fun entry => (entry.1, some entry.2)) =
      entries ⟨declarator, params, locals⟩ := by
  rw [entries, List.map_append, List.map_map, List.map_map]
  refine congrArg₂ (· ++ ·) rfl (List.map_congr_left fun declaration member => ?_)
  obtain ⟨kind, same⟩ := Option.isSome_iff_exists.mp (known declaration member)
  simp [Declaration.stated, same]

namespace Symbols
variable {symbols : Symbols}

theorem records_empty : empty.Records [] where
  functions := rfl
  size := rfl
  tables _ _ found := nomatch found

/-- A change in the global table does not concern functions. -/
theorem Records.sameBut {headings : List Heading} (records : symbols.Records headings) {after : Symbols}
    (same : SameBut .global symbols after) : after.Records headings where
  functions := (congrArg NameTable.entries same.functions).trans records.functions
  size := same.size.trans records.size
  tables number heading found := by
    obtain ⟨table, present, listed⟩ := records.tables number heading found
    exact ⟨table, (same.tables (.local number) (by simp)).trans present, listed⟩

/-- A function without errors is new, and its table holds its parameters and its local variables. -/
theorem holds_bodySymbols {declarator : Declarator} {params : List Parameter} {locals : List Declaration}
    {body : Statement} (quiet : Definition.faults symbols ⟨declarator, .function params locals body⟩ = []) :
    symbols.functions.contains declarator.subject.name = false ∧
      SameBut (.local symbols.locals.size) (symbols.openFunction declarator params)
        (Definition.bodySymbols symbols declarator params locals) ∧
      (∀ declaration ∈ locals, declaration.kind?.isSome = true) ∧
      (Definition.bodySymbols symbols declarator params locals).Holds (.local symbols.locals.size)
        (params.map Parameter.entry ++ locals.map Declaration.stated) := by
  simp only [Definition.faults, List.append_eq_nil_iff] at quiet
  obtain ⟨⟨⟨quietName, quietParams⟩, quietLocals⟩, _⟩ := quiet
  have fresh := functionFaults_eq_nil_iff.mp quietName
  have inParams := fun parameter (_ : parameter ∈ params) => Parameter.enters (.local symbols.locals.size) parameter
  have inLocals := fun declaration (_ : declaration ∈ locals) =>
    Declaration.enters_stated (.local symbols.locals.size) declaration
  have opened : (symbols.openFunction declarator params).Holds (.local symbols.locals.size) [] := by
    rw [Program.openFunction_eq fresh]
    exact ⟨.empty, by simp [table?], VariableTable.lists_empty⟩
  obtain ⟨allParams, fitParams⟩ := (Enters.faultsAll_eq_nil inParams opened fits_nil).mp quietParams
  have afterParams := Enters.holds_foldl inParams opened fits_nil allParams fitParams
  obtain ⟨allLocals, fitLocals⟩ := (Enters.faultsAll_eq_nil inLocals afterParams fitParams).mp quietLocals
  have afterLocals := Enters.holds_foldl inLocals afterParams fitParams allLocals fitLocals
  refine ⟨fresh, ?_, fun declaration member => (allLocals declaration member).2, afterLocals⟩
  exact (Enters.same_foldl inParams _).trans (Enters.same_foldl inLocals _)

/-- One more function, with the number that comes next, and the tables of the others as they were. -/
theorem Records.function {headings : List Heading} (records : symbols.Records headings) {declarator : Declarator}
    {params : List Parameter} {locals : List Declaration} {body : Statement}
    (quiet : Definition.faults symbols ⟨declarator, .function params locals body⟩ = []) :
    (Definition.bodySymbols symbols declarator params locals).Records
      (headings ++ [⟨declarator, params, locals⟩]) := by
  obtain ⟨fresh, same, known, table, present, lists⟩ := holds_bodySymbols quiet
  have opened := @Program.openFunction_eq _ _ params fresh
  refine ⟨?_, ?_, ?_⟩
  · rw [same.functions, opened, List.mapIdx_concat, ← records.functions, functionOf, records.size]
    rfl
  · rw [same.size, opened, Array.size_push, records.size, List.length_append]
    rfl
  · intro number heading found
    by_cases old : number < headings.length
    · rw [List.getElem?_append_left old] at found
      obtain ⟨table, present, listed⟩ := records.tables number heading found
      have other : number ≠ symbols.locals.size := by
        rw [records.size]
        omega
      refine ⟨table, ?_, listed⟩
      refine (same.tables (.local number) (by simpa using other)).trans ?_
      rw [opened, table?, Array.getElem?_push, if_neg other]
      exact present
    · obtain ⟨inside, _⟩ := List.getElem?_eq_some_iff.mp found
      have last : number = headings.length := by
        rw [List.length_append, List.length_singleton] at inside
        omega
      rw [last, List.getElem?_concat_length] at found
      cases found
      refine ⟨table, ?_, ?_⟩
      · rw [last, ← records.size]
        exact present
      · rw [← Heading.entries_eq known, ← lists.listed, List.map_map]
        rfl

/-- A program without errors is recorded function by function. -/
theorem Records.after {headings : List Heading} (records : symbols.Records headings) {program : Program}
    (quiet : program.faults symbols = []) : (program.after symbols).Records (headings ++ program.headings) := by
  induction program generalizing symbols headings with
  | nil =>
    rw [Program.headings, List.filterMap_nil, List.append_nil]
    exact records
  | cons definition rest ih =>
    obtain ⟨here, later⟩ := List.append_eq_nil_iff.mp quiet
    obtain ⟨declarator, length | ⟨params, locals, body⟩⟩ := definition
    · have same := (Declaration.enters_stated .global ⟨declarator, length⟩).same symbols
      exact ih (records.sameBut same) later
    · have grown := ih (records.function here) later
      rw [List.append_assoc] at grown
      exact grown

end Symbols

/-- The symbols after the evaluation of any tree: every table is in order, and no two functions share a table. Where
the tree is that of a program and there are no errors, they record its functions in their order. -/
theorem evaluation_tables (tree : ParseTree) :
    (∀ scope table, (Evaluation.ofTree tree).symbols.table? scope = some table → table.Orderly) ∧
      (Evaluation.ofTree tree).symbols.functions.Answers Function.name ∧
      (∀ function ∈ (Evaluation.ofTree tree).symbols.functions.entries,
        function.locals < (Evaluation.ofTree tree).symbols.locals.size) ∧
      ((Evaluation.ofTree tree).symbols.functions.entries.map Function.locals).Nodup ∧
      (tree.conforms Language.grammar = true → tree.sign = .nonTerminal .program →
        (Evaluation.ofTree tree).errors = [] →
          (Evaluation.ofTree tree).symbols.Records (Program.ofTree tree).headings ∧
          (Program.ofTree tree).headings.map (fun heading => heading.declarator.subject.name) =
            tree.functionNames) := by
  have filed := Evaluation.filed_ofTree tree
  refine ⟨fun scope table present => (filed.tables scope table present).orderly, filed.functions.answers, filed.bounded,
    filed.separate, ?_⟩
  intro conforming rooted quiet
  have whole := Evaluation.ofTree_eq_program conforming rooted
  rw [whole] at quiet
  refine ⟨?_, ?_⟩
  · rw [whole]
    exact Symbols.records_empty.after quiet
  · rw [Program.headings_names, Program.filterMap_functionName? conforming rooted]

theorem evaluation_tables_branching :
    ∃ tree, parseSource branching = .ok tree ∧ tree.conforms Language.grammar = true ∧
      tree.sign = .nonTerminal .program ∧ (Evaluation.ofTree tree).errors = [] ∧
      (∀ scope table, (Evaluation.ofTree tree).symbols.table? scope = some table → table.Orderly) ∧
      (Evaluation.ofTree tree).symbols.Records (Program.ofTree tree).headings ∧
      (Program.ofTree tree).headings.mapIdx Heading.record =
        [⟨"f", .int, [.param false, .param true], 0⟩, ⟨"h", .void, [], 1⟩] ∧
      (Program.ofTree tree).headings.map (fun heading => heading.declarator.subject.name) = ["f", "h"] := by
  obtain ⟨_, tree, _, parsed, _, quiet, functions, _, named, _⟩ := branching_parses
  obtain ⟨conforming, rooted⟩ := parseSource_conforms parsed
  obtain ⟨orderly, _, _, _, recorded⟩ := evaluation_tables tree
  obtain ⟨records, names⟩ := recorded conforming rooted quiet
  rw [named] at names
  exact ⟨tree, parsed, conforming, rooted, quiet, orderly, records, records.functions.symm.trans functions, names⟩

end Minuscule
