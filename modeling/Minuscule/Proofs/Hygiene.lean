import Minuscule.Proofs.Supply

/-!
Names of the source and names handed out. Nothing keeps a source from calling a variable or a function as the code
calls its temporaries and block labels. The names stay apart exactly as long as no variable has the name of a temporary
that is handed out and no function that of a block label; then every jump has one target.
-/

namespace Minuscule

namespace Program

/-- The names of the variables and parameters that a program declares. -/
def variableNames (program : Program) : List String :=
  program.flatMap fun definition => (definition.globals ++ definition.locals).map Prod.fst

theorem spelled_variableNames {words : Vocabulary} {program : Program} (spelled : program.Spelled words) :
    ∀ name ∈ program.variableNames, words.name name := by
  intro name member
  obtain ⟨⟨declarator, length | ⟨params, locals, body⟩⟩, listed, inside⟩ := List.mem_flatMap.mp member
  · obtain ⟨named, _⟩ := spelled _ listed
    rw [List.mem_singleton.mp inside]
    exact named
  · obtain ⟨_, inParams, inLocals, _⟩ := spelled _ listed
    rw [Definition.globals, Definition.locals, List.nil_append, List.map_append, List.map_map, List.map_map] at inside
    rcases List.mem_append.mp inside with inside | inside
    · obtain ⟨parameter, present, rfl⟩ := List.mem_map.mp inside
      exact inParams parameter present
    · obtain ⟨declaration, present, rfl⟩ := List.mem_map.mp inside
      exact (inLocals declaration present).1

theorem spelled_functionNames {words : Vocabulary} {program : Program} (spelled : program.Spelled words) :
    ∀ name ∈ program.filterMap Definition.functionName?, words.name name := by
  intro name member
  obtain ⟨⟨declarator, length | ⟨params, locals, body⟩⟩, listed, named⟩ := List.mem_filterMap.mp member
  · cases named
  · cases named
    exact (spelled _ listed).1

theorem functions_fst (program : Program) :
    program.functions.map Prod.fst = program.filterMap Definition.functionName? := by
  induction program with
  | nil => rfl
  | cons definition rest ih =>
    obtain ⟨declarator, length | ⟨params, locals, body⟩⟩ := definition
    · exact ih
    · exact congrArg (declarator.subject.name :: ·) ih

theorem closed_code (program : Program) (names : Names) : Closed (program.code names) := by
  induction program generalizing names with
  | nil => exact closed_of_still (by simp [code])
  | cons definition rest ih =>
    refine Closed.append ?_ (ih _)
    obtain ⟨declarator, length | ⟨params, locals, body⟩⟩ := definition
    · exact closed_of_still (by simp [Definition.code])
    · have entry : Closed [.label declarator.subject.name] := closed_of_still (by simp [Instruction.target?])
      exact entry.append (body.closed_code names)

end Program

/-- No result is left in a variable of the program, and no two labels of the code are alike. -/
structure Hygienic (program : Program) (code : List Instruction) : Prop where
  results : ∀ place ∈ written code, place ∉ program.variableNames
  labels : (code.filter Instruction.isLabel).Nodup

/-- No variable has the name of one of the first temporaries, and no function that of one of the first block labels. -/
structure Program.Apart (program : Program) (temporaries labels : Nat) : Prop where
  noVariable : ∀ number < temporaries, temporary number ∉ program.variableNames
  noFunction : ∀ number < labels, blockLabel number ∉ program.filterMap Definition.functionName?

namespace Program

theorem results_apart_iff (program : Program) :
    (∀ place ∈ written (program.code .fresh), place ∉ program.variableNames) ↔
      ∀ number < program.temporaries, temporary number ∉ program.variableNames := by
  have listed (place : String) : place ∈ written (program.code .fresh) ↔
      ∃ number < program.temporaries, temporary number = place := by
    rw [(program.perm_written .fresh).mem_iff, temporariesFrom, List.mem_map]
    simp [List.mem_range'_1, Names.fresh]
  simp only [listed]
  constructor
  · intro apart number low
    exact apart _ ⟨number, low, rfl⟩
  · intro apart place found
    obtain ⟨number, low, same⟩ := found
    rw [← same]
    exact apart number low

/-- The functions' names differ among each other and the block labels do, so only one of each can be alike. -/
theorem labels_nodup_iff {program : Program} (distinct : (program.filterMap Definition.functionName?).Nodup) :
    ((program.code .fresh).filter Instruction.isLabel).Nodup ↔
      ∀ number < 3 * program.branches, blockLabel number ∉ program.filterMap Definition.functionName? := by
  have functions : ((program.filterMap Definition.functionName?).map Instruction.label).Nodup :=
    distinct.map fun _ _ => Instruction.label.inj
  rw [(program.perm_labels .fresh).nodup_iff, List.nodup_append]
  constructor
  · rintro ⟨_, _, apart⟩ number low member
    refine apart _ (List.mem_map_of_mem member) _ (List.mem_map_of_mem ?_) rfl
    exact List.mem_range'_1.mpr ⟨Nat.zero_le _, by simpa [Names.fresh] using low⟩
  · intro apart
    refine ⟨functions, nodup_blockLabels _ _, ?_⟩
    intro entry inFunctions block inBlocks same
    obtain ⟨name, member, rfl⟩ := List.mem_map.mp inFunctions
    obtain ⟨number, low, rfl⟩ := List.mem_map.mp inBlocks
    cases same
    have small : number < 3 * program.branches := by simpa [Names.fresh] using (List.mem_range'_1.mp low).2
    exact apart number small member

theorem hygienic_code_iff {program : Program} (distinct : (program.filterMap Definition.functionName?).Nodup) :
    Hygienic program (program.code .fresh) ↔ program.Apart program.temporaries (3 * program.branches) :=
  ⟨fun hygienic => ⟨(results_apart_iff program).mp hygienic.results, (labels_nodup_iff distinct).mp hygienic.labels⟩,
    fun apart => ⟨(results_apart_iff program).mpr apart.noVariable, (labels_nodup_iff distinct).mpr apart.noFunction⟩⟩

end Program

theorem Hygienic.count_target {program : Program} {code : List Instruction} (hygienic : Hygienic program code)
    (closed : Closed code) :
    ∀ instruction ∈ code, ∀ target ∈ instruction.target?, code.count (.label target) = 1 := by
  intro instruction member target jumps
  have placed := closed instruction member target jumps
  rw [← List.count_filter (p := Instruction.isLabel) rfl]
  exact List.count_eq_one_of_mem hygienic.labels (List.mem_filter.mpr ⟨placed, rfl⟩)

/-- The code that a source is compiled to is hygienic exactly if its own names keep apart from those handed out, and
then each jump has one label to go to. -/
theorem compile_hygienic_iff {source : String} {tree : ParseTree} {code : List Instruction}
    (parsed : parseSource source = .ok tree) (compiled : compile source = .ok code) :
    (Hygienic (Program.ofTree tree) code ↔
      (Program.ofTree tree).Apart (Evaluation.ofTree tree).names.temporaries (3 * tree.branches)) ∧
    (Hygienic (Program.ofTree tree) code →
      ∀ instruction ∈ code, ∀ target ∈ instruction.target?, code.count (.label target) = 1) := by
  obtain ⟨conforming, rooted⟩ := parseSource_conforms parsed
  obtain ⟨quiet, rfl⟩ := (compile_eq_ok_iff parsed code).mp compiled
  have formed := (Program.faults_eq_nil_iff (spelled_numerals parsed)).mp quiet
  have distinct := formed.functionNames
  rw [Program.functions_fst] at distinct
  refine ⟨?_, fun hygienic => hygienic.count_target (Program.closed_code _ _)⟩
  rw [Program.branches_ofTree conforming rooted, Evaluation.ofTree_eq_program conforming rooted,
    Program.temporaries_names, Program.hygienic_code_iff distinct]
  rw [show Names.fresh.temporaries = 0 from rfl, Nat.zero_add]

theorem compile_hygienic_branching :
    ∃ tree code, parseSource branching = .ok tree ∧ compile branching = .ok code ∧
      Hygienic (Program.ofTree tree) code ∧
      ∀ instruction ∈ code, ∀ target ∈ instruction.target?, code.count (.label target) = 1 := by
  obtain ⟨tokens, tree, read, parsed, plain, quiet, _⟩ := branching_parses
  obtain ⟨conforming, rooted⟩ := parseSource_conforms parsed
  rw [Evaluation.ofTree_eq_program conforming rooted] at quiet
  have compiled := (compile_eq_ok_iff parsed _).mpr ⟨quiet, rfl⟩
  obtain ⟨apartness, targets⟩ := compile_hygienic_iff parsed compiled
  have spelled : (Program.ofTree tree).Spelled ⟨fun name => name.toList.head? ≠ some '_', fun _ => True⟩ := by
    obtain ⟨tokens', read', found⟩ := parseSource_ok parsed
    cases read.symm.trans read'
    exact Program.spelled_of_parse found (fun token member _ => plain token member) fun _ _ _ => trivial
  have hygienic : Hygienic (Program.ofTree tree) ((Program.ofTree tree).code .fresh) := by
    refine apartness.mpr ⟨fun number _ member => ?_, fun number _ member => ?_⟩
    · have other := Program.spelled_variableNames spelled _ member
      simp [toList_temporary] at other
    · have other := Program.spelled_functionNames spelled _ member
      simp [toList_blockLabel] at other
  exact ⟨tree, _, parsed, compiled, hygienic, targets hygienic⟩

/-- A variable with the name of the first temporary, and a function with that of the first block label. -/
def collision : String :=
  "int _v0; int __b0(int x) \x7b _v0 = 7; if (x) \x7b x = x + 1; \x7d return _v0; \x7d"

/-- The sum is left in the variable `_v0`, which should still be `7` when it is returned, and the jump to `__b0` has two
labels to go to, of which the first is that of the function. -/
theorem collision_not_hygienic :
    ∃ tree code, parseSource collision = .ok tree ∧ compile collision = .ok code ∧
      code = [.label "__b0", .assign "_v0" "7", .ifGoto "x" "__b0", .label "__b1", .goto "__b2", .label "__b0",
        .binary "_v0" "x" .add "1", .assign "x" "_v0", .goto "__b2", .label "__b2", .ret (some "_v0")] ∧
      "_v0" ∈ written code ∧ "_v0" ∈ (Program.ofTree tree).variableNames ∧
      ¬(code.filter Instruction.isLabel).Nodup := by
  have passes : (Preview.descent 500).sourcePasses (fun _ program =>
      (program.faults .empty).isEmpty && "_v0" ∈ program.variableNames &&
        program.code .fresh =
          [.label "__b0", .assign "_v0" "7", .ifGoto "x" "__b0", .label "__b1", .goto "__b2", .label "__b0",
            .binary "_v0" "x" .add "1", .assign "x" "_v0", .goto "__b2", .label "__b2", .ret (some "_v0")])
      collision = true := by
    decide +kernel
  obtain ⟨_, tree, _, parsed, passes⟩ := Preview.parseSource_of_sourcePasses passes
  simp only [Bool.and_eq_true, List.isEmpty_iff, decide_eq_true_eq] at passes
  obtain ⟨⟨quiet, declared⟩, code⟩ := passes
  have compiled := (compile_eq_ok_iff parsed _).mpr ⟨quiet, code.symm⟩
  exact ⟨tree, _, parsed, compiled, rfl, by decide, declared, by decide⟩

end Minuscule
