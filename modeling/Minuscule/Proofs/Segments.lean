import Mathlib.Data.List.Range
import Minuscule.Proofs.Simulation

/-!
The code of a program is the code of its functions one after the other, each behind its own label. The labels inside
a function are block labels, each handed out once, so that every jump finds its target inside the function and the
next function's label ends it.
-/

namespace Minuscule

open Machine

/-- The block labels with so many numbers from the first on. -/
def blockLabels (first count : Nat) : List Instruction :=
  (List.range' first count).map fun number => .label (blockLabel number)

theorem blockLabels_add (first count more : Nat) :
    blockLabels first (count + more) = blockLabels first count ++ blockLabels (first + count) more := by
  rw [blockLabels, ← List.range'_append_1, List.map_append]
  rfl

theorem nodup_blockLabels (first count : Nat) : (blockLabels first count).Nodup := by
  apply List.Nodup.map _ List.nodup_range'
  intro number number' same
  exact blockLabel_injective (Instruction.label.inj same)

theorem filter_of_scratch {next : Nat} {part : List Instruction}
    (scratch : ∀ instruction ∈ part, Scratch next instruction) : part.filter Instruction.isLabel = [] := by
  rw [List.filter_eq_nil_iff]
  intro instruction member
  have written := scratch instruction member
  cases instruction
  case label => exact written.elim
  all_goals exact Bool.false_ne_true

theorem Expression.filter_code (expression : Expression) (next : Nat) :
    (expression.code next).filter Instruction.isLabel = [] :=
  filter_of_scratch (Expression.scratch_code (Nat.le_refl next) expression)

theorem filter_selection (test consequent alternative : List Instruction)
    (condition consequentLabel alternativeLabel joinLabel : String) :
    (Layout.selection test condition consequent alternative consequentLabel alternativeLabel joinLabel).filter
        Instruction.isLabel =
      test.filter Instruction.isLabel ++ [.label alternativeLabel] ++ alternative.filter Instruction.isLabel ++
        [.label consequentLabel] ++ consequent.filter Instruction.isLabel ++ [.label joinLabel] := by
  simp only [Layout.selection, List.filter_append]
  rfl

theorem filter_iteration (test body : List Instruction) (condition testLabel bodyLabel endLabel : String) :
    (Layout.iteration test condition body testLabel bodyLabel endLabel).filter Instruction.isLabel =
      [.label testLabel] ++ test.filter Instruction.isLabel ++ [.label bodyLabel] ++
        body.filter Instruction.isLabel ++ [.label endLabel] := by
  simp only [Layout.iteration, List.filter_append]
  rfl

theorem blockLabels_three (first : Nat) :
    blockLabels first 3 =
      [.label (blockLabel first)] ++ [.label (blockLabel (first + 1))] ++ [.label (blockLabel (first + 2))] :=
  rfl

/-- A statement places every label that it takes, and each once. -/
theorem Statement.perm_labels (statement : Statement) (names : Names) :
    List.Perm ((statement.code names).filter Instruction.isLabel) (blockLabels names.labels statement.labels) := by
  induction statement generalizing names with
  | skip => exact .refl _
  | seq first rest ihFirst ihRest =>
    rw [Statement.code, List.filter_append, Statement.labels, blockLabels_add]
    exact (ihFirst names).append (ihRest _)
  | assign target value =>
    rw [Statement.code, List.filter_append, Expression.filter_code]
    exact .refl _
  | store target index value =>
    rw [Statement.code, List.filter_append, List.filter_append, Expression.filter_code, Expression.filter_code]
    exact .refl _
  | call callee arguments =>
    rw [Statement.code, List.filter_append, filter_of_scratch (Arguments.scratch_code (Nat.le_refl _) arguments),
      filter_of_scratch (scratch_call (Nat.le_refl _) _ _)]
    exact .refl _
  | select test consequent alternative ihConsequent ihAlternative =>
    rw [Statement.code, filter_selection, Expression.filter_code, Statement.labels, blockLabels_add, blockLabels_add,
      blockLabels_three, ← Nat.add_assoc]
    have inner : List.Perm _ (blockLabels names.labels consequent.labels) :=
      ihConsequent (names.advance test.temporaries 0)
    have outer : List.Perm _ (blockLabels (names.labels + consequent.labels) alternative.labels) :=
      ihAlternative ((names.advance test.temporaries 0).advance consequent.temporaries consequent.labels)
    apply List.perm_iff_count.mpr
    intro instruction
    simp only [List.count_append, inner.count_eq, outer.count_eq, List.count_nil]
    simp only [Names.advance, Nat.add_zero]
    omega
  | loop test body ih =>
    rw [Statement.code, filter_iteration, Expression.filter_code, Statement.labels, blockLabels_add, blockLabels_three]
    have inner : List.Perm _ (blockLabels names.labels body.labels) := ih (names.advance test.temporaries 0)
    apply List.perm_iff_count.mpr
    intro instruction
    simp only [List.count_append, inner.count_eq, List.count_nil]
    omega
  | ret value =>
    cases value with
    | none => exact .refl _
    | some value =>
      rw [Statement.code, List.filter_append, Expression.filter_code]
      exact .refl _

theorem Statement.label_of_mem {statement : Statement} {names : Names} {name : String}
    (member : .label name ∈ statement.code names) : ∃ number, name = blockLabel number := by
  have listed : .label name ∈ (statement.code names).filter Instruction.isLabel := List.mem_filter.mpr ⟨member, rfl⟩
  obtain ⟨number, _, same⟩ := List.mem_map.mp ((statement.perm_labels names).mem_iff.mp listed)
  exact ⟨number, (Instruction.label.inj same).symm⟩

/-- The code of a function has its entry and its block labels once each. -/
theorem unambiguous_function {name : String} (fresh : ∀ number, name ≠ blockLabel number) (body : Statement)
    (names : Names) : Unambiguous (.label name :: body.code names) := by
  rw [Unambiguous, List.filter_cons_of_pos rfl]
  apply List.nodup_cons.mpr
  constructor
  · intro member
    obtain ⟨number, same⟩ := Statement.label_of_mem (List.mem_filter.mp member).1
    exact fresh number same
  · exact (body.perm_labels names).nodup_iff.mpr (nodup_blockLabels _ _)

/-! Functions of a program. -/

/-- The code of one function: from its label up to the label of another one. -/
def Machine.segment (functions : List String) (name : String) (code : List Instruction) : List Instruction :=
  match target? name code with
  | some (entry :: rest) => entry :: rest.takeWhile fun instruction => !functions.any (instruction = .label ·)
  | _ => []

theorem segment_append {functions : List String} {name : String} {front body rest : List Instruction}
    (first : .label name ∉ front) (inside : ∀ function ∈ functions, .label function ∉ body)
    (next : rest.takeWhile (fun instruction => !functions.any (instruction = .label ·)) = []) :
    Machine.segment functions name (front ++ .label name :: (body ++ rest)) = .label name :: body := by
  have within : ∀ instruction ∈ body, (!functions.any (instruction = .label ·)) = true := by
    intro instruction member
    rw [Bool.not_eq_true', List.any_eq_false]
    intro function listed same
    rw [decide_eq_true_eq] at same
    exact inside function listed (same ▸ member)
  rw [Machine.segment, target?_append first]
  change _ :: List.takeWhile _ (body ++ rest) = _
  rw [List.takeWhile_append_of_pos within, next, List.append_nil]

namespace Program

theorem code_append (before after : Program) (names : Names) :
    code names (before ++ after) = code names before ++ code (Program.names names before) after := by
  induction before generalizing names with
  | nil => rfl
  | cons definition before ih =>
    rw [List.cons_append, code, code, ih, List.append_assoc]
    rfl

theorem label_of_mem {program : Program} {names : Names} {name : String} (member : .label name ∈ program.code names) :
    name ∈ program.functions.map Prod.fst ∨ ∃ number, name = blockLabel number := by
  induction program generalizing names with
  | nil => cases member
  | cons definition rest ih =>
    obtain ⟨declarator, length | ⟨params, locals, body⟩⟩ := definition
    · exact ih member
    · rcases List.mem_cons.mp member with entry | inside
      · exact .inl (List.mem_cons.mpr (.inl (Instruction.label.inj entry)))
      · rcases List.mem_append.mp inside with own | later
        · exact .inr (Statement.label_of_mem own)
        · exact (ih later).imp_left (List.mem_cons_of_mem _)

/-- Code that comes next to a function starts with the label of another one. -/
theorem takeWhile_code {functions : List String} {program : Program}
    (known : ∀ name ∈ program.functions.map Prod.fst, name ∈ functions) (names : Names) :
    (program.code names).takeWhile (fun instruction => !functions.any (instruction = .label ·)) = [] := by
  induction program generalizing names with
  | nil => rfl
  | cons definition rest ih =>
    obtain ⟨declarator, length | ⟨params, locals, body⟩⟩ := definition
    · exact ih known names
    · have listed : declarator.subject.name ∈ functions := known _ (List.mem_cons_self ..)
      change List.takeWhile _ (Instruction.label declarator.subject.name :: _) = []
      apply List.takeWhile_cons_of_neg
      simpa using listed

theorem spelled_functions {words : Vocabulary} {program : Program} (spelled : program.Spelled words) :
    ∀ name ∈ program.functions.map Prod.fst, words.name name := by
  intro name listed
  obtain ⟨pair, present, rfl⟩ := List.mem_map.mp listed
  obtain ⟨⟨declarator, length | ⟨params, locals, body⟩⟩, member, own⟩ := List.mem_flatMap.mp present
  · cases own
  · rw [List.mem_singleton.mp own]
    exact (spelled _ member).1

/-- The segment of a function is its code. -/
theorem segment_eq {program before after : Program} {declarator : Declarator} {params : List Parameter}
    {locals : List Declaration} {body : Statement} (spelled : program.Spelled .hygienic)
    (distinct : (program.functions.map Prod.fst).Nodup)
    (split : program = before ++ ⟨declarator, .function params locals body⟩ :: after) :
    Machine.segment (program.functions.map Prod.fst) declarator.subject.name (program.code .fresh) =
      .label declarator.subject.name :: body.code (Program.names .fresh before) := by
  have named := spelled_functions spelled
  subst split
  have whole : code .fresh (before ++ ⟨declarator, .function params locals body⟩ :: after) =
      code .fresh before ++ .label declarator.subject.name ::
        (body.code (Program.names .fresh before) ++ code _ after) :=
    code_append before _ .fresh
  have split := functions_append before (⟨declarator, .function params locals body⟩ :: after)
  rw [whole]
  rw [split, List.map_append] at distinct named ⊢
  apply segment_append
  · intro member
    rcases label_of_mem member with early | ⟨number, same⟩
    · exact List.disjoint_of_nodup_append distinct early (List.mem_cons_self ..)
    · exact ((named _ (List.mem_append_right _ (List.mem_cons_self ..))).2 number).2 same
  · intro name listed member
    obtain ⟨number, same⟩ := Statement.label_of_mem member
    exact ((named name listed).2 number).2 same
  · exact takeWhile_code (fun name later => List.mem_append_right _ (List.mem_cons_of_mem _ later)) _

end Program

/-! Runs of a function. -/

section Function
variable {operations : Operations} {name : String} {body : Statement} {names : Names} {start : Store}

theorem body_placed : body.code names ++ [] <:+ .label name :: body.code names := by
  rw [List.append_nil]
  exact List.suffix_cons _ _

/-- Run from its label on, the code of a function follows its body and stops where the body ends. -/
theorem Statement.Runs.stops (unambiguous : Unambiguous (.label name :: body.code names))
    (spelled : body.Spelled .hygienic) {outcome : Outcome} {final : Store}
    (runs : body.Runs operations start outcome final) :
    ∃ state, Reaches operations (.label name :: body.code names) ⟨.label name :: body.code names, start⟩ state ∧
      state.outcome? = some outcome ∧ state.store.Agrees final := by
  obtain ⟨⟨rest, store⟩, reached, arrived, agrees⟩ :=
    runs.follows unambiguous names [] start spelled body_placed (.refl 0 start)
  rw [List.append_nil] at reached
  refine ⟨⟨rest, store⟩, (Reaches.label ..).trans reached, ?_, agrees⟩
  cases outcome with
  | passed =>
    cases arrived
    rfl
  | returned value => exact arrived

theorem runs_of_machine_runs (unambiguous : Unambiguous (.label name :: body.code names))
    (spelled : body.Spelled .hygienic) {outcome : Outcome} {after : Store}
    (ran : Machine.Runs operations (.label name :: body.code names) start outcome after) :
    ∃ final, body.Runs operations start outcome final ∧ after.Agrees final := by
  obtain ⟨total, rest, halted⟩ := ran
  obtain ⟨left, _, inside⟩ := halted.label
  have padded : Halts operations (.label name :: body.code names) left ⟨body.code names ++ [], start⟩ outcome
      ⟨rest, after⟩ := by
    rw [List.append_nil]
    exact inside
  obtain ⟨result, final, runs⟩ := body.runs_of_halts unambiguous spelled body_placed (.refl 0 start) padded
  obtain ⟨state, reached, ended, agrees⟩ := runs.stops unambiguous spelled
  obtain ⟨rfl, rfl⟩ := halted.unique reached ended
  exact ⟨final, runs, agrees⟩

end Function

theorem hygienic_names {source : String} {tokens : List (Token Terminal)} {tree : ParseTree}
    (read : tokenize source = .ok tokens) (parsed : parseSource source = .ok tree)
    (clean : ∀ token ∈ tokens, token.kind = .ident →
      ∀ number, token.lexeme ≠ temporary number ∧ token.lexeme ≠ blockLabel number) :
    (Program.ofTree tree).Spelled .hygienic := by
  obtain ⟨tokens', read', found⟩ := parseSource_ok parsed
  cases Except.ok.inj (read.symm.trans read')
  have spelled := spelled_tokenize read
  apply Program.spelled_of_parse found
  · intro token member kind
    exact ⟨(spelled token member).2 kind, clean token member kind⟩
  · intro token member kind
    exact ((spelled token member).1 kind).1

/-- The code of each function means what its body means. In a compiled source without names of the compiler's own
making, the segment of a function ends in some way with some store, temporaries apart, exactly when the body does,
whatever the operators mean and whatever the store holds at first. Calls are outside both meanings, so that this is
about bodies that call nothing, and about others as far as they get without a call. -/
theorem segment_runs_iff_body_runs {source : String} {tokens : List (Token Terminal)} {tree : ParseTree}
    {code : List Instruction} (read : tokenize source = .ok tokens) (parsed : parseSource source = .ok tree)
    (compiled : compile source = .ok code)
    (clean : ∀ token ∈ tokens, token.kind = .ident →
      ∀ number, token.lexeme ≠ temporary number ∧ token.lexeme ≠ blockLabel number)
    {declarator : Declarator} {params : List Parameter} {locals : List Declaration} {body : Statement}
    (defined : ⟨declarator, .function params locals body⟩ ∈ Program.ofTree tree)
    (operations : Operations) (start : Store) (outcome : Outcome) (final : Store) :
    (∃ after, Machine.Runs operations
        (Machine.segment ((Program.ofTree tree).functions.map Prod.fst) declarator.subject.name code)
        start outcome after ∧ after.Agrees final) ↔
      ∃ after, body.Runs operations start outcome after ∧ after.Agrees final := by
  obtain ⟨quiet, rfl⟩ := (compile_eq_ok_iff parsed code).mp compiled
  have formed := (Program.faults_eq_nil_iff (spelled_numerals parsed)).mp quiet
  have spelled := hygienic_names read parsed clean
  obtain ⟨before, after, split⟩ := List.append_of_mem defined
  have named := spelled _ defined
  have unambiguous := unambiguous_function (fun number => (named.1.2 number).2) body (Program.names .fresh before)
  rw [Program.segment_eq spelled formed.functionNames split]
  constructor
  · rintro ⟨after, ran, agrees⟩
    obtain ⟨result, runs, same⟩ := runs_of_machine_runs unambiguous named.2.2.2 ran
    exact ⟨result, runs, agrees.trans same.symm⟩
  · rintro ⟨after, runs, agrees⟩
    obtain ⟨⟨rest, store⟩, ⟨count, reached⟩, ended, same⟩ := runs.stops unambiguous named.2.2.2
    exact ⟨store, ⟨count, rest, reached, ended⟩, agrees.trans same⟩

theorem countdown_segment_runs :
    ∃ tokens tree code declarator params locals body,
      tokenize countdown = .ok tokens ∧ parseSource countdown = .ok tree ∧ compile countdown = .ok code ∧
      (∀ token ∈ tokens, token.kind = .ident →
        ∀ number, token.lexeme ≠ temporary number ∧ token.lexeme ≠ blockLabel number) ∧
      ⟨declarator, .function params locals body⟩ ∈ Program.ofTree tree ∧ declarator.subject.name = "count" ∧
      ∀ operations start outcome final,
        (∃ after, Machine.Runs operations
            (Machine.segment ((Program.ofTree tree).functions.map Prod.fst) "count" code) start outcome after ∧
            after.Agrees final) ↔
          ∃ after, body.Runs operations start outcome after ∧ after.Agrees final := by
  obtain ⟨tokens, tree, read, parsed, quiet, plain, declarator, params, locals, body, named, defined⟩ :=
    countdown_parses
  have compiled := (compile_eq_ok_iff parsed _).mpr ⟨quiet, rfl⟩
  have clean : ∀ token ∈ tokens, token.kind = .ident →
      ∀ number, token.lexeme ≠ temporary number ∧ token.lexeme ≠ blockLabel number := by
    intro token member _ number
    constructor
    · intro same
      exact plain token member (by rw [same, toList_temporary]; rfl)
    · intro same
      exact plain token member (by rw [same, toList_blockLabel]; rfl)
  refine ⟨tokens, tree, _, declarator, params, locals, body, read, parsed, compiled, clean, defined, named, ?_⟩
  intro operations start outcome final
  rw [← named]
  exact segment_runs_iff_body_runs read parsed compiled clean defined operations start outcome final

end Minuscule
