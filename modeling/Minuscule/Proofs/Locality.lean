import Minuscule.Proofs.Bodies
import Minuscule.Proofs.Lists
import Minuscule.Proofs.Templates
import Minuscule.Proofs.Visibility

/-!
The body of a function is its own affair. Programs that differ inside the code-block of one function have the same
global variables and functions, and each other definition has the same table, finds the same errors and contributes the
same code, up to the numbers of the names that are made up.
-/

namespace Minuscule

open Minuscule.Action

/-! The errors of each definition. -/

/-- The errors that an action adds to those found before. -/
def Action.reported {α : Type} (action : Action α) : Action (List SemanticError) := do
  let before ← get
  let _ ← action
  let after ← get
  return after.errors.toList.drop before.errors.size

theorem Action.run_reported {α : Type} {action : Action α} {progress next : Progress} {value : α}
    {faults : List SemanticError} (ran : action.run progress = (value, next))
    (errors : next.errors = progress.errors ++ faults.toArray) : action.reported.run progress = (faults, next) := by
  change ((action.run progress).2.errors.toList.drop progress.errors.size, (action.run progress).2) = _
  rw [ran, errors, Array.toList_append, ← Array.length_toList, List.drop_left]

namespace Evaluation

/-- The errors of trees that are evaluated one after the other, those of each tree apart. -/
def findings : List ParseTree → Action (List (List SemanticError))
  | [] => return []
  | tree :: rest => do
    let found ← (attributes tree {}).reported
    let others ← findings rest
    return found :: others

/-- The errors that the definitions of a tree find. -/
def errorsOf (tree : ParseTree) : List (List SemanticError) :=
  ((findings tree.definitions).run .start).1

end Evaluation

namespace Program

/-- The errors of each definition, which meets the symbols that those in front leave. -/
def findings (symbols : Symbols) : Program → List (List SemanticError)
  | [] => []
  | definition :: rest => definition.faults symbols :: findings (definition.after symbols) rest

theorem flatten_findings (program : Program) (symbols : Symbols) :
    (program.findings symbols).flatten = program.faults symbols := by
  induction program generalizing symbols with
  | nil => rfl
  | cons definition rest ih => rw [findings, List.flatten_cons, ih, faults, faults, faultsAll]

theorem length_findings (program : Program) (symbols : Symbols) : (program.findings symbols).length = program.length := by
  induction program generalizing symbols with
  | nil => rfl
  | cons definition rest ih => rw [findings, List.length_cons, ih, List.length_cons]

theorem findings_append (before after : Program) (symbols : Symbols) :
    findings symbols (before ++ after) = findings symbols before ++ findings (before.after symbols) after := by
  induction before generalizing symbols with
  | nil => rfl
  | cons definition rest ih =>
    rw [List.cons_append, findings, findings, ih, List.cons_append]
    rfl

theorem length_segments (program : Program) (names : Names) : (program.segments names).length = program.length := by
  induction program generalizing names with
  | nil => rfl
  | cons definition rest ih => rw [segments, List.length_cons, ih, List.length_cons]

theorem getElem?_segments (program : Program) (names : Names) (place : Nat) :
    (program.segments names)[place]? = program[place]?.map (·.code (Program.names names (program.take place))) := by
  induction program generalizing names place with
  | nil => rfl
  | cons definition rest ih =>
    cases place with
    | zero => rfl
    | succ place => exact ih _ place

theorem segments_append (before after : Program) (names : Names) :
    segments names (before ++ after) = segments names before ++ segments (Program.names names before) after := by
  induction before generalizing names with
  | nil => rfl
  | cons definition rest ih =>
    rw [List.cons_append, segments, segments, ih, List.cons_append]
    rfl

theorem names_append (before after : Program) (names : Names) :
    Program.names names (before ++ after) = Program.names (Program.names names before) after := by
  induction before generalizing names with
  | nil => rfl
  | cons definition rest ih => exact ih _

/-- A program uses up as many names wherever it stands. -/
theorem names_apart (program : Program) (names names' : Names) :
    ((Program.names names' program).temporaries : Int) =
        (Program.names names program).temporaries + (names'.temporaries - names.temporaries) ∧
      ((Program.names names' program).labels : Int) =
        (Program.names names program).labels + (names'.labels - names.labels) := by
  induction program generalizing names names' with
  | nil => exact ⟨by simp [Program.names], by simp [Program.names]⟩
  | cons definition rest ih =>
    obtain ⟨temporaries, labels⟩ := ih (definition.names names) (definition.names names')
    rw [Program.names, Program.names, temporaries, labels]
    obtain ⟨declarator, length | ⟨params, locals, body⟩⟩ := definition
    · exact ⟨rfl, rfl⟩
    · simp only [Definition.names, Names.advance]
      omega

end Program

namespace Evaluation

theorem run_definition {tree : ParseTree} (defines : tree.Defines) (progress : Progress) :
    (attributes tree {}).run progress = (.ofCode ((Definition.ofTree tree).code progress.names),
      ⟨(Definition.ofTree tree).after progress.symbols, (Definition.ofTree tree).names progress.names,
        progress.errors ++ ((Definition.ofTree tree).faults progress.symbols).toArray⟩) := by
  have found : (attributes tree {}).run progress =
      (.ofCode (((Definition.ofTree tree).form.elaborate (some (Definition.ofTree tree).declarator)).run progress).1,
        (((Definition.ofTree tree).form.elaborate (some (Definition.ofTree tree).declarator)).run progress).2) := by
    rw [Phrase.attributes_ofTree tree defines.conforming, defines.signed]
    rfl
  rw [found, Definition.run_elaborate]

theorem run_findings {trees : List ParseTree} (each : ∀ tree ∈ trees, tree.Defines) (progress : Progress) :
    ((findings trees).run progress).1 = Program.findings progress.symbols (trees.map Definition.ofTree) := by
  induction trees generalizing progress with
  | nil => rfl
  | cons tree rest ih =>
    obtain ⟨here, later⟩ := List.forall_mem_cons.mp each
    rw [findings, run_bind, run_reported (run_definition here progress) rfl, run_bind]
    change _ :: ((findings rest).run _).1 = _
    rw [ih later]
    rfl

/-- What trees leave that are evaluated one after the other. -/
theorem left_by_contributions {trees : List ParseTree} (each : ∀ tree ∈ trees, tree.Defines) (progress : Progress) :
    ((contributions trees).run progress).2.symbols =
        Program.after progress.symbols (trees.map Definition.ofTree) ∧
      ((contributions trees).run progress).2.names = Program.names progress.names (trees.map Definition.ofTree) := by
  induction trees generalizing progress with
  | nil => exact ⟨rfl, rfl⟩
  | cons tree rest ih =>
    obtain ⟨here, later⟩ := List.forall_mem_cons.mp each
    rw [contributions, run_bind, run_definition here, run_bind]
    exact ih later _

section Whole
variable {tree : ParseTree} (conforming : tree.conforms Language.grammar = true)
  (rooted : tree.sign = .nonTerminal .program)
include conforming rooted

theorem errorsOf_eq : errorsOf tree = Program.findings .empty (Program.ofTree tree) := by
  rw [Program.ofTree_eq_map conforming rooted]
  exact run_findings (Tree.defines_of_mem conforming) .start

/-- The errors of a program are those that its definitions find, in their order. -/
theorem errors_eq_flatten_errorsOf : (ofTree tree).errors = (errorsOf tree).flatten := by
  rw [errorsOf_eq conforming rooted, Program.flatten_findings, ofTree_eq_program conforming rooted]

end Whole

end Evaluation

/-! Programs that differ in a body. -/

namespace Definition

/-- What the body of a function declares goes into the function's own table. -/
theorem alike_bodies (symbols : Symbols) (declarator : Declarator) (params : List Parameter)
    (locals locals' : List Declaration) :
    Symbols.AlikeBut symbols.locals.size (bodySymbols symbols declarator params locals)
      (bodySymbols symbols declarator params locals') := by
  have same := same_bodySymbols symbols declarator params
  refine ⟨(same locals).symm.trans (same locals'), ?_⟩
  rw [(same locals).size, Symbols.openFunction_eq_mk, Array.size_push]
  exact Nat.lt_succ_self _

theorem size_after (symbols : Symbols) (definition : Definition) :
    (definition.after symbols).locals.size = symbols.locals.size + definition.functionName?.toList.length := by
  obtain ⟨declarator, length | ⟨params, locals, body⟩⟩ := definition
  · exact ((Declaration.enters_stated .global ⟨declarator, length⟩).same symbols).size
  · refine (same_bodySymbols symbols declarator params locals).size.trans ?_
    rw [Symbols.openFunction_eq_mk, Array.size_push]
    rfl

end Definition

namespace Program

/-- There is a table for each function, whether its name is new or not. -/
theorem size_after (program : Program) (symbols : Symbols) :
    (program.after symbols).locals.size =
      symbols.locals.size + (program.filterMap Definition.functionName?).length := by
  induction program generalizing symbols with
  | nil => rfl
  | cons definition rest ih =>
    change (Program.after (definition.after symbols) rest).locals.size = _
    rw [ih, definition.size_after, List.filterMap_cons]
    cases definition.functionName? with
    | none => rfl
    | some name =>
      simp only [Option.toList_some, List.length_cons, List.length_nil]
      omega

/-- Two bodies of one function, with the same program around them. -/
theorem alike_after (before after : Program) (declarator : Declarator) (params : List Parameter)
    (locals locals' : List Declaration) (body body' : Statement) :
    Symbols.AlikeBut (before.after .empty).locals.size
      (Program.after .empty (before ++ ⟨declarator, .function params locals body⟩ :: after))
      (Program.after .empty (before ++ ⟨declarator, .function params locals' body'⟩ :: after)) := by
  have alike := Definition.alike_bodies (before.after .empty) declarator params locals locals'
  have behind (definition : Definition) : Program.after .empty (before ++ definition :: after) =
      after.foldl Definition.after (definition.after (before.after .empty)) := List.foldl_append
  rw [behind, behind]
  exact (Ignores.row (fun definition (_ : definition ∈ after) => definition.ignores _) alike).1

theorem findings_alike {number : Nat} {symbols symbols' : Symbols} (alike : Symbols.AlikeBut number symbols symbols')
    (program : Program) : program.findings symbols' = program.findings symbols := by
  induction program generalizing symbols symbols' with
  | nil => rfl
  | cons definition rest ih =>
    obtain ⟨next, same⟩ := definition.ignores number alike
    rw [findings, findings, same, ih next]

end Program

namespace Tree

/-- The text of an identifier or a number. -/
def Writes (tree : ParseTree) (text : String) : Prop :=
  ∃ label ∈ tree.leafLabels, (label.sign = .terminal .ident ∨ label.sign = .terminal .num) ∧ label.lexeme.getD "" = text

/-- The number of the table for the function at a place: tables are numbered in the order of the functions. -/
def tableAt (tree : ParseTree) (place : Nat) : Nat :=
  ((tree.definitions.take place).filterMap functionName?).length

/-- The definitions in front of a place. -/
theorem definitions_front {tree : ParseTree} (conforming : tree.conforms Language.grammar = true)
    (rooted : tree.sign = .nonTerminal .program) {before after : Program}
    (split : Program.ofTree tree = before ++ after) :
    (tree.definitions.take before.length).map Definition.ofTree = before ∧
      ∀ definition ∈ tree.definitions.take before.length, definition.Defines := by
  rw [Program.ofTree_eq_map conforming rooted] at split
  constructor
  · rw [List.map_take, split, List.take_left]
  · intro definition member
    exact defines_of_mem conforming definition (List.mem_of_mem_take member)

end Tree

namespace Evaluation

/-- The errors of the signature of a function: those that are reported when the function is entered, with its
parameters, behind the definitions in front. -/
def signatureErrors (tree : ParseTree) (place : Nat) : List SemanticError :=
  match tree.definitions[place]?.map Definition.ofTree with
  | some ⟨declarator, .function params _ _⟩ =>
    ((enterFunction (some declarator) params).reported.run
      ((contributions (tree.definitions.take place)).run .start).2).1
  | _ => []

/-- The code of a definition alone, with so many names handed out in front of it. -/
def codeFrom (definition : ParseTree) (names : Names) : List Instruction :=
  ((attributes definition {}).run { Progress.start with names := names }).1.code

/-- The names that are handed out in front of the definition at a place. -/
def namesBefore (tree : ParseTree) (place : Nat) : Names :=
  ((contributions (tree.definitions.take place)).run .start).2.names

/-- Evaluations that agree in all that lies outside the code-block of the function at a place. A definition behind it
has one template for its code, filled in with numbers that differ by the same in all these definitions. -/
structure SameOutside (place : Nat) (tree tree' : ParseTree) : Prop where
  global : (ofTree tree').symbols.global = (ofTree tree).symbols.global
  functions : (ofTree tree').symbols.functions = (ofTree tree).symbols.functions
  size : (ofTree tree').symbols.locals.size = (ofTree tree).symbols.locals.size
  tables : ∀ number, number ≠ tree.tableAt place →
    (ofTree tree').symbols.locals[number]? = (ofTree tree).symbols.locals[number]?
  errors : (ofTree tree).errors = (errorsOf tree).flatten ∧ (ofTree tree').errors = (errorsOf tree').flatten
  otherErrors : ∀ other, other ≠ place → (errorsOf tree')[other]? = (errorsOf tree)[other]?
  ownErrors : ∃ inside inside', (errorsOf tree)[place]? = some (signatureErrors tree place ++ inside) ∧
    (errorsOf tree')[place]? = some (signatureErrors tree place ++ inside')
  code : (ofTree tree).code = (segments tree).flatten ∧ (ofTree tree').code = (segments tree').flatten
  earlierCode : ∀ other, other < place → (segments tree')[other]? = (segments tree)[other]?
  laterCode : ∃ temporaries labels : Int, ∀ other definition, place < other →
    tree.definitions[other]? = some definition →
      Template.Code definition.Writes (codeFrom definition) ∧
        (segments tree)[other]? = some (codeFrom definition (namesBefore tree other)) ∧
        (segments tree')[other]? = some (codeFrom definition (namesBefore tree' other)) ∧
        ((namesBefore tree' other).temporaries : Int) = (namesBefore tree other).temporaries + temporaries ∧
        ((namesBefore tree' other).labels : Int) = (namesBefore tree other).labels + labels

theorem signatureErrors_eq {tree : ParseTree} (conforming : tree.conforms Language.grammar = true)
    (rooted : tree.sign = .nonTerminal .program) {before after : Program} {declarator : Declarator}
    {params : List Parameter} {locals : List Declaration} {body : Statement}
    (split : Program.ofTree tree = before ++ ⟨declarator, .function params locals body⟩ :: after) :
    signatureErrors tree before.length =
      (before.after .empty).functionFaults declarator params ++
        faultsAll (Parameter.after (.local (before.after .empty).locals.size))
          (Parameter.faults (.local (before.after .empty).locals.size))
          ((before.after .empty).openFunction declarator params) params := by
  have here : tree.definitions[before.length]?.map Definition.ofTree =
      some ⟨declarator, .function params locals body⟩ := by
    rw [← List.getElem?_map, ← Program.ofTree_eq_map conforming rooted, split, getElem?_middle]
  obtain ⟨front, each⟩ := Tree.definitions_front conforming rooted split
  have symbols := (left_by_contributions each .start).1
  rw [front] at symbols
  rw [signatureErrors, here]
  dsimp only
  rw [run_reported (run_enterFunction declarator params _) rfl, symbols]
  rfl

/-- The errors in front of a function, its own, which start with those of its signature, and those behind it. -/
theorem errorsOf_split {tree : ParseTree} (conforming : tree.conforms Language.grammar = true)
    (rooted : tree.sign = .nonTerminal .program) {before after : Program} {declarator : Declarator}
    {params : List Parameter} {locals : List Declaration} {body : Statement}
    (split : Program.ofTree tree = before ++ ⟨declarator, .function params locals body⟩ :: after) :
    ∃ inside, errorsOf tree = before.findings .empty ++ (signatureErrors tree before.length ++ inside) ::
      after.findings (Definition.bodySymbols (before.after .empty) declarator params locals) := by
  rw [errorsOf_eq conforming rooted, signatureErrors_eq conforming rooted split, split, Program.findings_append,
    Program.findings, Definition.faults]
  simp only [List.append_assoc]
  exact ⟨_, rfl⟩

/-- The code in front of a function, its own, and that of the definitions behind it, with the names left to them. -/
theorem segments_split {tree : ParseTree} (conforming : tree.conforms Language.grammar = true)
    (rooted : tree.sign = .nonTerminal .program) {before after : Program} {definition : Definition}
    (split : Program.ofTree tree = before ++ definition :: after) :
    segments tree = before.segments .fresh ++ definition.code (before.names .fresh) ::
      after.segments (definition.names (before.names .fresh)) := by
  rw [segments_eq conforming rooted, split, Program.segments_append, Program.segments]

end Evaluation

theorem Tree.tableAt_eq {tree : ParseTree} (conforming : tree.conforms Language.grammar = true)
    (rooted : tree.sign = .nonTerminal .program) {before after : Program}
    (split : Program.ofTree tree = before ++ after) :
    tree.tableAt before.length = (before.after .empty).locals.size := by
  obtain ⟨front, each⟩ := definitions_front conforming rooted split
  have names : before.filterMap Definition.functionName? =
      (tree.definitions.take before.length).filterMap functionName? := by
    nth_rewrite 1 [← front]
    rw [List.filterMap_map]
    apply List.filterMap_congr
    intro definition member
    exact (functionName?_eq (each definition member).conforming (each definition member).signed).symm
  rw [tableAt, ← names, before.size_after]
  exact (Nat.zero_add _).symm

/-- The names and literals of a definition are among its tokens. -/
theorem Definition.spelled_writes {definition : ParseTree} (defines : definition.Defines) :
    (Definition.ofTree definition).Spelled (Template.vocabulary definition.Writes) := by
  have leaves : ∀ label ∈ definition.leafLabels,
      Phrase.Spelled (Template.vocabulary definition.Writes) { lexeme := label.lexeme.getD "" } label.sign := by
    intro label member
    have terminal : label.sign.isTerminal = true := (List.mem_filter.mp member).2
    cases signed : label.sign with
    | terminal kind =>
      cases kind
      case ident => exact ⟨label, member, .inl signed, rfl⟩
      case num => exact ⟨label, member, .inr signed, rfl⟩
      all_goals trivial
    | _ =>
      rw [signed] at terminal
      cases terminal
  have spelled := Phrase.spelled_ofTree definition defines.conforming leaves
  rw [defines.signed] at spelled
  exact spelled

namespace Evaluation

theorem codeFrom_eq {definition : ParseTree} (defines : definition.Defines) :
    codeFrom definition = (Definition.ofTree definition).code := by
  funext names
  rw [codeFrom, run_definition defines]
  rfl

theorem namesBefore_eq {tree : ParseTree} (conforming : tree.conforms Language.grammar = true)
    (rooted : tree.sign = .nonTerminal .program) {before after : Program} {own : Definition}
    (split : Program.ofTree tree = before ++ own :: after) (more : Nat) :
    namesBefore tree (before.length + more + 1) =
      Program.names (own.names (before.names .fresh)) (after.take more) := by
  have each : ∀ definition ∈ tree.definitions.take (before.length + more + 1), definition.Defines :=
    fun definition member => Tree.defines_of_mem conforming definition (List.mem_of_mem_take member)
  have front : (tree.definitions.take (before.length + more + 1)).map Definition.ofTree =
      before ++ own :: after.take more := by
    rw [List.map_take, ← Program.ofTree_eq_map conforming rooted, split, Nat.add_assoc, List.take_length_add_append]
    rfl
  rw [namesBefore, (left_by_contributions each .start).2, front, Program.names_append]
  rfl

theorem getElem?_segments_behind {tree : ParseTree} (conforming : tree.conforms Language.grammar = true)
    (rooted : tree.sign = .nonTerminal .program) {before after : Program} {own : Definition}
    (split : Program.ofTree tree = before ++ own :: after) {more : Nat} {definition : ParseTree}
    (defines : definition.Defines) (item : after[more]? = some (Definition.ofTree definition)) :
    (segments tree)[before.length + more + 1]? =
      some (codeFrom definition (namesBefore tree (before.length + more + 1))) := by
  rw [namesBefore_eq conforming rooted split, segments_split conforming rooted split, ← before.length_segments .fresh,
    getElem?_behind_middle, Program.getElem?_segments, item, codeFrom_eq defines]
  rfl

/-- Behind two definitions at one place, a definition has one template, filled in from where its names start. -/
theorem segments_behind {tree tree' : ParseTree} (conforming : tree.conforms Language.grammar = true)
    (rooted : tree.sign = .nonTerminal .program) (conforming' : tree'.conforms Language.grammar = true)
    (rooted' : tree'.sign = .nonTerminal .program) {before after : Program} {own own' : Definition}
    (split : Program.ofTree tree = before ++ own :: after) (split' : Program.ofTree tree' = before ++ own' :: after) :
    ∃ temporaries labels : Int, ∀ other definition, before.length < other →
      tree.definitions[other]? = some definition →
        Template.Code definition.Writes (codeFrom definition) ∧
          (segments tree)[other]? = some (codeFrom definition (namesBefore tree other)) ∧
          (segments tree')[other]? = some (codeFrom definition (namesBefore tree' other)) ∧
          ((namesBefore tree' other).temporaries : Int) = (namesBefore tree other).temporaries + temporaries ∧
          ((namesBefore tree' other).labels : Int) = (namesBefore tree other).labels + labels := by
  refine ⟨(own'.names (before.names .fresh)).temporaries - (own.names (before.names .fresh)).temporaries,
    (own'.names (before.names .fresh)).labels - (own.names (before.names .fresh)).labels, ?_⟩
  intro other definition late present
  obtain ⟨more, rfl⟩ := Nat.exists_eq_add_of_lt late
  have item : after[more]? = some (Definition.ofTree definition) := by
    have listed := congrArg (Option.map Definition.ofTree) present
    rwa [← List.getElem?_map, ← Program.ofTree_eq_map conforming rooted, split, getElem?_behind_middle] at listed
  have defines := Tree.defines_of_mem conforming definition (List.mem_of_getElem? present)
  refine ⟨?_, getElem?_segments_behind conforming rooted split defines item,
    getElem?_segments_behind conforming' rooted' split' defines item, ?_⟩
  · rw [codeFrom_eq defines]
    exact Definition.template (Definition.spelled_writes defines)
  · rw [namesBefore_eq conforming rooted split, namesBefore_eq conforming' rooted' split']
    exact Program.names_apart _ _ _

end Evaluation

theorem parseTokens_ok {tokens : List (Token Terminal)} {tree : ParseTree} (parsed : parseTokens tokens = .ok tree) :
    tree.conforms Language.grammar = true ∧ tree.sign = .nonTerminal .program := by
  obtain ⟨rooted, conforming, _⟩ := Language.parse_tree (Language.parseTokens_eq_ok.mp parsed)
  exact ⟨conforming, rooted⟩

/-- What stands in the code-block of a function matters to nothing outside it: token lists that are parsed and differ
there only, with the same tokens in front of it and behind it, are evaluated alike outside it. -/
theorem body_affects_own_function_only {front block block' back : List (Token Terminal)} {tree tree' : ParseTree}
    {place place' : Nat} (parsed : parseTokens (front ++ block ++ back) = .ok tree)
    (parsed' : parseTokens (front ++ block' ++ back) = .ok tree')
    (around : tree.outside? place = some (front.map (Token.label NonTerminal), back.map (Token.label NonTerminal)))
    (around' : tree'.outside? place' = some (front.map (Token.label NonTerminal), back.map (Token.label NonTerminal))) :
    place' = place ∧ Evaluation.SameOutside place tree tree' := by
  obtain ⟨conforming, rooted⟩ := parseTokens_ok parsed
  obtain ⟨conforming', rooted'⟩ := parseTokens_ok parsed'
  obtain ⟨before, after, declarator, params, locals, locals', body, body', rfl, placed, split, split'⟩ :=
    Program.ofTree_outside conforming rooted conforming' rooted' around around'
  have symbols : Symbols.AlikeBut (tree.tableAt before.length) (Evaluation.ofTree tree).symbols
      (Evaluation.ofTree tree').symbols := by
    rw [Evaluation.ofTree_eq_program conforming rooted, Evaluation.ofTree_eq_program conforming' rooted', split, split',
      Tree.tableAt_eq conforming rooted split]
    exact Program.alike_after before after declarator params locals locals' body body'
  obtain ⟨inside, found⟩ := Evaluation.errorsOf_split conforming rooted split
  obtain ⟨inside', found'⟩ := Evaluation.errorsOf_split conforming' rooted' split'
  have signature : Evaluation.signatureErrors tree' before.length = Evaluation.signatureErrors tree before.length := by
    rw [Evaluation.signatureErrors_eq conforming' rooted' split', Evaluation.signatureErrors_eq conforming rooted split]
  have later := Program.findings_alike (Definition.alike_bodies (before.after .empty) declarator params locals locals')
    after
  rw [later, signature] at found'
  have length := before.length_findings .empty
  refine ⟨placed, symbols.global, symbols.functions, symbols.size, ?_, ?_, ?_, ?_, ?_, ?_, ?_⟩
  · intro number other
    exact symbols.tables (.local number) (by simpa using other)
  · exact ⟨Evaluation.errors_eq_flatten_errorsOf conforming rooted,
      Evaluation.errors_eq_flatten_errorsOf conforming' rooted'⟩
  · intro other different
    rw [found, found']
    rw [← length] at different
    exact getElem?_of_ne_middle _ _ _ different
  · refine ⟨inside, inside', ?_, ?_⟩
    · rw [found, ← length, getElem?_middle]
    · rw [found', ← length, getElem?_middle]
  · exact ⟨Evaluation.code_eq_flatten_segments conforming rooted,
      Evaluation.code_eq_flatten_segments conforming' rooted'⟩
  · intro other early
    rw [← before.length_segments .fresh] at early
    rw [Evaluation.segments_split conforming rooted split, Evaluation.segments_split conforming' rooted' split',
      List.getElem?_append_left early, List.getElem?_append_left early]
  · exact Evaluation.segments_behind conforming rooted conforming' rooted' split split'

def tokensOf (text : String) : List (Token Terminal) :=
  (tokenize text).toOption.getD []

/-- A global variable and the heading of a function. -/
def frontTokens : List (Token Terminal) := tokensOf "int g; void f()"

/-- A body that uses the variable, with a temporary. -/
def usingTokens : List (Token Terminal) := tokensOf "\x7b g = g + 1; \x7d"

/-- A body that hides the variable, with block labels. -/
def hidingTokens : List (Token Terminal) := tokensOf "\x7b int g; while (g) ; \x7d"

/-- A function that uses the variable, with both, and whose parameter is named like a temporary. -/
def backTokens : List (Token Terminal) := tokensOf "int h(int _v1) \x7b while (_v1) g = g * _v1; \x7d"

theorem body_affects_own_function_only_hiding :
    ∃ tree tree', parseTokens (frontTokens ++ usingTokens ++ backTokens) = .ok tree ∧
      parseTokens (frontTokens ++ hidingTokens ++ backTokens) = .ok tree' ∧ usingTokens ≠ hidingTokens ∧
      Evaluation.SameOutside 1 tree tree' := by
  have passes : ∀ block ∈ [usingTokens, hidingTokens], (Preview.parser 300).passes (fun tree => tree.outside? 1 =
      some (frontTokens.map (Token.label NonTerminal), backTokens.map (Token.label NonTerminal)))
      (frontTokens ++ block ++ backTokens) = true := by
    decide +kernel
  obtain ⟨tree, parsed, around⟩ := Preview.parseTokens_of_passes (passes usingTokens (by simp))
  obtain ⟨tree', parsed', around'⟩ := Preview.parseTokens_of_passes (passes hidingTokens (by simp))
  exact ⟨tree, tree', parsed, parsed', by decide +kernel,
    (body_affects_own_function_only parsed parsed' (decide_eq_true_eq.mp around) (decide_eq_true_eq.mp around')).2⟩

end Minuscule
