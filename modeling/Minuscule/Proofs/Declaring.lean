import Minuscule.Proofs.Emission

/-!
What declarations do to the symbols and which errors they report, and from that what the elaboration of a whole
program leaves. Declarations hand out no names and emit no code.
-/

namespace Minuscule

open Minuscule.Action

namespace Progress

/-- The same names handed out, with other symbols and with these errors behind the others. -/
def declare (progress : Progress) (symbols : Symbols) (faults : List SemanticError) : Progress :=
  ⟨symbols, progress.names, progress.errors ++ faults.toArray⟩

theorem declare_self (progress : Progress) : progress.declare progress.symbols [] = progress := by
  simp [declare]

theorem declare_quiet (progress : Progress) (symbols : Symbols) :
    progress.declare symbols [] = { progress with symbols := symbols } := by
  simp [declare]

theorem declare_declare (progress : Progress) (symbols symbols' : Symbols) (faults faults' : List SemanticError) :
    (progress.declare symbols faults).declare symbols' faults' = progress.declare symbols' (faults ++ faults') := by
  simp [declare]

end Progress

section Rows
variable {α : Type} (after : Symbols → α → Symbols) (faults : Symbols → α → List SemanticError)

/-- The errors of a row of declarations, each of which meets the symbols that the ones before it leave. -/
def faultsAll (symbols : Symbols) : List α → List SemanticError
  | [] => []
  | item :: rest => faults symbols item ++ faultsAll (after symbols item) rest

theorem faultsAll_append (symbols : Symbols) (front back : List α) :
    faultsAll after faults symbols (front ++ back) =
      faultsAll after faults symbols front ++ faultsAll after faults (front.foldl after symbols) back := by
  induction front generalizing symbols with
  | nil => rfl
  | cons item rest ih => rw [List.cons_append, faultsAll, faultsAll, ih, List.append_assoc, List.foldl_cons]

theorem run_forM {action : α → Action Unit}
    (each : ∀ item progress, (action item).run progress =
      ((), progress.declare (after progress.symbols item) (faults progress.symbols item)))
    (items : List α) (progress : Progress) :
    (items.forM action).run progress =
      ((), progress.declare (items.foldl after progress.symbols) (faultsAll after faults progress.symbols items)) := by
  induction items generalizing progress with
  | nil => exact Prod.ext rfl progress.declare_self.symm
  | cons item rest ih =>
    change (action item >>= fun _ => rest.forM action).run progress = _
    rw [run_bind, each, ih, Progress.declare_declare]
    rfl

end Rows

theorem run_report_declare (cause : Cause) (line : Nat) (progress : Progress) :
    (report cause line).run progress = ((), progress.declare progress.symbols [⟨cause, line⟩]) :=
  run_report cause line progress

namespace Symbols

/-- The symbols after a declaration, whatever its answer. -/
def enter (symbols : Symbols) (scope : Scope) (name : String) (kind : VariableKind) : Symbols :=
  match symbols.declare? scope name kind with
  | some (_, symbols) => symbols
  | none => symbols

def entryFaults (symbols : Symbols) (scope : Scope) (subject : Occurrence) (kind : VariableKind) :
    List SemanticError :=
  match symbols.declare? scope subject.name kind with
  | some (.error (.taken _), _) => [⟨.redefinition subject.name, subject.line⟩]
  | some (.error (.tooLarge _), _) => [⟨.storageOverflow subject.name, subject.line⟩]
  | _ => []

/-- The entry of a function whose body has the next table. -/
def functionOf (symbols : Symbols) (declarator : Declarator) (params : List Parameter) : Function :=
  ⟨declarator.subject.name, declarator.type, params.map Parameter.kind, symbols.locals.size⟩

/-- The symbols with a new table, and with a function if its name is not taken. -/
def openFunction (symbols : Symbols) (declarator : Declarator) (params : List Parameter) : Symbols :=
  (symbols.newLocals.2.define (symbols.functionOf declarator params)).2

theorem openFunction_eq_mk (symbols : Symbols) (declarator : Declarator) (params : List Parameter) :
    symbols.openFunction declarator params =
      ⟨symbols.global,
        if symbols.functions.contains declarator.subject.name then symbols.functions
        else symbols.functions.append declarator.subject.name (symbols.functionOf declarator params),
        symbols.locals.push .empty⟩ := by
  have same : symbols.newLocals.2.functions.contains (symbols.functionOf declarator params).name =
      symbols.functions.contains declarator.subject.name := rfl
  rw [openFunction, define, same]
  by_cases taken : symbols.functions.contains declarator.subject.name = true
  · rw [if_pos taken, if_pos taken]
    rfl
  · rw [if_neg taken, if_neg taken]
    rfl

def functionFaults (symbols : Symbols) (declarator : Declarator) (params : List Parameter) : List SemanticError :=
  match (symbols.newLocals.2.define (symbols.functionOf declarator params)).1 with
  | .ok () => []
  | .error _ => [⟨.functionRedefinition declarator.subject.name, declarator.subject.line⟩]

theorem functionFaults_eq_ite (symbols : Symbols) (declarator : Declarator) (params : List Parameter) :
    symbols.functionFaults declarator params =
      if symbols.functions.contains declarator.subject.name then
        [⟨.functionRedefinition declarator.subject.name, declarator.subject.line⟩]
      else [] := by
  have same : symbols.newLocals.2.functions.contains (symbols.functionOf declarator params).name =
      symbols.functions.contains declarator.subject.name := rfl
  rw [functionFaults, define, same]
  by_cases taken : symbols.functions.contains declarator.subject.name = true
  · rw [if_pos taken, if_pos taken]
  · rw [if_neg taken, if_neg taken]

theorem functionFaults_eq_nil_iff {symbols : Symbols} {declarator : Declarator} {params : List Parameter} :
    symbols.functionFaults declarator params = [] ↔ symbols.functions.contains declarator.subject.name = false := by
  rw [functionFaults_eq_ite]
  split <;> simp_all

end Symbols

namespace Parameter

def after (scope : Scope) (symbols : Symbols) (parameter : Parameter) : Symbols :=
  symbols.enter scope parameter.subject.name parameter.kind

def faults (scope : Scope) (symbols : Symbols) (parameter : Parameter) : List SemanticError :=
  match symbols.declare? scope parameter.subject.name parameter.kind with
  | some (.error _, _) => [⟨.redefinition parameter.subject.name, parameter.subject.line⟩]
  | _ => []

end Parameter

theorem run_enter (scope : Scope) (subject : Occurrence) (kind : VariableKind) (progress : Progress) :
    (enter scope subject kind).run progress =
      ((), progress.declare (progress.symbols.enter scope subject.name kind)
        (progress.symbols.entryFaults scope subject kind)) := by
  rw [Action.enter, run_bind, run_get]
  rcases answer : progress.symbols.declare? scope subject.name kind with
    _ | ⟨⟨_ | _⟩ | offset, symbols⟩ <;> simp only [Symbols.enter, Symbols.entryFaults, answer]
  · exact Prod.ext rfl progress.declare_self.symm
  · exact run_report_declare _ _ { progress with symbols := symbols }
  · exact run_report_declare _ _ { progress with symbols := symbols }
  · exact Prod.ext rfl (progress.declare_quiet symbols).symm

theorem run_enterParameter (scope : Scope) (parameter : Parameter) (progress : Progress) :
    (enterParameter scope parameter).run progress =
      ((), progress.declare (parameter.after scope progress.symbols) (parameter.faults scope progress.symbols)) := by
  rw [enterParameter, run_bind, run_get]
  rcases answer : progress.symbols.declare? scope parameter.subject.name parameter.kind with
    _ | ⟨reason | offset, symbols⟩ <;> simp only [Parameter.after, Symbols.enter, Parameter.faults, answer]
  · exact Prod.ext rfl progress.declare_self.symm
  · exact run_report_declare _ _ { progress with symbols := symbols }
  · exact Prod.ext rfl (progress.declare_quiet symbols).symm

theorem run_defineFunction (declarator : Declarator) (params : List Parameter) (symbols : Symbols)
    (progress : Progress) :
    (defineFunction declarator params symbols.locals.size).run { progress with symbols := symbols.newLocals.2 } =
      ((), progress.declare (symbols.openFunction declarator params) (symbols.functionFaults declarator params)) := by
  rw [defineFunction, run_bind, run_get]
  unfold Symbols.openFunction Symbols.functionFaults Symbols.functionOf
  rcases symbols.newLocals.2.define
    ⟨declarator.subject.name, declarator.type, params.map Parameter.kind, symbols.locals.size⟩ with
    ⟨reason | _, defined⟩
  · exact run_report_declare _ _ { progress with symbols := defined }
  · exact Prod.ext rfl (progress.declare_quiet defined).symm

theorem run_enterFunction (declarator : Declarator) (params : List Parameter) (progress : Progress) :
    (enterFunction (some declarator) params).run progress =
      let scope : Scope := .local progress.symbols.locals.size
      let opened := progress.symbols.openFunction declarator params
      (scope, progress.declare (params.foldl (Parameter.after scope) opened)
        (progress.symbols.functionFaults declarator params ++
          faultsAll (Parameter.after scope) (Parameter.faults scope) opened params)) := by
  let scope : Scope := .local progress.symbols.locals.size
  change ((defineFunction declarator params progress.symbols.locals.size >>= fun _ =>
    params.forM (enterParameter scope)) >>= fun _ => pure scope).run
      { progress with symbols := progress.symbols.newLocals.2 } = _
  rw [run_bind, run_bind, run_defineFunction, run_forM _ _ (run_enterParameter scope), Progress.declare_declare]
  rfl

namespace Declaration

/-- What a declaration declares, if its length is a number. -/
def kind? (declaration : Declaration) : Option VariableKind :=
  declaration.length.elim (some .scalar) fun text => (Numeral.unsigned? text).map .array

def after (scope : Scope) (symbols : Symbols) (declaration : Declaration) : Symbols :=
  if declaration.declarator.type = .void then symbols
  else match declaration.kind? with
    | some kind => symbols.enter scope declaration.declarator.subject.name kind
    | none => symbols

def faults (scope : Scope) (symbols : Symbols) (declaration : Declaration) : List SemanticError :=
  let subject := declaration.declarator.subject
  if declaration.declarator.type = .void then [⟨.voidVariable subject.name, subject.line⟩]
  else match declaration.kind? with
    | some kind => symbols.entryFaults scope subject kind
    | none => [⟨.invalidArrayLength subject.name (declaration.length.getD ""), subject.line⟩]

theorem run_elaborate (scope : Scope) (declaration : Declaration) (progress : Progress) :
    (declaration.elaborate scope).run progress =
      ((), progress.declare (declaration.after scope progress.symbols)
        (declaration.faults scope progress.symbols)) := by
  obtain ⟨declarator, length⟩ := declaration
  unfold elaborate declareVariable after faults
  split
  · exact run_report_declare _ _ progress
  · rcases length with _ | text
    · exact run_enter scope declarator.subject .scalar progress
    · rcases number : Numeral.unsigned? text with _ | length
      · simp only [Attributes.ofLength, kind?, Option.elim_some, number, Option.map_none, if_true]
        exact run_report_declare _ _ progress
      · simp only [Attributes.ofLength, kind?, Option.elim_some, number, Option.map_some, if_true]
        exact run_enter scope declarator.subject (.array length) progress

end Declaration

namespace Definition

/-- The symbols in which the body of a function is looked at. -/
def bodySymbols (symbols : Symbols) (declarator : Declarator) (params : List Parameter) (locals : List Declaration) :
    Symbols :=
  let scope : Scope := .local symbols.locals.size
  locals.foldl (Declaration.after scope) (params.foldl (Parameter.after scope) (symbols.openFunction declarator params))

def after (symbols : Symbols) : Definition → Symbols
  | ⟨declarator, .datum length⟩ => Declaration.after .global symbols ⟨declarator, length⟩
  | ⟨declarator, .function params locals _⟩ => bodySymbols symbols declarator params locals

def faults (symbols : Symbols) : Definition → List SemanticError
  | ⟨declarator, .datum length⟩ => Declaration.faults .global symbols ⟨declarator, length⟩
  | ⟨declarator, .function params locals body⟩ =>
    let scope : Scope := .local symbols.locals.size
    let opened := symbols.openFunction declarator params
    symbols.functionFaults declarator params ++
      faultsAll (Parameter.after scope) (Parameter.faults scope) opened params ++
      faultsAll (Declaration.after scope) (Declaration.faults scope) (params.foldl (Parameter.after scope) opened)
        locals ++
      body.faults (bodySymbols symbols declarator params locals) scope

def code (names : Names) : Definition → List Instruction
  | ⟨_, .datum _⟩ => []
  | ⟨declarator, .function _ _ body⟩ => .label declarator.subject.name :: body.code names

def names (names : Names) : Definition → Names
  | ⟨_, .datum _⟩ => names
  | ⟨_, .function _ _ body⟩ => names.advance body.temporaries body.labels

theorem run_elaborate (definition : Definition) (progress : Progress) :
    (definition.form.elaborate (some definition.declarator)).run progress =
      (definition.code progress.names,
        ⟨definition.after progress.symbols, definition.names progress.names,
          progress.errors ++ (definition.faults progress.symbols).toArray⟩) := by
  obtain ⟨declarator, _ | ⟨params, locals, body⟩⟩ := definition
  · rw [Form.elaborate, run_bind]
    change ([], (Declaration.elaborate .global ⟨declarator, _⟩ |>.run progress).2) = _
    rw [Declaration.run_elaborate]
    rfl
  · rw [Form.elaborate, run_bind, run_enterFunction, run_bind,
      run_forM _ _ (Declaration.run_elaborate _), run_bind, Statement.run_elaborate, Progress.declare_declare]
    simp only [Progress.advance, Progress.declare, Array.append_assoc, List.append_toArray]
    rfl

end Definition

namespace Program

def after (symbols : Symbols) (program : Program) : Symbols :=
  program.foldl Definition.after symbols

def faults (symbols : Symbols) (program : Program) : List SemanticError :=
  faultsAll Definition.after Definition.faults symbols program

def code (names : Names) : Program → List Instruction
  | [] => []
  | definition :: rest => definition.code names ++ code (definition.names names) rest

def names (names : Names) : Program → Names
  | [] => names
  | definition :: rest => Program.names (definition.names names) rest

theorem run_elaborate (program : Program) (progress : Progress) :
    program.elaborate.run progress =
      (program.code progress.names,
        ⟨program.after progress.symbols, program.names progress.names,
          progress.errors ++ (program.faults progress.symbols).toArray⟩) := by
  induction program generalizing progress with
  | nil => exact Prod.ext rfl progress.declare_self.symm
  | cons definition rest ih =>
    rw [elaborate, run_bind, Definition.run_elaborate, run_bind, ih]
    simp only [faults, faultsAll, Array.append_assoc, List.append_toArray]
    rfl

end Program

/-- The evaluation of a program's tree, from the program. -/
theorem Evaluation.ofTree_eq_program {tree : ParseTree} (conforming : tree.conforms Language.grammar = true)
    (rooted : tree.sign = .nonTerminal .program) :
    Evaluation.ofTree tree =
      ⟨(Program.ofTree tree).code .fresh, (Program.ofTree tree).faults .empty, (Program.ofTree tree).after .empty,
        (Program.ofTree tree).names .fresh⟩ := by
  have walked := Walk.run_visit conforming {} .start
  have elaborated : (Evaluation.attributes tree {}).run .start =
      (.ofCode ((Program.ofTree tree).elaborate.run .start).1, ((Program.ofTree tree).elaborate.run .start).2) := by
    rw [Phrase.attributes_ofTree tree conforming, rooted]
    rfl
  rw [elaborated, Program.run_elaborate] at walked
  have whole : Evaluation.ofTree tree = ⟨_, _, _, _⟩ :=
    congrArg (fun result : Attributes × Progress =>
      (⟨result.1.code, result.2.errors.toList, result.2.symbols, result.2.names⟩ : Evaluation)) walked
  rw [whole]
  simp [Attributes.ofCode, Progress.start]

end Minuscule
