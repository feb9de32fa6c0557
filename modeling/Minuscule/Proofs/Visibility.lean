import Minuscule.Proofs.Records

/-!
What a definition can see. A definition finds the functions, the global variables and what it has declared itself; the
table of an earlier function is closed to it. Whatever such a table holds, the definition reports the same errors, and
what it leaves behind differs in that table only.
-/

namespace Minuscule

namespace Symbols

/-- The symbols differ in one table at most, which has been opened. -/
structure AlikeBut (number : Nat) (symbols symbols' : Symbols) : Prop
    extends SameBut (.local number) symbols symbols' where
  inside : number < symbols.locals.size

theorem SameBut.symm {scope : Scope} {before after : Symbols} (same : SameBut scope before after) :
    SameBut scope after before :=
  ⟨same.functions.symm, same.size.symm, fun other different => (same.tables other different).symm⟩

/-- What an entry makes of the table of its scope. -/
theorem table?_enter (symbols : Symbols) (scope : Scope) (name : String) (kind : VariableKind) :
    (symbols.enter scope name kind).table? scope =
      (symbols.table? scope).map fun table => (table.declare name kind).2 := by
  unfold enter declare?
  rcases present : symbols.table? scope with _ | table
  · exact present
  · exact table?_setTable present _

section Alike
variable {number : Nat} {symbols symbols' : Symbols} (alike : AlikeBut number symbols symbols')
include alike

theorem AlikeBut.global : symbols'.global = symbols.global :=
  Option.some.inj (alike.tables .global (by simp))

theorem AlikeBut.function? (name : String) : symbols'.function? name = symbols.function? name := by
  rw [Symbols.function?, alike.functions]
  rfl

theorem AlikeBut.functionOf (declarator : Declarator) (params : List Parameter) :
    symbols'.functionOf declarator params = symbols.functionOf declarator params := by
  rw [Symbols.functionOf, alike.size]
  rfl

section Scope
variable {scope : Scope} (other : scope ≠ .local number)
include other

theorem AlikeBut.resolve? (name : String) : symbols'.resolve? scope name = symbols.resolve? scope name := by
  have global := alike.global
  rcases scope with _ | table
  · rw [Symbols.resolve?, global]
    rfl
  · have own : symbols'.locals[table]? = symbols.locals[table]? := alike.tables (.local table) other
    simp only [Symbols.resolve?, global, own]

theorem AlikeBut.enter (name : String) (kind : VariableKind) :
    AlikeBut number (symbols.enter scope name kind) (symbols'.enter scope name kind) := by
  have here := symbols.sameBut_enter scope name kind
  have there := symbols'.sameBut_enter scope name kind
  refine ⟨⟨?_, ?_, ?_⟩, ?_⟩
  · rw [there.functions, alike.functions, here.functions]
  · rw [there.size, alike.size, here.size]
  · intro wanted different
    by_cases same : wanted = scope
    · rw [same, table?_enter, table?_enter, alike.tables scope other]
    · rw [there.tables wanted same, alike.tables wanted different, here.tables wanted same]
  · rw [here.size]
    exact alike.inside

theorem AlikeBut.entryFaults (subject : Occurrence) (kind : VariableKind) :
    symbols'.entryFaults scope subject kind = symbols.entryFaults scope subject kind := by
  unfold Symbols.entryFaults declare?
  rw [alike.tables scope other]
  rcases symbols.table? scope with _ | table
  · rfl
  · simp only [Option.map_some]
    rcases table.declare subject.name kind with ⟨⟨_ | _⟩ | _, _⟩ <;> rfl

theorem AlikeBut.parameterFaults (parameter : Parameter) :
    parameter.faults scope symbols' = parameter.faults scope symbols := by
  unfold Parameter.faults declare?
  rw [alike.tables scope other]
  rcases symbols.table? scope with _ | table
  · rfl
  · simp only [Option.map_some]
    rcases table.declare parameter.subject.name parameter.kind with ⟨_ | _, _⟩ <;> rfl

end Scope

theorem AlikeBut.openFunction (declarator : Declarator) (params : List Parameter) :
    AlikeBut number (symbols.openFunction declarator params) (symbols'.openFunction declarator params) := by
  rw [openFunction_eq_mk, openFunction_eq_mk, alike.functionOf, alike.functions, alike.global]
  refine ⟨⟨rfl, ?_, ?_⟩, ?_⟩
  · rw [Array.size_push, Array.size_push, alike.size]
  · intro wanted different
    rcases wanted with _ | table
    · rfl
    · have own : symbols'.locals[table]? = symbols.locals[table]? := alike.tables (.local table) different
      rw [table?, table?, Array.getElem?_push, Array.getElem?_push, alike.size, own]
  · rw [Array.size_push]
    exact Nat.lt_succ_of_lt alike.inside

theorem AlikeBut.functionFaults (declarator : Declarator) (params : List Parameter) :
    symbols'.functionFaults declarator params = symbols.functionFaults declarator params := by
  rw [functionFaults_eq_ite, functionFaults_eq_ite, alike.functions]

end Alike

end Symbols

/-! Expressions and statements. -/

section Faults
variable {symbols symbols' : Symbols} {scope : Scope}
  (resolves : ∀ name, symbols'.resolve? scope name = symbols.resolve? scope name)
  (calls : ∀ name, symbols'.function? name = symbols.function? name)

section Uses
include resolves

theorem Symbols.variableFaults_congr (use : Occurrence) :
    symbols'.variableFaults scope use = symbols.variableFaults scope use := by
  rw [variableFaults, resolves, variableFaults]

theorem Symbols.elementFaults_congr (use : Occurrence) (constant : Option Int) :
    symbols'.elementFaults scope use constant = symbols.elementFaults scope use constant := by
  rw [elementFaults, resolves, elementFaults]

end Uses

include calls in
theorem Symbols.callFaults_congr (callee : Occurrence) (count : Nat) :
    symbols'.callFaults callee count = symbols.callFaults callee count := by
  rw [callFaults, calls, callFaults]

mutual

theorem Expression.faults_congr
    (resolves : ∀ name, symbols'.resolve? scope name = symbols.resolve? scope name)
    (calls : ∀ name, symbols'.function? name = symbols.function? name) :
    ∀ expression : Expression, expression.faults symbols' scope = expression.faults symbols scope
  | .number _ => rfl
  | .scalar use => Symbols.variableFaults_congr resolves use
  | .element use index => by
    rw [Expression.faults, Expression.faults, Expression.faults_congr resolves calls index,
      Symbols.elementFaults_congr resolves]
  | .call callee arguments => by
    rw [Expression.faults, Expression.faults, Arguments.faults_congr resolves calls arguments,
      Symbols.callFaults_congr calls]
  | .chain head links => by
    rw [Expression.faults, Expression.faults, Expression.faults_congr resolves calls head,
      Links.faults_congr resolves calls links]

theorem Links.faults_congr
    (resolves : ∀ name, symbols'.resolve? scope name = symbols.resolve? scope name)
    (calls : ∀ name, symbols'.function? name = symbols.function? name) :
    ∀ links : Links, links.faults symbols' scope = links.faults symbols scope
  | .nil => rfl
  | .cons _ operand rest => by
    rw [Links.faults, Links.faults, Expression.faults_congr resolves calls operand,
      Links.faults_congr resolves calls rest]

theorem Arguments.faults_congr
    (resolves : ∀ name, symbols'.resolve? scope name = symbols.resolve? scope name)
    (calls : ∀ name, symbols'.function? name = symbols.function? name) :
    ∀ arguments : Arguments, arguments.faults symbols' scope = arguments.faults symbols scope
  | .nil => rfl
  | .cons first rest => by
    rw [Arguments.faults, Arguments.faults, Expression.faults_congr resolves calls first,
      Arguments.faults_congr resolves calls rest]

end

include resolves calls in
theorem Statement.faults_congr (statement : Statement) :
    statement.faults symbols' scope = statement.faults symbols scope := by
  induction statement with
  | skip => rfl
  | seq first rest ihFirst ihRest => rw [faults, faults, ihFirst, ihRest]
  | assign target value =>
    rw [faults, faults, value.faults_congr resolves calls, Symbols.variableFaults_congr resolves]
  | store target index value =>
    rw [faults, faults, index.faults_congr resolves calls, value.faults_congr resolves calls,
      Symbols.elementFaults_congr resolves]
  | call callee arguments =>
    rw [faults, faults, arguments.faults_congr resolves calls, Symbols.callFaults_congr calls]
  | select test consequent alternative ihConsequent ihAlternative =>
    rw [faults, faults, test.faults_congr resolves calls, ihConsequent, ihAlternative]
  | loop test body ih => rw [faults, faults, test.faults_congr resolves calls, ih]
  | ret value =>
    cases value with
    | none => rfl
    | some value => exact value.faults_congr resolves calls

end Faults

/-! Declarations and definitions. -/

/-- An item that takes no notice of a table: where symbols are alike but for the table, it finds the same errors in both
and leaves both alike. -/
def Ignores {α : Type} (number : Nat) (after : Symbols → α → Symbols) (faults : Symbols → α → List SemanticError)
    (item : α) : Prop :=
  ∀ {symbols symbols' : Symbols}, Symbols.AlikeBut number symbols symbols' →
    Symbols.AlikeBut number (after symbols item) (after symbols' item) ∧ faults symbols' item = faults symbols item

theorem Ignores.row {α : Type} {number : Nat} {after : Symbols → α → Symbols}
    {faults : Symbols → α → List SemanticError} {items : List α}
    (each : ∀ item ∈ items, Ignores number after faults item) {symbols symbols' : Symbols}
    (alike : Symbols.AlikeBut number symbols symbols') :
    Symbols.AlikeBut number (items.foldl after symbols) (items.foldl after symbols') ∧
      faultsAll after faults symbols' items = faultsAll after faults symbols items := by
  induction items generalizing symbols symbols' with
  | nil => exact ⟨alike, rfl⟩
  | cons item rest ih =>
    obtain ⟨here, later⟩ := List.forall_mem_cons.mp each
    obtain ⟨next, same⟩ := here alike
    obtain ⟨last, others⟩ := ih later next
    exact ⟨last, by rw [faultsAll, faultsAll, same, others]⟩

section Items
variable {number : Nat} {scope : Scope} (other : scope ≠ .local number)
include other

theorem Parameter.ignores (parameter : Parameter) :
    Ignores number (Parameter.after scope) (Parameter.faults scope) parameter :=
  fun alike => ⟨alike.enter other _ _, alike.parameterFaults other parameter⟩

theorem Declaration.ignores (declaration : Declaration) :
    Ignores number (Declaration.after scope) (Declaration.faults scope) declaration := by
  intro symbols symbols' alike
  unfold Declaration.after Declaration.faults
  split
  · exact ⟨alike, rfl⟩
  · split
    · exact ⟨alike.enter other _ _, alike.entryFaults other _ _⟩
    · exact ⟨alike, rfl⟩

end Items

/-- The table of the definition is the next one, and a table that is closed to it has been opened before. -/
theorem Definition.ignores (number : Nat) (definition : Definition) :
    Ignores number Definition.after Definition.faults definition := by
  intro symbols symbols' alike
  obtain ⟨declarator, length | ⟨params, locals, body⟩⟩ := definition
  · exact Declaration.ignores (by simp) ⟨declarator, length⟩ alike
  · have own : Scope.local symbols.locals.size ≠ .local number := by
      intro same
      cases same
      exact Nat.lt_irrefl _ alike.inside
    obtain ⟨entered, first⟩ := Ignores.row (fun parameter (_ : parameter ∈ params) => Parameter.ignores own parameter)
      (alike.openFunction declarator params)
    obtain ⟨declared, second⟩ := Ignores.row
      (fun declaration (_ : declaration ∈ locals) => Declaration.ignores own declaration) entered
    have third := body.faults_congr (declared.resolve? own) declared.function?
    simp only [Definition.after, Definition.faults, Definition.bodySymbols, alike.size]
    exact ⟨declared, by rw [alike.functionFaults, first, second, third]⟩

end Minuscule
