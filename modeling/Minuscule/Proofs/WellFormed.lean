import Minuscule.Proofs.Descent
import Minuscule.Proofs.Tables

/-!
The static rules of C-minus, and that the compiler checks them exactly. The rules speak of the definitions of a
program and of what stands in front of each of them; they know no tables and no order of checks. A source that parses
is compiled exactly when its program keeps the rules.
-/

namespace Minuscule

/-- What a function body can see: its own variables, the global variables and functions in front of it, and itself.
Functions go with the number of their parameters. -/
structure Environment where
  locals : List (String × VariableKind)
  globals : List (String × VariableKind)
  functions : List (String × Nat)

namespace Environment

/-- A variable of the function comes before a global one. -/
def kind? (environment : Environment) (name : String) : Option VariableKind :=
  environment.locals.lookup name <|> environment.globals.lookup name

/-- The name is that of an array, and a literal subscript is smaller than a declared length. -/
def Subscript (environment : Environment) (name : String) (index : Expression) : Prop :=
  ∃ kind, environment.kind? name = some kind ∧ kind.isArray = true ∧
    ∀ literal length, index.literal? = some literal → kind.length? = some length →
      Numeral.value literal.toList < length

/-- The name is that of a function with so many parameters. -/
def Callable (environment : Environment) (name : String) (arguments : Arguments) : Prop :=
  environment.functions.lookup name = some arguments.length

end Environment

mutual

def Expression.Legal (environment : Environment) : Expression → Prop
  | .number _ => True
  | .scalar use => (environment.kind? use.name).isSome = true
  | .element use index => index.Legal environment ∧ environment.Subscript use.name index
  | .call callee arguments => arguments.Legal environment ∧ environment.Callable callee.name arguments
  | .chain head links => head.Legal environment ∧ links.Legal environment

def Links.Legal (environment : Environment) : Links → Prop
  | .nil => True
  | .cons _ operand rest => operand.Legal environment ∧ rest.Legal environment

def Arguments.Legal (environment : Environment) : Arguments → Prop
  | .nil => True
  | .cons first rest => first.Legal environment ∧ rest.Legal environment

end

def Statement.Legal (environment : Environment) : Statement → Prop
  | .skip | .ret none => True
  | .seq first rest => first.Legal environment ∧ rest.Legal environment
  | .assign target value => value.Legal environment ∧ (environment.kind? target.name).isSome = true
  | .store target index value =>
    index.Legal environment ∧ value.Legal environment ∧ environment.Subscript target.name index
  | .call callee arguments => arguments.Legal environment ∧ environment.Callable callee.name arguments
  | .select test consequent alternative =>
    test.Legal environment ∧ consequent.Legal environment ∧ alternative.Legal environment
  | .loop test body => test.Legal environment ∧ body.Legal environment
  | .ret (some value) => value.Legal environment

def Parameter.entry (parameter : Parameter) : String × VariableKind :=
  (parameter.subject.name, parameter.kind)

namespace Declaration

def kind (declaration : Declaration) : VariableKind :=
  declaration.length.elim .scalar fun text => .array (Numeral.value text.toList)

def entry (declaration : Declaration) : String × VariableKind :=
  (declaration.declarator.subject.name, declaration.kind)

end Declaration

namespace Definition

/-- The variables that a definition declares, at its own level or inside a body. -/
def declarations : Definition → List Declaration
  | ⟨declarator, .datum length⟩ => [⟨declarator, length⟩]
  | ⟨_, .function _ locals _⟩ => locals

def globals : Definition → List (String × VariableKind)
  | ⟨declarator, .datum length⟩ => [Declaration.entry ⟨declarator, length⟩]
  | ⟨_, .function ..⟩ => []

def functions : Definition → List (String × Nat)
  | ⟨_, .datum _⟩ => []
  | ⟨declarator, .function params _ _⟩ => [(declarator.subject.name, params.length)]

/-- The parameters and local variables of a function. -/
def locals : Definition → List (String × VariableKind)
  | ⟨_, .datum _⟩ => []
  | ⟨_, .function params locals _⟩ => params.map Parameter.entry ++ locals.map Declaration.entry

def body : Definition → Statement
  | ⟨_, .datum _⟩ => .skip
  | ⟨_, .function _ _ body⟩ => body

end Definition

namespace Program

def globals (program : Program) : List (String × VariableKind) :=
  program.flatMap Definition.globals

def functions (program : Program) : List (String × Nat) :=
  program.flatMap Definition.functions

/-- The rules that a program has to keep. -/
structure WellFormed (program : Program) : Prop where
  /-- No variable is void. -/
  typed : ∀ definition ∈ program, ∀ declaration ∈ definition.declarations, declaration.declarator.type ≠ .void
  /-- Names are distinct among the global variables, among the functions and inside each function. -/
  globalNames : (program.globals.map Prod.fst).Nodup
  functionNames : (program.functions.map Prod.fst).Nodup
  localNames : ∀ definition ∈ program, (definition.locals.map Prod.fst).Nodup
  /-- The variables of each scope find room in its storage. -/
  globalStorage : storage program.globals ≤ storageMax
  localStorage : ∀ definition ∈ program, storage definition.locals ≤ storageMax
  /-- A body uses its own variables, and the variables and functions in front of it or itself, as what they are. -/
  uses : ∀ before definition after, program = before ++ definition :: after →
    definition.body.Legal ⟨definition.locals, globals before, functions (before ++ [definition])⟩

end Program

/-- The functions and their numbers of parameters are these, and are found by their names. -/
structure Symbols.Knows (symbols : Symbols) (functions : List (String × Nat)) : Prop where
  listed : symbols.functions.entries.map (fun function => (function.name, function.params.length)) = functions
  indexed : symbols.functions.Indexed Function.name

theorem Symbols.Knows.contains_iff {symbols : Symbols} {functions : List (String × Nat)}
    (knows : symbols.Knows functions) (name : String) :
    symbols.functions.contains name = true ↔ name ∈ functions.map Prod.fst := by
  rw [knows.indexed.contains_iff, ← knows.listed]
  simp

theorem Symbols.SameBut.knows {scope : Scope} {before after : Symbols} (same : SameBut scope before after)
    {functions : List (String × Nat)} (knows : before.Knows functions) : after.Knows functions := by
  obtain ⟨listed, indexed⟩ := knows
  rw [← same.functions] at listed indexed
  exact ⟨listed, indexed⟩

/-- The symbols show an environment from the inside of a function. -/
structure Symbols.Shows (symbols : Symbols) (number : Nat) (environment : Environment) : Prop where
  locals : symbols.Holds (.local number) environment.locals
  globals : symbols.Holds .global environment.globals
  functions : symbols.Knows environment.functions

/-- Literals are numerals that the lexer reads. -/
def Vocabulary.numerals : Vocabulary :=
  ⟨fun _ => True, fun text => Numeral.Small text.toList⟩

section Uses
variable {symbols : Symbols} {number : Nat} {environment : Environment} (shown : symbols.Shows number environment)
include shown

theorem Symbols.Shows.resolve? (name : String) :
    (symbols.resolve? (.local number) name).map Variable.kind = environment.kind? name := by
  obtain ⟨table, present, lists⟩ := shown.locals
  obtain ⟨_, ⟨⟩, globals⟩ := shown.globals
  rw [Environment.kind?, ← lists.find?, ← globals.find?]
  change ((symbols.locals[number]?.bind (·.find? name)) <|> symbols.global.find? name).map Variable.kind = _
  rw [show symbols.locals[number]? = some table from present, Option.bind_some]
  cases table.find? name <;> rfl

theorem Symbols.Shows.function? (name : String) :
    (symbols.function? name).map (fun function => function.params.length) = environment.functions.lookup name := by
  rw [← shown.functions.listed, lookup_map, Symbols.function?, shown.functions.indexed.find?_eq]

theorem Symbols.Shows.variableFaults_eq_nil (use : Occurrence) :
    symbols.variableFaults (.local number) use = [] ↔ (environment.kind? use.name).isSome = true := by
  rw [← shown.resolve? use.name, Symbols.variableFaults]
  cases symbols.resolve? (.local number) use.name <;> simp

theorem Symbols.Shows.callFaults_eq_nil (callee : Occurrence) (arguments : Arguments) :
    symbols.callFaults callee arguments.length = [] ↔ environment.Callable callee.name arguments := by
  rw [Environment.Callable, ← shown.function? callee.name, Symbols.callFaults]
  cases symbols.function? callee.name <;> simp

theorem Symbols.Shows.elementFaults_eq_nil (use : Occurrence) {index : Expression}
    (numeral : ∀ literal, index.literal? = some literal → Numeral.Small literal.toList) :
    symbols.elementFaults (.local number) use index.constant? = [] ↔ environment.Subscript use.name index := by
  rw [Environment.Subscript, ← shown.resolve? use.name, Symbols.elementFaults, Expression.constant?]
  rcases symbols.resolve? (.local number) use.name with _ | entry
  · simp
  rcases found : index.literal? with _ | literal
  · by_cases array : entry.kind.isArray = true <;> simp [array]
  · have constant := Numeral.signed?_of_small (numeral literal found)
    by_cases array : entry.kind.isArray = true
    · rcases length : entry.kind.length? with _ | length
      · simp [array, length]
      · simp [array, length, constant, Action.outOfBounds]
    · simp [array]

end Uses

theorem Expression.spelled_literal {words : Vocabulary} : ∀ (expression : Expression) {literal : String},
    expression.Spelled words → expression.literal? = some literal → words.literal literal
  | .number _, _, spelled, found => by
    cases found
    exact spelled
  | .chain head .nil, _, spelled, found => Expression.spelled_literal head spelled.1 found

section Legal
variable {symbols : Symbols} {number : Nat} {environment : Environment}

mutual

theorem Expression.faults_eq_nil (shown : symbols.Shows number environment) : ∀ {expression : Expression},
    expression.Spelled .numerals →
      (expression.faults symbols (.local number) = [] ↔ expression.Legal environment)
  | .number _, _ => by simp [Expression.faults, Expression.Legal]
  | .scalar use, _ => shown.variableFaults_eq_nil use
  | .element use index, spelled => by
    have inner := Expression.faults_eq_nil shown spelled.2
    have outer := shown.elementFaults_eq_nil use fun literal => Expression.spelled_literal index spelled.2
    rw [Expression.faults, List.append_eq_nil_iff, inner, outer, Expression.Legal]
  | .call callee arguments, spelled => by
    rw [Expression.faults, List.append_eq_nil_iff, Arguments.faults_eq_nil shown spelled.2,
      shown.callFaults_eq_nil callee arguments, Expression.Legal]
  | .chain head links, spelled => by
    rw [Expression.faults, List.append_eq_nil_iff, Expression.faults_eq_nil shown spelled.1,
      Links.faults_eq_nil shown spelled.2, Expression.Legal]

theorem Links.faults_eq_nil (shown : symbols.Shows number environment) : ∀ {links : Links},
    links.Spelled .numerals → (links.faults symbols (.local number) = [] ↔ links.Legal environment)
  | .nil, _ => by simp [Links.faults, Links.Legal]
  | .cons operator operand rest, spelled => by
    rw [Links.faults, List.append_eq_nil_iff, Expression.faults_eq_nil shown spelled.1,
      Links.faults_eq_nil shown spelled.2, Links.Legal]

theorem Arguments.faults_eq_nil (shown : symbols.Shows number environment) : ∀ {arguments : Arguments},
    arguments.Spelled .numerals → (arguments.faults symbols (.local number) = [] ↔ arguments.Legal environment)
  | .nil, _ => by simp [Arguments.faults, Arguments.Legal]
  | .cons first rest, spelled => by
    rw [Arguments.faults, List.append_eq_nil_iff, Expression.faults_eq_nil shown spelled.1,
      Arguments.faults_eq_nil shown spelled.2, Arguments.Legal]

end

theorem Statement.faults_eq_nil (shown : symbols.Shows number environment) {statement : Statement}
    (spelled : statement.Spelled .numerals) :
    statement.faults symbols (.local number) = [] ↔ statement.Legal environment := by
  induction statement with
  | skip => simp [faults, Legal]
  | seq first rest ihFirst ihRest =>
    rw [faults, List.append_eq_nil_iff, ihFirst spelled.1, ihRest spelled.2, Legal]
  | assign target value =>
    rw [faults, List.append_eq_nil_iff, Expression.faults_eq_nil shown spelled.2, shown.variableFaults_eq_nil target,
      Legal]
  | store target index value =>
    have element := shown.elementFaults_eq_nil target fun literal => Expression.spelled_literal index spelled.2.1
    rw [faults, List.append_eq_nil_iff, List.append_eq_nil_iff, Expression.faults_eq_nil shown spelled.2.1,
      Expression.faults_eq_nil shown spelled.2.2, element, Legal, and_assoc]
  | call callee arguments =>
    rw [faults, List.append_eq_nil_iff, Arguments.faults_eq_nil shown spelled.2,
      shown.callFaults_eq_nil callee arguments, Legal]
  | select test consequent alternative ihConsequent ihAlternative =>
    rw [faults, List.append_eq_nil_iff, List.append_eq_nil_iff, Expression.faults_eq_nil shown spelled.1,
      ihConsequent spelled.2.1, ihAlternative spelled.2.2, Legal, and_assoc]
  | loop test body ih =>
    rw [faults, List.append_eq_nil_iff, Expression.faults_eq_nil shown spelled.1, ih spelled.2, Legal]
  | ret value =>
    cases value with
    | none => simp [faults, Legal]
    | some value => rw [faults, Expression.faults_eq_nil shown spelled, Legal]

end Legal

theorem Parameter.enters (scope : Scope) (parameter : Parameter) :
    Enters scope (Parameter.after scope) (Parameter.faults scope) Parameter.entry (fun _ => True) parameter where
  check holds fits := by rw [true_and, holds.parameter_faults_eq_nil fits, entry]
  taken holds fits _ fitting := holds.enter fits fitting
  same symbols := symbols.sameBut_enter scope _ _

theorem Declaration.kind?_eq {declaration : Declaration}
    (spelled : ∀ text ∈ declaration.length, Numeral.Small text.toList) : declaration.kind? = some declaration.kind := by
  obtain ⟨declarator, _ | text⟩ := declaration
  · rfl
  · have read := Numeral.unsigned?_of_small (spelled text rfl)
    simp [kind?, kind, read]

theorem Declaration.enters (scope : Scope) {declaration : Declaration} (spelled : declaration.Spelled .numerals) :
    Enters scope (Declaration.after scope) (Declaration.faults scope) Declaration.entry
      (fun declaration => declaration.declarator.type ≠ .void) declaration where
  check holds fits := by
    have kind := kind?_eq spelled.2
    by_cases void : declaration.declarator.type = .void
    · simp [faults, void]
    · simp only [faults, void, if_false, kind, holds.entryFaults_eq_nil fits, entry, ne_eq, not_false_eq_true, true_and]
  taken holds fits admits fitting := by
    simp only [after, if_neg admits, kind?_eq spelled.2]
    exact holds.enter fits fitting
  same symbols := by
    unfold after
    split
    · exact .refl scope symbols
    · rw [kind?_eq spelled.2]
      exact symbols.sameBut_enter scope _ _

namespace Program

theorem globals_append (before after : Program) : globals (before ++ after) = globals before ++ globals after :=
  List.flatMap_append

theorem functions_append (before after : Program) :
    functions (before ++ after) = functions before ++ functions after :=
  List.flatMap_append

theorem globals_singleton (definition : Definition) : globals [definition] = definition.globals :=
  List.flatMap_singleton _ _

theorem functions_singleton (definition : Definition) : functions [definition] = definition.functions :=
  List.flatMap_singleton _ _

theorem wellFormed_nil : WellFormed [] where
  typed := by simp
  globalNames := List.nodup_nil
  functionNames := List.nodup_nil
  localNames := by simp
  globalStorage := Nat.zero_le _
  localStorage := by simp
  uses := by simp

/-- The rules for the first definitions do not depend on the others. -/
theorem WellFormed.of_append {before after : Program} (formed : WellFormed (before ++ after)) :
    WellFormed before where
  typed definition member := formed.typed definition (List.mem_append_left _ member)
  globalNames := by
    have names := formed.globalNames
    rw [globals_append, List.map_append] at names
    exact names.of_append_left
  functionNames := by
    have names := formed.functionNames
    rw [functions_append, List.map_append] at names
    exact names.of_append_left
  localNames definition member := formed.localNames definition (List.mem_append_left _ member)
  globalStorage := by
    have room := formed.globalStorage
    rw [globals_append, storage_append] at room
    omega
  localStorage definition member := formed.localStorage definition (List.mem_append_left _ member)
  uses front definition back split := by
    apply formed.uses front definition (back ++ after)
    rw [split, List.append_assoc]
    rfl

/-- The rules for one more definition. -/
structure Admits (before : Program) (definition : Definition) : Prop where
  typed : ∀ declaration ∈ definition.declarations, declaration.declarator.type ≠ .void
  globals : Fits (globals before ++ definition.globals)
  functions : ((functions before ++ definition.functions).map Prod.fst).Nodup
  locals : Fits definition.locals
  uses : definition.body.Legal
    ⟨definition.locals, Program.globals before, Program.functions before ++ definition.functions⟩

theorem wellFormed_concat {before : Program} (formed : WellFormed before) (definition : Definition) :
    WellFormed (before ++ [definition]) ↔ Admits before definition := by
  have last : definition ∈ before ++ [definition] := by simp
  constructor
  · intro whole
    refine ⟨whole.typed definition last, ⟨?_, ?_⟩, ?_, ⟨whole.localNames _ last, whole.localStorage _ last⟩, ?_⟩
    · have names := whole.globalNames
      rwa [globals_append, globals_singleton] at names
    · have room := whole.globalStorage
      rwa [globals_append, globals_singleton] at room
    · have names := whole.functionNames
      rwa [functions_append, functions_singleton] at names
    · have legal := whole.uses before definition [] rfl
      rwa [functions_append, functions_singleton] at legal
  · intro admits
    have each {P : Definition → Prop} (old : ∀ other ∈ before, P other) (new : P definition) :
        ∀ other ∈ before ++ [definition], P other := by
      intro other member
      rcases List.mem_append.mp member with early | late
      · exact old other early
      · rwa [List.mem_singleton.mp late]
    refine ⟨each formed.typed admits.typed, ?_, ?_, each formed.localNames admits.locals.distinct, ?_,
      each formed.localStorage admits.locals.storage, ?_⟩
    · rw [globals_append, globals_singleton]
      exact admits.globals.distinct
    · rw [functions_append, functions_singleton]
      exact admits.functions
    · rw [globals_append, globals_singleton]
      exact admits.globals.storage
    · intro front other back split
      rcases List.eq_nil_or_concat back with rfl | ⟨back, final, rfl⟩
      · obtain ⟨rfl, ⟨⟩⟩ := List.append_inj' split rfl
        rw [functions_append, functions_singleton]
        exact admits.uses
      · rw [List.concat_eq_append, ← List.cons_append, ← List.append_assoc] at split
        obtain ⟨rfl, _⟩ := List.append_inj' split rfl
        exact formed.uses front other back rfl

/-- The symbols hold the global variables and the functions of a program. -/
structure Shown (symbols : Symbols) (before : Program) : Prop where
  globals : symbols.Holds .global (globals before)
  functions : symbols.Knows (functions before)

theorem shown_empty : Shown .empty [] :=
  ⟨⟨.empty, rfl, VariableTable.lists_empty⟩, rfl, NameTable.indexed_empty⟩

section Step
variable {symbols : Symbols} {before : Program}

theorem Shown.functionFaults_eq_nil (shown : Shown symbols before) (declarator : Declarator)
    (params : List Parameter) :
    symbols.functionFaults declarator params = [] ↔
      declarator.subject.name ∉ (Program.functions before).map Prod.fst := by
  rw [← shown.functions.contains_iff, Symbols.functionFaults_eq_nil_iff, Bool.not_eq_true]

theorem openFunction_eq {declarator : Declarator} {params : List Parameter}
    (absent : symbols.functions.contains declarator.subject.name = false) :
    symbols.openFunction declarator params =
      ⟨symbols.global, symbols.functions.append declarator.subject.name (symbols.functionOf declarator params),
        symbols.locals.push .empty⟩ := by
  rw [Symbols.openFunction_eq_mk, absent]
  rfl

/-- A new function has a new table, and is known itself. -/
theorem Shown.shows_openFunction (shown : Shown symbols before) {declarator : Declarator} (params : List Parameter)
    (fresh : declarator.subject.name ∉ (Program.functions before).map Prod.fst) :
    (symbols.openFunction declarator params).Shows symbols.locals.size
      ⟨[], Program.globals before, Program.functions before ++ [(declarator.subject.name, params.length)]⟩ := by
  have absent := Symbols.functionFaults_eq_nil_iff.mp ((shown.functionFaults_eq_nil declarator params).mpr fresh)
  rw [openFunction_eq absent]
  obtain ⟨table, ⟨⟩, lists⟩ := shown.globals
  refine ⟨⟨.empty, ?_, VariableTable.lists_empty⟩, ⟨_, rfl, lists⟩, ?_, ?_⟩
  · simp [Symbols.table?]
  · simp only [NameTable.append]
    rw [List.map_append, shown.functions.listed]
    simp [Symbols.functionOf]
  · exact @NameTable.Indexed.append _ _ _ shown.functions.indexed (symbols.functionOf declarator params) absent

theorem shows_foldl {α : Type} {after : Symbols → α → Symbols} {faults : Symbols → α → List SemanticError}
    {entry : α → String × VariableKind} {admitted : α → Prop} {items : List α} {number : Nat}
    {locals globals : List (String × VariableKind)} {functions : List (String × Nat)}
    (each : ∀ item ∈ items, Enters (.local number) after faults entry admitted item)
    (shown : symbols.Shows number ⟨locals, globals, functions⟩) (fits : Fits locals)
    (all : ∀ item ∈ items, admitted item) (whole : Fits (locals ++ items.map entry)) :
    (items.foldl after symbols).Shows number ⟨locals ++ items.map entry, globals, functions⟩ := by
  have same := Enters.same_foldl each symbols
  exact ⟨Enters.holds_foldl each shown.locals fits all whole, same.holds (by simp) shown.globals,
    same.knows shown.functions⟩

theorem admits_function (formed : WellFormed before) (declarator : Declarator) (params : List Parameter)
    (locals : List Declaration) (body : Statement) :
    Admits before ⟨declarator, .function params locals body⟩ ↔
      declarator.subject.name ∉ (functions before).map Prod.fst ∧
      (∀ declaration ∈ locals, declaration.declarator.type ≠ .void) ∧
      Fits (params.map Parameter.entry ++ locals.map Declaration.entry) ∧
      body.Legal ⟨params.map Parameter.entry ++ locals.map Declaration.entry, globals before,
        functions before ++ [(declarator.subject.name, params.length)]⟩ := by
  have names : ((functions before ++ [(declarator.subject.name, params.length)]).map Prod.fst).Nodup ↔
      declarator.subject.name ∉ (functions before).map Prod.fst := by
    rw [List.map_append, List.map_singleton, List.nodup_append_comm, List.singleton_append, List.nodup_cons]
    exact and_iff_left formed.functionNames
  constructor
  · rintro ⟨typed, _, functions, locals, uses⟩
    exact ⟨names.mp functions, typed, locals, uses⟩
  · rintro ⟨fresh, typed, locals, uses⟩
    refine ⟨typed, ?_, names.mpr fresh, locals, uses⟩
    change Fits (globals before ++ [])
    rw [List.append_nil]
    exact ⟨formed.globalNames, formed.globalStorage⟩

theorem Shown.shows_body (shown : Shown symbols before) {declarator : Declarator} {params : List Parameter}
    {locals : List Declaration} (fresh : declarator.subject.name ∉ (Program.functions before).map Prod.fst)
    (spelled : ∀ declaration ∈ locals, declaration.Spelled .numerals)
    (typed : ∀ declaration ∈ locals, declaration.declarator.type ≠ .void)
    (fits : Fits (params.map Parameter.entry ++ locals.map Declaration.entry)) :
    (Definition.bodySymbols symbols declarator params locals).Shows symbols.locals.size
      ⟨params.map Parameter.entry ++ locals.map Declaration.entry, Program.globals before,
        Program.functions before ++ [(declarator.subject.name, params.length)]⟩ := by
  have inside := shows_foldl (fun parameter (_ : parameter ∈ params) => parameter.enters _)
    (shown.shows_openFunction params fresh) fits_nil (fun _ _ => trivial) fits.of_append
  exact shows_foldl (fun declaration member => Declaration.enters _ (spelled declaration member)) inside
    fits.of_append typed fits

/-- The declarations of a function are checked one row after the other, and its body in what they leave. -/
theorem Shown.function_faults_eq_nil (shown : Shown symbols before) (formed : WellFormed before)
    (declarator : Declarator) {params : List Parameter} {locals : List Declaration} {body : Statement}
    (spelled : Form.Spelled .numerals (.function params locals body)) :
    Definition.faults symbols ⟨declarator, .function params locals body⟩ = [] ↔
      Admits before ⟨declarator, .function params locals body⟩ := by
  obtain ⟨_, spelledLocals, spelledBody⟩ := spelled
  have enterParams := fun parameter (_ : parameter ∈ params) => Parameter.enters (.local symbols.locals.size) parameter
  have enterLocals := fun declaration member =>
    Declaration.enters (.local symbols.locals.size) (spelledLocals declaration member)
  simp only [Definition.faults, List.append_eq_nil_iff, and_assoc]
  rw [admits_function formed, shown.functionFaults_eq_nil]
  refine and_congr_right fun fresh => ?_
  have opened := shown.shows_openFunction params fresh
  rw [Enters.faultsAll_eq_nil enterParams opened.locals fits_nil]
  constructor
  · rintro ⟨⟨always, fitParams⟩, quietLocals, quietBody⟩
    have inside := shows_foldl enterParams opened fits_nil always fitParams
    obtain ⟨typed, fits⟩ := (Enters.faultsAll_eq_nil enterLocals inside.locals fitParams).mp quietLocals
    have seen := shows_foldl enterLocals inside fitParams typed fits
    exact ⟨typed, fits, (Statement.faults_eq_nil seen spelledBody).mp quietBody⟩
  · rintro ⟨typed, fits, legal⟩
    have always : ∀ parameter ∈ params, True := fun _ _ => trivial
    have fitParams := fits.of_append
    have inside := shows_foldl enterParams opened fits_nil always fitParams
    have seen := shown.shows_body fresh spelledLocals typed fits
    exact ⟨⟨always, fitParams⟩, (Enters.faultsAll_eq_nil enterLocals inside.locals fitParams).mpr ⟨typed, fits⟩,
      (Statement.faults_eq_nil seen spelledBody).mpr legal⟩

theorem Shown.datum_faults_eq_nil (shown : Shown symbols before) (formed : WellFormed before)
    {declarator : Declarator} {length : Option String}
    (spelled : Definition.Spelled .numerals ⟨declarator, .datum length⟩) :
    Definition.faults symbols ⟨declarator, .datum length⟩ = [] ↔ Admits before ⟨declarator, .datum length⟩ := by
  have fits : Fits (Program.globals before) := ⟨formed.globalNames, formed.globalStorage⟩
  have enters : Enters .global _ _ _ _ (⟨declarator, length⟩ : Declaration) := Declaration.enters .global spelled
  change Declaration.faults .global symbols ⟨declarator, length⟩ = [] ↔ _
  rw [enters.check shown.globals fits]
  constructor
  · rintro ⟨typed, globals⟩
    refine ⟨?_, globals, ?_, fits_nil, trivial⟩
    · intro declaration member
      rwa [List.mem_singleton.mp member]
    · change ((Program.functions before ++ []).map Prod.fst).Nodup
      rw [List.append_nil]
      exact formed.functionNames
  · intro admits
    exact ⟨admits.typed _ (List.mem_singleton_self _), admits.globals⟩

theorem Shown.faults_eq_nil (shown : Shown symbols before) (formed : WellFormed before) {definition : Definition}
    (spelled : definition.Spelled .numerals) :
    definition.faults symbols = [] ↔ WellFormed (before ++ [definition]) := by
  rw [wellFormed_concat formed]
  obtain ⟨declarator, _ | ⟨params, locals, body⟩⟩ := definition
  · exact shown.datum_faults_eq_nil formed spelled
  · exact shown.function_faults_eq_nil formed declarator spelled.2

theorem shown_concat {definition : Definition}
    (globals : symbols.Holds .global (Program.globals before ++ definition.globals))
    (functions : symbols.Knows (Program.functions before ++ definition.functions)) :
    Shown symbols (before ++ [definition]) := by
  rw [← globals_singleton, ← globals_append] at globals
  rw [← functions_singleton, ← functions_append] at functions
  exact ⟨globals, functions⟩

/-- The symbols go on showing the definitions as long as these keep the rules. -/
theorem Shown.after (shown : Shown symbols before) (formed : WellFormed before) {definition : Definition}
    (spelled : definition.Spelled .numerals) (admits : Admits before definition) :
    Shown (definition.after symbols) (before ++ [definition]) := by
  obtain ⟨declarator, length | ⟨params, locals, body⟩⟩ := definition
  · have enters : Enters .global _ _ _ _ (⟨declarator, length⟩ : Declaration) := Declaration.enters .global spelled
    have typed := admits.typed _ (List.mem_singleton_self _)
    refine shown_concat (enters.taken shown.globals ⟨formed.globalNames, formed.globalStorage⟩ typed admits.globals) ?_
    rw [show Definition.functions ⟨declarator, .datum length⟩ = [] from rfl, List.append_nil]
    exact (enters.same symbols).knows shown.functions
  · obtain ⟨fresh, typed, fits, _⟩ := (admits_function formed declarator params locals body).mp admits
    have seen := shown.shows_body fresh spelled.2.2.1 typed fits
    refine shown_concat ?_ seen.functions
    rw [show Definition.globals ⟨declarator, .function params locals body⟩ = [] from rfl, List.append_nil]
    exact seen.globals

end Step

/-- A program is elaborated without an error exactly when it keeps the rules. -/
theorem faults_eq_nil_iff {program : Program} (spelled : program.Spelled .numerals) :
    program.faults .empty = [] ↔ program.WellFormed := by
  suffices general : ∀ (before : Program) (symbols : Symbols), WellFormed before → Shown symbols before →
      (faultsAll Definition.after Definition.faults symbols program = [] ↔ WellFormed (before ++ program)) from
    general [] .empty wellFormed_nil shown_empty
  induction program with
  | nil =>
    intro before symbols formed _
    simp [faultsAll, formed]
  | cons definition rest ih =>
    intro before symbols formed shown
    obtain ⟨here, later⟩ := List.forall_mem_cons.mp spelled
    have first := shown.faults_eq_nil formed here
    have step : WellFormed (before ++ [definition]) →
        (faultsAll Definition.after Definition.faults (definition.after symbols) rest = [] ↔
          WellFormed (before ++ definition :: rest)) := by
      intro whole
      have next := ih later (before ++ [definition]) (definition.after symbols) whole
        (shown.after formed here ((wellFormed_concat formed definition).mp whole))
      rwa [← List.append_cons] at next
    rw [faultsAll, List.append_eq_nil_iff, first]
    constructor
    · rintro ⟨whole, quiet⟩
      exact (step whole).mp quiet
    · intro all
      have whole : WellFormed (before ++ [definition]) := by
        rw [List.append_cons] at all
        exact all.of_append
      exact ⟨whole, (step whole).mpr all⟩

end Program

/-! Sources. -/

theorem parseSource_ok {source : String} {tree : ParseTree} (parsed : parseSource source = .ok tree) :
    ∃ tokens, tokenize source = .ok tokens ∧ Language.parser.parse tokens = .ok tree := by
  rw [parseSource] at parsed
  rcases read : tokenize source with error | tokens <;> rw [read] at parsed
  · cases parsed
  · change parseTokens tokens = .ok tree at parsed
    exact ⟨tokens, rfl, Language.parseTokens_eq_ok.mp parsed⟩

theorem compile_of_parseSource {source : String} {tree : ParseTree} (parsed : parseSource source = .ok tree) :
    compile source = (Evaluation.ofTree tree).result := by
  obtain ⟨tokens, read, found⟩ := parseSource_ok parsed
  rw [compile, read]
  change (do let tree ← (Language.parser.parse tokens).mapError CompileError.syntactic
             (Evaluation.ofTree tree).result) = _
  rw [found]
  rfl

/-- A program that parses is compiled to its code unless it has faults. -/
theorem compile_eq_ok_iff {source : String} {tree : ParseTree} (parsed : parseSource source = .ok tree)
    (code : List Instruction) :
    compile source = .ok code ↔
      (Program.ofTree tree).faults .empty = [] ∧ code = (Program.ofTree tree).code .fresh := by
  obtain ⟨tokens, _, found⟩ := parseSource_ok parsed
  obtain ⟨rooted, conforming, _⟩ := Language.parse_tree found
  rw [compile_of_parseSource parsed, Evaluation.ofTree_eq_program conforming rooted, Evaluation.result, Evaluation.isOk]
  rcases (Program.ofTree tree).faults .empty with _ | ⟨fault, rest⟩
  · simp [eq_comm]
  · simp

theorem spelled_numerals {source : String} {tree : ParseTree} (parsed : parseSource source = .ok tree) :
    (Program.ofTree tree).Spelled .numerals := by
  obtain ⟨tokens, read, found⟩ := parseSource_ok parsed
  have spelled := spelled_tokenize read
  exact Program.spelled_of_parse found (fun _ _ _ => trivial) fun token member => (spelled token member).1

/-- A local array over a global one of the same name, and a loop. -/
def countdown : String :=
  "int a[3]; int count(int n) \x7b int a[2]; while (n > a[(1)]) n = n - 1 - a[0]; return n; \x7d"

theorem countdown_parses :
    ∃ tokens tree, tokenize countdown = .ok tokens ∧ parseSource countdown = .ok tree ∧
      (Program.ofTree tree).faults .empty = [] ∧ (∀ token ∈ tokens, token.lexeme.toList.head? ≠ some '_') ∧
        ∃ declarator params locals body, declarator.subject.name = "count" ∧
          ⟨declarator, .function params locals body⟩ ∈ Program.ofTree tree := by
  have passes : (Preview.descent 500).sourcePasses (fun tokens program =>
      (program.faults .empty).isEmpty && tokens.all (·.lexeme.toList.head? ≠ some '_') &&
        program.any fun definition =>
          match definition.form with
          | .function .. => definition.declarator.subject.name = "count"
          | .datum _ => false) countdown = true := by
    decide +kernel
  obtain ⟨tokens, tree, read, parsed, passes⟩ := Preview.parseSource_of_sourcePasses passes
  simp only [Bool.and_eq_true, List.isEmpty_iff, List.all_eq_true, List.any_eq_true, decide_eq_true_eq] at passes
  obtain ⟨⟨quiet, plain⟩, ⟨declarator, length | ⟨params, locals, body⟩⟩, member, named⟩ := passes
  · cases named
  · exact ⟨tokens, tree, read, parsed, quiet, plain, declarator, params, locals, body, decide_eq_true_eq.mp named,
      member⟩

/-- A source that parses is compiled exactly when its program keeps the static rules. -/
theorem compile_isOk_iff_wellFormed {source : String} {tree : ParseTree} (parsed : parseSource source = .ok tree) :
    (∃ code, compile source = .ok code) ↔ (Program.ofTree tree).WellFormed := by
  rw [← Program.faults_eq_nil_iff (spelled_numerals parsed)]
  simp [compile_eq_ok_iff parsed]

theorem countdown_wellFormed :
    ∃ tree, parseSource countdown = .ok tree ∧ (∃ code, compile countdown = .ok code) ∧
      (Program.ofTree tree).WellFormed := by
  obtain ⟨_, tree, _, parsed, quiet, _⟩ := countdown_parses
  have compiled := (compile_eq_ok_iff parsed _).mpr ⟨quiet, rfl⟩
  exact ⟨tree, parsed, ⟨_, compiled⟩, (compile_isOk_iff_wellFormed parsed).mp ⟨_, compiled⟩⟩

end Minuscule
