import Minuscule.Attribute

/-!
Declarations. A variable is entered in the table of its scope; a function is entered among the
functions, and its parameters in a new table, right before its body is evaluated, so that the body may
call it. What cannot be entered is reported and left out.
-/

namespace Minuscule.Action

/-- Declares a variable in a scope; a scope without a table takes no declarations. -/
def enter (scope : Scope) (subject : Occurrence) (kind : VariableKind) : Action Unit := do
  match (← get).symbols.declare? scope subject.name kind with
  | none => pure ()
  | some (answer, symbols) =>
    modify fun progress => { progress with symbols := symbols }
    match answer with
    | .ok _ => pure ()
    | .error (.taken _) => report (.redefinition subject.name) subject.line
    | .error (.tooLarge _) => report (.storageOverflow subject.name) subject.line

/-- Declares what a declarator and the brackets behind it describe. -/
def declareVariable (scope : Scope) (declarator : Declarator) (follow : Attributes) :
    Action Unit :=
  let subject := declarator.subject
  if declarator.type = .void then report (.voidVariable subject.name) subject.line
  else if follow.isArray then
    match follow.length with
    | some length => enter scope subject (.array length)
    | none => report (.invalidArrayLength subject.name follow.lexeme) subject.line
  else enter scope subject .scalar

/-- Declares a parameter; whatever keeps it out, the report is that of a name declared twice. -/
def enterParameter (scope : Scope) (parameter : Parameter) : Action Unit := do
  match (← get).symbols.declare? scope parameter.subject.name parameter.kind with
  | none => pure ()
  | some (answer, symbols) =>
    modify fun progress => { progress with symbols := symbols }
    match answer with
    | .ok _ => pure ()
    | .error _ => report (.redefinition parameter.subject.name) parameter.subject.line

def defineFunction (declarator : Declarator) (params : List Parameter) (locals : Nat) :
    Action Unit := do
  let function : Function :=
    ⟨declarator.subject.name, declarator.type, params.map Parameter.kind, locals⟩
  let (answer, symbols) := (← get).symbols.define function
  modify fun progress => { progress with symbols := symbols }
  match answer with
  | .ok () => pure ()
  | .error _ => report (.functionRedefinition function.name) declarator.subject.line

/-- Opens the scope of a function body. The body of a function without a declarator has a scope too,
but nothing is declared for it. -/
def enterFunction (declarator : Option Declarator) (params : List Parameter) : Action Scope := do
  let locals ← modifyGet fun progress =>
    let (number, symbols) := progress.symbols.newLocals
    (number, { progress with symbols := symbols })
  match declarator with
  | none => pure ()
  | some declarator =>
    defineFunction declarator params locals
    params.forM (enterParameter (.local locals))
  return .local locals

end Minuscule.Action
