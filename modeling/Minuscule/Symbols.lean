import Minuscule.Variable

/-!
All that a program has declared: its global variables, its functions, and one table of parameters and
local variables for each function body, numbered in the order in which the bodies were entered.
Variables and functions are separate name spaces. A name inside a function is looked up among the
function's own variables first and then among the global ones.
-/

namespace Minuscule

structure Function where
  name : String
  result : BaseType
  params : List VariableKind
  /-- The number of the table of its parameters and local variables. -/
  locals : Nat
  deriving DecidableEq, Repr

inductive Scope where
  | global
  | local (table : Nat)
  deriving DecidableEq, Repr

structure Symbols where
  global : VariableTable
  functions : NameTable Function
  locals : Array VariableTable
  deriving DecidableEq, Repr

namespace Symbols

def empty : Symbols := ⟨.empty, .empty, #[]⟩

/-- Adds an empty table for a function body and gives its number. -/
def newLocals (symbols : Symbols) : Nat × Symbols :=
  (symbols.locals.size, { symbols with locals := symbols.locals.push .empty })

def table? (symbols : Symbols) : Scope → Option VariableTable
  | .global => some symbols.global
  | .local table => symbols.locals[table]?

def setTable (symbols : Symbols) (scope : Scope) (table : VariableTable) : Symbols :=
  match scope with
  | .global => { symbols with global := table }
  | .local number => { symbols with locals := symbols.locals.setIfInBounds number table }

/-- Declares a variable in a scope that has a table: the answer of the table, and the symbols from then on. -/
def declare? (symbols : Symbols) (scope : Scope) (name : String) (kind : VariableKind) :
    Option (Except DeclareError Nat × Symbols) :=
  (symbols.table? scope).map fun table =>
    let (answer, table) := table.declare name kind
    (answer, symbols.setTable scope table)

def resolve? (symbols : Symbols) (scope : Scope) (name : String) : Option Variable :=
  let inside := match scope with
    | .global => none
    | .local number => symbols.locals[number]?.bind (·.find? name)
  inside <|> symbols.global.find? name

def function? (symbols : Symbols) (name : String) : Option Function :=
  symbols.functions.find? name

/-- Function names are distinct. -/
def define (symbols : Symbols) (function : Function) : Except DeclareError Unit × Symbols :=
  if symbols.functions.contains function.name then (.error (.taken function.name), symbols)
  else (.ok (), { symbols with functions := symbols.functions.append function.name function })

def localsOf? (symbols : Symbols) (name : String) : Option VariableTable := do
  let function ← symbols.function? name
  symbols.locals[function.locals]?

end Symbols

end Minuscule
