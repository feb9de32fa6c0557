import Minuscule.Instruction
import Minuscule.Language.NonTerminal
import Minuscule.Language.Terminal
import Minuscule.Names
import Minuscule.SemanticError
import Minuscule.Symbols
import Minuscule.Tree

/-!
The attributes by which a parse tree gets its meaning. A node is given inherited attributes by its
parent and gives synthesized attributes back. One record serves for all nodes: an action fills in the
attributes that its production has and leaves the others empty, and what an action does not find is
empty too, so that the meaning of any tree is defined.

Next to the attributes the evaluation carries along the symbols declared so far, the names handed out
and the errors found.
-/

namespace Minuscule

abbrev ParseTree := Tree Terminal NonTerminal

/-- A name in the source and the line it stands on. -/
structure Occurrence where
  name : String
  line : Nat
  deriving DecidableEq, Repr

/-- Type and name of a declaration, handed to what follows the name. -/
structure Declarator where
  subject : Occurrence
  type : BaseType
  deriving DecidableEq, Repr

structure Parameter where
  subject : Occurrence
  isArray : Bool
  deriving DecidableEq, Repr

def Parameter.kind (parameter : Parameter) : VariableKind :=
  .param parameter.isArray

structure Inherited where
  /-- Where declarations go and names are looked up. -/
  scope : Scope := .global
  /-- What a definition defines. -/
  declarator : Option Declarator := none
  /-- What a statement assigns to or calls. -/
  target : Option Occurrence := none
  deriving DecidableEq, Repr

/-- What stands behind an identifier: a subscript, with its value if that is a literal, or arguments. -/
inductive Suffix where
  | index (place : String) (constant : Option Int)
  | call (args : List String)
  deriving DecidableEq, Repr

structure Attributes where
  lexeme : String := ""
  line : Nat := 0
  code : List Instruction := []
  /-- The place that holds the value of an expression. -/
  place : String := ""
  /-- The value of a literal. -/
  constant : Option Int := none
  type : Option BaseType := none
  /-- The length of an array declaration, if it is a number. -/
  length : Option Nat := none
  isArray : Bool := false
  params : List Parameter := []
  args : List String := []
  operator : Option Operator := none
  /-- Operators and right operands that still wait for the left end of their chain. -/
  chain : List (Operator × String) := []
  suffix : Option Suffix := none
  deriving DecidableEq, Repr

namespace Attributes

/-- The attributes of a terminal: its text, which is also the place of its value. -/
def leaf (lexeme : String) (line : Nat) : Attributes :=
  { lexeme := lexeme, place := lexeme, line := line }

def ofCode (code : List Instruction) : Attributes :=
  { code := code }

/-- The code of all children, in their order. -/
def concat (children : List Attributes) : Attributes :=
  ofCode (children.flatMap Attributes.code)

def ofOperator (operator : Operator) : Attributes :=
  { operator := some operator }

/-- The code that computes a value and the place where the value then is. -/
def ofValue (code : List Instruction) (place : String) : Attributes :=
  { code := code, place := place }

def occurrence (attributes : Attributes) : Occurrence :=
  ⟨attributes.lexeme, attributes.line⟩

end Attributes

/-- The type of a declaration counts as `int` when it is not given. -/
def Declarator.ofAttributes (type name : Attributes) : Declarator :=
  ⟨name.occurrence, type.type.getD .int⟩

structure Progress where
  symbols : Symbols
  names : Names
  errors : Array SemanticError
  deriving DecidableEq, Repr

def Progress.start : Progress :=
  ⟨.empty, .fresh, #[]⟩

/-- An action of a production: it may declare, hand out names and report errors. -/
abbrev Action := StateM Progress

namespace Action

def report (cause : Cause) (line : Nat) : Action Unit :=
  modify fun progress => { progress with errors := progress.errors.push ⟨cause, line⟩ }

def newTemporary : Action String :=
  modifyGet fun progress =>
    let (name, names) := progress.names.newTemporary
    (name, { progress with names := names })

def newLabel : Action String :=
  modifyGet fun progress =>
    let (name, names) := progress.names.newLabel
    (name, { progress with names := names })

end Action

end Minuscule
