import Minuscule.NameTable

/-!
Variables and the tables that hold them. A table lists the variables of one scope in the order of their
declaration and lays them out one behind the other: a variable starts where the one before it ends. A
declaration is refused when its name is taken or when it would end past the largest address. It answers
with the offset of the variable or the reason, and in either case with the table as it is from then on.
-/

namespace Minuscule

inductive BaseType where
  | int
  | void
  deriving DecidableEq, Repr

def BaseType.text : BaseType → String
  | int => "int"
  | void => "void"

/-- What a name stands for. An array parameter is the address of an array of unknown length. -/
inductive VariableKind where
  | scalar
  | array (length : Nat)
  | param (isArray : Bool)
  deriving DecidableEq, Repr

/-- Bytes of an integer, and of an address. -/
def wordWidth : Nat := 4

/-- The end of the storage of a scope. -/
def storageMax : Nat := 0xffffffffffffffff

namespace VariableKind

/-- The storage of a variable, if there is that much. -/
def width? : VariableKind → Option Nat
  | array length => if wordWidth * length ≤ storageMax then some (wordWidth * length) else none
  | _ => some wordWidth

def isArray : VariableKind → Bool
  | scalar => false
  | array _ => true
  | param isArray => isArray

/-- The length of an array that was declared with one. -/
def length? : VariableKind → Option Nat
  | array length => some length
  | _ => none

end VariableKind

structure Variable where
  name : String
  kind : VariableKind
  width : Nat
  offset : Nat
  deriving DecidableEq, Repr

inductive DeclareError where
  | taken (name : String)
  | tooLarge (name : String)
  deriving DecidableEq, Repr

def DeclareError.message : DeclareError → String
  | taken name => s!"'{name}' is already defined"
  | tooLarge name => s!"'{name}' does not fit in the table's storage"

structure VariableTable extends NameTable Variable where
  width : Nat
  deriving DecidableEq, Repr

namespace VariableTable

def empty : VariableTable := ⟨.empty, 0⟩

/-- Declares a variable at the end of the table. -/
def declare (table : VariableTable) (name : String) (kind : VariableKind) :
    Except DeclareError Nat × VariableTable :=
  if table.contains name then (.error (.taken name), table)
  else match kind.width? with
    | none => (.error (.tooLarge name), table)
    | some width =>
      let offset := table.width
      if offset + width ≤ storageMax then
        (.ok offset, ⟨table.append name ⟨name, kind, width, offset⟩, offset + width⟩)
      else (.error (.tooLarge name), table)

end VariableTable

end Minuscule
