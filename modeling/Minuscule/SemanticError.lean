/-!
What can be wrong with a program that parses. An error is a cause and the line of the name that it is
about. Errors do not stop the evaluation of a program; they are collected in the order in which they
are found.
-/

namespace Minuscule

inductive Cause where
  | redefinition (name : String)
  | functionRedefinition (name : String)
  | voidVariable (name : String)
  | invalidArrayLength (name length : String)
  | storageOverflow (name : String)
  | undefinedVariable (name : String)
  | undefinedFunction (name : String)
  | argumentCountMismatch (function : String) (expected got : Nat)
  | indexOutOfBounds (name : String) (index : Int) (length : Nat)
  | notAnArray (name : String)
  deriving DecidableEq, Repr

def Cause.text : Cause → String
  | redefinition name => s!"redefinition of '{name}'"
  | functionRedefinition name => s!"redefinition of function '{name}'"
  | voidVariable name => s!"variable '{name}' declared void"
  | invalidArrayLength name length => s!"invalid length '{length}' for array '{name}'"
  | storageOverflow name => s!"'{name}' is too large"
  | undefinedVariable name => s!"use of undefined variable '{name}'"
  | undefinedFunction name => s!"call to undefined function '{name}'"
  | argumentCountMismatch function expected got =>
    s!"function '{function}' takes {expected} argument(s) but {got} were given"
  | indexOutOfBounds name index length =>
    s!"index {index} is out of bounds for '{name}' of length {length}"
  | notAnArray name => s!"'{name}' is not an array"

structure SemanticError where
  cause : Cause
  line : Nat
  deriving DecidableEq, Repr

def SemanticError.message (error : SemanticError) : String :=
  s!"line {error.line}: {error.cause.text}"

end Minuscule
