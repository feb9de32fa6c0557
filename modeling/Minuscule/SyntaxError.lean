import Minuscule.Sign

/-!
Why a parse stops without a tree. Each reason carries the line at which it arose: that of the token in
hand or, when no token is left, that of the last one.
-/

namespace Minuscule

inductive SyntaxError (T N : Type) where
  | mismatch (expected : Sign T N) (found : String) (line : Nat)
  | unexpectedToken (nonTerminal : N) (found : String) (line : Nat)
  | unexpectedEnd (expected : Sign T N) (line : Nat)
  /-- The table asks for a non-terminal below itself with no token read in between. -/
  | endless (nonTerminal : N) (line : Nat)
  deriving DecidableEq, Repr

namespace SyntaxError
variable {T N : Type}

def line : SyntaxError T N → Nat
  | mismatch _ _ line | unexpectedToken _ _ line | unexpectedEnd _ line | endless _ line => line

def isAtEnd : SyntaxError T N → Bool
  | unexpectedEnd _ _ => true
  | _ => false

/-- The text that was read in place of what was wanted. -/
def found? : SyntaxError T N → Option String
  | mismatch _ found _ | unexpectedToken _ found _ => some found
  | _ => none

/-- What the parser was looking for. -/
def wanted [ToString T] [ToString N] : SyntaxError T N → String
  | mismatch .endMark _ _ => "end of input"
  | mismatch expected _ _ | unexpectedEnd expected _ => expected.text
  | unexpectedToken nonTerminal _ _ | endless nonTerminal _ => toString nonTerminal

def message [ToString T] [ToString N] (error : SyntaxError T N) : String :=
  let wanted := error.wanted
  match error with
  | mismatch _ found line => s!"line {line}: expected {wanted}, found '{found}'"
  | unexpectedToken _ found line => s!"line {line}: unexpected '{found}' while parsing {wanted}"
  | unexpectedEnd _ line => s!"line {line}: unexpected end of input, expected {wanted}"
  | endless _ line => s!"line {line}: endless expansion of {wanted}"

end SyntaxError

end Minuscule
