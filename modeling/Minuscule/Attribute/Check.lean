import Minuscule.Attribute

/-!
Uses of names. A use is checked against what has been declared before it and in no way changes the code
that is emitted for it.
-/

namespace Minuscule.Action

def checkVariable (scope : Scope) (use : Occurrence) : Action Unit := do
  match (← get).symbols.resolve? scope use.name with
  | some _ => pure ()
  | none => report (.undefinedVariable use.name) use.line

/-- Does a literal subscript lie outside an array of a known length? -/
def outOfBounds (index : Int) (length : Nat) : Bool :=
  index < 0 || (length : Int) ≤ index

/-- Checks a subscripted name; the subscript is known when it is a literal. -/
def checkElement (scope : Scope) (use : Occurrence) (constant : Option Int) : Action Unit := do
  match (← get).symbols.resolve? scope use.name with
  | none => report (.undefinedVariable use.name) use.line
  | some found =>
    if found.kind.isArray then
      match constant, found.kind.length? with
      | some index, some length =>
        if outOfBounds index length then
          report (.indexOutOfBounds use.name index length) use.line
      | _, _ => pure ()
    else report (.notAnArray use.name) use.line

def checkCall (callee : Occurrence) (count : Nat) : Action Unit := do
  match (← get).symbols.function? callee.name with
  | none => report (.undefinedFunction callee.name) callee.line
  | some function =>
    if function.params.length ≠ count then
      report (.argumentCountMismatch callee.name function.params.length count) callee.line

end Minuscule.Action
