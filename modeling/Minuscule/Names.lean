/-!
Names that the compiler makes up: temporaries `_v0`, `_v1`, … and block labels `__b0`, `__b1`, …, each
numbered on its own. A number is handed out once.
-/

namespace Minuscule

def temporary (number : Nat) : String :=
  s!"_v{number}"

def blockLabel (number : Nat) : String :=
  s!"__b{number}"

/-- How many names of each sort have been handed out. -/
structure Names where
  temporaries : Nat
  labels : Nat
  deriving DecidableEq, Repr

namespace Names

def fresh : Names := ⟨0, 0⟩

def newTemporary (names : Names) : String × Names :=
  (temporary names.temporaries, { names with temporaries := names.temporaries + 1 })

def newLabel (names : Names) : String × Names :=
  (blockLabel names.labels, { names with labels := names.labels + 1 })

end Names

end Minuscule
