/-!
The vocabulary of a grammar. A sign is a terminal, a non-terminal or one of the two marks that no
right-hand side may use: `ε` for the empty word, which First sets need, and `#` for the end of the
input, which Follow sets and the columns of a parse table need. Signs are ordered, terminals before
non-terminals before `ε` before `#`, and every set and table is listed in that order.
-/

namespace Minuscule

inductive Sign (T N : Type) where
  | terminal (kind : T)
  | nonTerminal (kind : N)
  | epsilon
  | endMark
  deriving DecidableEq, Repr

namespace Sign
variable {T N : Type}

def isTerminal : Sign T N → Bool
  | terminal _ => true
  | _ => false

def isNonTerminal : Sign T N → Bool
  | nonTerminal _ => true
  | _ => false

def isEpsilon : Sign T N → Bool
  | epsilon => true
  | _ => false

def isEndMark : Sign T N → Bool
  | endMark => true
  | _ => false

def text [ToString T] [ToString N] : Sign T N → String
  | terminal kind => toString kind
  | nonTerminal kind => toString kind
  | epsilon => "ε"
  | endMark => "#"

/-- Terminals, non-terminals, `ε` and `#` follow each other; kinds decide within a class. -/
protected def compare [Ord T] [Ord N] : Sign T N → Sign T N → Ordering
  | terminal a, terminal b => compare a b
  | terminal _, _ => .lt
  | nonTerminal _, terminal _ => .gt
  | nonTerminal a, nonTerminal b => compare a b
  | nonTerminal _, _ => .lt
  | epsilon, epsilon => .eq
  | epsilon, endMark => .lt
  | epsilon, _ => .gt
  | endMark, endMark => .eq
  | endMark, _ => .gt

instance [Ord T] [Ord N] : Ord (Sign T N) := ⟨Sign.compare⟩

instance [Ord T] [Ord N] [Std.TransOrd T] [Std.TransOrd N] : Std.TransOrd (Sign T N) where
  eq_swap {a b} := by
    cases a <;> cases b <;> simp only [compare, Sign.compare]
    all_goals first | rfl | exact Std.OrientedCmp.eq_swap
  isLE_trans {a b c} := by
    cases a <;> cases b <;> cases c <;>
      simp only [compare, Sign.compare, Ordering.isLE_lt, Ordering.isLE_eq, Ordering.isLE_gt,
        Bool.false_eq_true, false_implies, implies_true]
    all_goals exact Std.TransCmp.isLE_trans

instance [Ord T] [Ord N] [Std.LawfulEqOrd T] [Std.LawfulEqOrd N] : Std.LawfulEqOrd (Sign T N) where
  compare_self {a} := by
    cases a <;> simp only [compare, Sign.compare]
    all_goals exact Std.ReflCmp.compare_self
  eq_of_compare {a b} same := by
    cases a <;> cases b <;> simp only [compare, Sign.compare, reduceCtorEq] at same
    · rw [Std.LawfulEqCmp.eq_of_compare same]
    · rw [Std.LawfulEqCmp.eq_of_compare same]
    · rfl
    · rfl

end Sign

end Minuscule
