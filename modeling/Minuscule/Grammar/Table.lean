import Minuscule.Grammar.Lookahead

/-!
Predictive parse tables. A cell is a non-terminal and the sign that stands next in the input; it holds
the index of the production to expand the non-terminal with. Each production claims a cell for every
terminal that its right-hand side may start with and, when the right-hand side may vanish, for every
sign that may follow its left-hand side. Claims are entered in the order of the productions. A cell
that two productions claim means that one sign of lookahead cannot decide between them.
-/

namespace Minuscule

/-- The first cell that a production finds taken by an earlier one. -/
structure Conflict (T N : Type) where
  nonTerminal : N
  lookahead : Sign T N
  existing : Nat
  incoming : Nat
  deriving DecidableEq, Repr

def Conflict.message {T N : Type} [ToString T] [ToString N] (conflict : Conflict T N)
    (grammar : Grammar T N) : String :=
  let existing := grammar.productionText conflict.existing
  let incoming := grammar.productionText conflict.incoming
  s!"grammar is not LL(1): cell [{conflict.nonTerminal}, {conflict.lookahead.text}] " ++
    s!"claimed by '{existing}' and '{incoming}'"

/-- The signs of lookahead under which a production is the one to take, terminals of First before
Follow. -/
def Lookahead.predict {T N : Type} [Ord T] [Ord N] (sets : Lookahead T N)
    (production : Production T N) : List (Sign T N) :=
  let first := firstOfAll sets.first production.right
  first.toList.filter Sign.isTerminal ++
    if first.contains .epsilon then (sets.follow.of production.left).toList else []

/-- Cells are ordered by non-terminal, then by lookahead. -/
def cellOrder {T N : Type} [Ord T] [Ord N] : N × Sign T N → N × Sign T N → Ordering :=
  compareLex (compareOn Prod.fst) (compareOn Prod.snd)

structure Table (T N : Type) [Ord T] [Ord N] where
  cells : Std.TreeMap (N × Sign T N) Nat cellOrder

namespace Table
variable {T N : Type} [Ord T] [Ord N]

def empty : Table T N := ⟨∅⟩

def get? (table : Table T N) (nonTerminal : N) (lookahead : Sign T N) : Option Nat :=
  table.cells[(nonTerminal, lookahead)]?

def size (table : Table T N) : Nat :=
  table.cells.size

def isEmpty (table : Table T N) : Bool :=
  table.cells.isEmpty

/-- The filled cells in the order of cells. -/
def entries (table : Table T N) : List ((N × Sign T N) × Nat) :=
  table.cells.toList

/-- Fills a cell for a production. Claiming a cell twice for one production is no conflict. -/
def claim (table : Table T N) (entry : (N × Sign T N) × Nat) :
    Except (Conflict T N) (Table T N) :=
  let (cell, index) := entry
  match table.cells[cell]? with
  | none => .ok ⟨table.cells.insert cell index⟩
  | some existing =>
    if existing = index then .ok table else .error ⟨cell.1, cell.2, existing, index⟩

def claims (grammar : Grammar T N) (sets : Lookahead T N) : List ((N × Sign T N) × Nat) :=
  grammar.productions.zipIdx.flatMap fun (production, index) =>
    (sets.predict production).map fun lookahead => ((production.left, lookahead), index)

/-- The table of a grammar for given sets, which need not be the grammar's own. -/
def build (grammar : Grammar T N) (sets : Lookahead T N) : Except (Conflict T N) (Table T N) :=
  (claims grammar sets).foldlM claim empty

instance [DecidableEq T] [DecidableEq N] : BEq (Table T N) where
  beq a b := a.entries == b.entries

/-- The filled cells, one line each, with the texts that a grammar gives to their indices. -/
def text [ToString T] [ToString N] (table : Table T N) (grammar : Grammar T N) : String :=
  String.join <| table.entries.map fun ((nonTerminal, lookahead), index) =>
    let production := grammar.productionText index
    s!"[{nonTerminal}, {lookahead.text}] {production}\n"

end Table

end Minuscule
