import Minuscule.Tree

/-!
Trees under construction. A parser fills in nodes long before their children are known, so it keeps
them in an arena where children are named by their places. Children always stand behind their parent;
the arena is therefore assembled from its end, where every child that is asked for is already a tree.
-/

namespace Minuscule

/-- A node whose children are places in the arena. -/
structure Pending (T N : Type) where
  label : Label T N
  children : List Nat
  deriving DecidableEq, Repr

namespace Pending
variable {T N : Type}

def bare (sign : Sign T N) (line : Nat) : Pending T N :=
  ⟨⟨sign, none, none, line⟩, []⟩

end Pending

abbrev Arena (T N : Type) := Array (Pending T N)

namespace Arena
variable {T N : Type}

/-- Records on a node the token that it matched. -/
def fill (arena : Arena T N) (place : Nat) (lexeme : String) (line : Nat) : Arena T N :=
  arena.modify place fun node =>
    { node with label := { node.label with lexeme := some lexeme, line := line } }

/-- Records on a node the production that it is expanded with; the signs of the right-hand side become
new nodes at the end. -/
def expand (arena : Arena T N) (place index : Nat) (right : List (Sign T N)) (line : Nat) :
    Arena T N :=
  let places := List.range' arena.size right.length
  let expanded := arena.modify place fun node =>
    ⟨{ node.label with production := some index, line := line }, places⟩
  expanded ++ right.map (Pending.bare · line)

/-- One more tree, for the node in front of those that are built. The trees stand in reverse, so the
one of place `i` in an arena of `size` nodes is found at `size - 1 - i`. -/
def grow (size : Nat) (node : Pending T N) (built : Array (Tree T N)) : Array (Tree T N) :=
  built.push (.node node.label (node.children.filterMap fun child => built[size - 1 - child]?))

/-- The tree of the node in the first place. -/
def assemble? (arena : Arena T N) : Option (Tree T N) :=
  (arena.foldr (grow arena.size) #[]).back?

end Arena

end Minuscule
