import Minuscule.Tree

/-!
A tree written as an outline: its labels in pre-order, each with its depth. `Tree.ofOutline?` reads an
outline back from its last line, so that the children of a label are the trees that stand deeper right
after it.
-/

namespace Minuscule.Tree
variable {T N : Type}

def outline (tree : Tree T N) : List (Nat × Label T N) :=
  tree.preorder.map fun (depth, subtree) => (depth, subtree.label)

/-- Puts a label over the trees that follow it and lie deeper. -/
def graft (line : Nat × Label T N) (forest : List (Nat × Tree T N)) : List (Nat × Tree T N) :=
  let deeper (entry : Nat × Tree T N) : Bool := line.1 < entry.1
  (line.1, node line.2 ((forest.takeWhile deeper).map Prod.snd)) :: forest.dropWhile deeper

/-- The tree of an outline that starts at depth zero and has no second root. -/
def ofOutline? (lines : List (Nat × Label T N)) : Option (Tree T N) :=
  match lines.foldr graft [] with
  | [(0, tree)] => some tree
  | _ => none

end Minuscule.Tree
