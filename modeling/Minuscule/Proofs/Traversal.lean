import Minuscule.Tree
import Mathlib.Data.List.Basic
import Mathlib.Data.Nat.Init

/-!
The walk with pending subtrees visits a tree in the order of the recursive definition. Leaves and
conformance are said through that walk; here they get the equations by which an induction over a tree
goes through its children.
-/

namespace Minuscule.Tree
variable {T N : Type}

/-- What holds of a node whenever it holds of its children holds of every tree. -/
theorem by_children {motive : Tree T N → Prop}
    (node : ∀ label children, (∀ child ∈ children, motive child) → motive (.node label children))
    (tree : Tree T N) : motive tree := by
  induction h : tree.count using Nat.strong_induction_on generalizing tree with
  | _ size ih =>
    obtain ⟨label, children⟩ := tree
    apply node
    intro child member
    obtain ⟨front, back, rfl⟩ := List.append_of_mem member
    apply ih child.count _ child rfl
    simp only [count, countAll_append, countAll] at h
    omega

mutual

/-- A node, then its children from left to right, one level deeper. -/
def traversal (depth : Nat) : Tree T N → List (Nat × Tree T N)
  | node label children => (depth, node label children) :: traversalAll (depth + 1) children

def traversalAll (depth : Nat) : List (Tree T N) → List (Nat × Tree T N)
  | [] => []
  | tree :: rest => traversal depth tree ++ traversalAll depth rest

end

theorem traversal_eq (depth : Nat) (tree : Tree T N) :
    traversal depth tree = (depth, tree) :: traversalAll (depth + 1) tree.children := by
  cases tree
  rw [traversal, children]

theorem traversalAll_eq_flatMap (depth : Nat) (trees : List (Tree T N)) :
    traversalAll depth trees = trees.flatMap (traversal depth) := by
  induction trees with
  | nil => rfl
  | cons tree rest ih => rw [traversalAll, ih, List.flatMap_cons]

theorem visitFrom_eq (pending seen : List (Nat × Tree T N)) :
    visitFrom pending seen = seen.reverse ++ pending.flatMap fun entry => traversal entry.1 entry.2 := by
  induction pending, seen using visitFrom.induct with
  | case1 seen => simp [visitFrom]
  | case2 seen depth tree rest ih =>
    rw [visitFrom, ih, List.flatMap_cons, List.flatMap_append, traversal_eq, traversalAll_eq_flatMap]
    simp [List.flatMap_map]

theorem preorder_eq_traversal (tree : Tree T N) : tree.preorder = traversal 0 tree := by
  simp [preorder, visitFrom_eq]

/-- The subtrees of a walk do not depend on the depth at which it starts. -/
theorem traversal_snd (tree : Tree T N) (depth other : Nat) :
    (traversal depth tree).map Prod.snd = (traversal other tree).map Prod.snd := by
  induction tree using by_children generalizing depth other with
  | node label children ih =>
    rw [traversal, traversal, List.map_cons, List.map_cons, traversalAll_eq_flatMap,
      traversalAll_eq_flatMap, List.map_flatMap, List.map_flatMap]
    congr 1
    apply List.flatMap_congr
    intro child member
    exact ih child member _ _

/-- All subtrees, each before those of its children. -/
def subtrees (tree : Tree T N) : List (Tree T N) :=
  tree.preorder.map Prod.snd

theorem subtrees_node (label : Label T N) (children : List (Tree T N)) :
    (node label children).subtrees = node label children :: children.flatMap subtrees := by
  simp only [subtrees, preorder_eq_traversal, traversal, List.map_cons, traversalAll_eq_flatMap,
    List.map_flatMap]
  congr 1
  apply List.flatMap_congr
  intro child _
  rw [subtrees, preorder_eq_traversal]
  exact traversal_snd child _ _

/-- The terminal of a sign, as a list. -/
def ownLeaf : Sign T N → List T
  | .terminal kind => [kind]
  | _ => []

theorem leaves_eq (tree : Tree T N) : tree.leaves = tree.subtrees.flatMap fun subtree => ownLeaf subtree.sign := by
  rw [leaves, subtrees, List.flatMap_map]
  induction tree.preorder with
  | nil => rfl
  | cons entry rest ih =>
    obtain ⟨depth, subtree⟩ := entry
    rw [List.filterMap_cons, List.flatMap_cons, ih]
    cases signed : subtree.sign <;> simp [signed, ownLeaf]

theorem leaves_node (label : Label T N) (children : List (Tree T N)) :
    (node label children).leaves = ownLeaf label.sign ++ children.flatMap leaves := by
  rw [leaves_eq, subtrees_node, List.flatMap_cons, List.flatMap_assoc]
  congr 1
  apply List.flatMap_congr
  intro child _
  exact (leaves_eq child).symm

section Conformance
variable [DecidableEq T] [DecidableEq N] {grammar : Grammar T N}

theorem conforms_iff (tree : Tree T N) :
    tree.conforms grammar = true ↔ ∀ subtree ∈ tree.subtrees, subtree.fits grammar = true := by
  simp only [conforms, subtrees, List.all_eq_true, List.mem_map]
  constructor
  · rintro all _ ⟨entry, member, rfl⟩
    exact all entry member
  · intro all entry member
    exact all entry.2 ⟨entry, member, rfl⟩

theorem conforms_node (label : Label T N) (children : List (Tree T N)) :
    (node label children).conforms grammar = true ↔
      (node label children).fits grammar = true ∧ ∀ child ∈ children, child.conforms grammar = true := by
  simp only [conforms_iff, subtrees_node, List.forall_mem_cons, List.mem_flatMap, forall_exists_index, and_imp]
  constructor
  · rintro ⟨here, below⟩
    exact ⟨here, fun child member subtree inside => below subtree child member inside⟩
  · rintro ⟨here, below⟩
    exact ⟨here, fun subtree child member inside => below child member subtree inside⟩

/-- A conforming tree is a terminal without children, or a non-terminal over conforming trees that spell
out one of its productions. -/
theorem conforms_cases {label : Label T N} {children : List (Tree T N)}
    (conforming : (node label children).conforms grammar = true) :
    (∃ kind, label.sign = .terminal kind ∧ label.production = none ∧ children = []) ∨
      ∃ index production, label.sign = .nonTerminal production.left ∧ label.production = some index ∧
        grammar.productions[index]? = some production ∧ production.right = children.map sign ∧
        ∀ child ∈ children, child.conforms grammar = true := by
  obtain ⟨here, below⟩ := (conforms_node label children).mp conforming
  unfold fits at here
  split at here
  · next left index signed recorded =>
    split at here
    · next production found =>
      rw [Bool.and_eq_true, decide_eq_true_eq, decide_eq_true_eq] at here
      obtain ⟨rfl, right⟩ := here
      exact .inr ⟨index, production, signed, recorded, found, right, below⟩
    · cases here
  · next kind signed recorded => exact .inl ⟨kind, signed, recorded, List.isEmpty_iff.mp here⟩
  · cases here

theorem conforms_leaf {label : Label T N} {kind : T} (signed : label.sign = .terminal kind)
    (bare : label.production = none) : (node label []).conforms grammar = true := by
  rw [conforms_node]
  refine ⟨?_, by simp⟩
  simp [fits, sign, Tree.label, Tree.children, signed, bare]

theorem conforms_expanded {label : Label T N} {children : List (Tree T N)} {index : Nat}
    {production : Production T N} (signed : label.sign = .nonTerminal production.left)
    (recorded : label.production = some index) (found : grammar.productions[index]? = some production)
    (right : production.right = children.map sign)
    (below : ∀ child ∈ children, child.conforms grammar = true) :
    (node label children).conforms grammar = true := by
  rw [conforms_node]
  refine ⟨?_, below⟩
  simp [fits, sign, Tree.label, Tree.children, signed, recorded, found, right]

end Conformance

end Minuscule.Tree
