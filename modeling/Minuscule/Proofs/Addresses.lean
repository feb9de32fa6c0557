import Minuscule.Tree.Outline
import Minuscule.Proofs.Traversal
import Mathlib.Data.List.Forall2
import Mathlib.Data.List.Lex

/-!
The address of a node is the row of child numbers by which it is reached from the root. In pre-order the addresses come
in the order of a dictionary, none twice and none left out, and the length of an address is the depth of its node. The
depths alone bring back the nesting: a label stands over what follows it and lies deeper, so an outline can be read back
from its end and two trees with the same outline are the same.
-/

namespace Minuscule.Tree
variable {T N : Type}

/-- The subtree at an address, if the address leads to a node. -/
def at? : List Nat → Tree T N → Option (Tree T N)
  | [], tree => some tree
  | place :: address, tree => tree.children[place]?.bind (at? address)

mutual

/-- The subtrees of a tree in pre-order with their addresses, when the tree itself has the given one. -/
def located (address : List Nat) : Tree T N → List (List Nat × Tree T N)
  | node label children => (address, node label children) :: locatedFrom address 0 children

/-- The subtrees of the children of a node, of which the first has the given number. -/
def locatedFrom (address : List Nat) (place : Nat) : List (Tree T N) → List (List Nat × Tree T N)
  | [] => []
  | tree :: rest => located (address ++ [place]) tree ++ locatedFrom address (place + 1) rest

end

theorem located_eq (address : List Nat) (tree : Tree T N) :
    located address tree = (address, tree) :: locatedFrom address 0 tree.children := by
  cases tree
  rw [located, children]

/-- What the rows of the children hold, once it is known for each child. -/
theorem mem_locatedFrom_of_mem {address : List Nat} {place : Nat} {trees : List (Tree T N)}
    (each : ∀ tree ∈ trees, ∀ address found, found ∈ located address tree ↔
      ∃ below, found.1 = address ++ below ∧ tree.at? below = some found.2) (found : List Nat × Tree T N) :
    found ∈ locatedFrom address place trees ↔ ∃ index tree below, trees[index]? = some tree ∧
      found.1 = address ++ (place + index) :: below ∧ tree.at? below = some found.2 := by
  induction trees generalizing place with
  | nil => simp [locatedFrom]
  | cons tree rest ih =>
    obtain ⟨here, later⟩ := List.forall_mem_cons.mp each
    rw [locatedFrom, List.mem_append, here, ih later]
    constructor
    · rintro (⟨below, reached, found⟩ | ⟨index, other, below, child, reached, found⟩)
      · exact ⟨0, tree, below, rfl, by rw [reached, List.append_assoc]; rfl, found⟩
      · refine ⟨index + 1, other, below, child, ?_, found⟩
        rw [reached, Nat.add_right_comm, Nat.add_assoc]
    · rintro ⟨index, other, below, child, reached, found⟩
      cases index with
      | zero =>
        cases child
        exact .inl ⟨below, by rw [reached, List.append_assoc]; rfl, found⟩
      | succ index =>
        refine .inr ⟨index, other, below, child, ?_, found⟩
        rw [reached, Nat.add_right_comm, Nat.add_assoc]

theorem mem_located {address : List Nat} {tree : Tree T N} {found : List Nat × Tree T N} :
    found ∈ located address tree ↔ ∃ below, found.1 = address ++ below ∧ tree.at? below = some found.2 := by
  induction tree using by_children generalizing address found with
  | node label children ih =>
    rw [located, List.mem_cons, mem_locatedFrom_of_mem fun child member _ _ => ih child member]
    constructor
    · rintro (rfl | ⟨index, child, below, member, reached, found⟩)
      · exact ⟨[], (List.append_nil _).symm, rfl⟩
      · refine ⟨index :: below, by rw [reached, Nat.zero_add], ?_⟩
        rw [at?, Tree.children, member]
        exact found
    · rintro ⟨below, reached, found⟩
      cases below with
      | nil =>
        rw [List.append_nil] at reached
        exact .inl (Prod.ext reached (Option.some.inj found).symm)
      | cons index below =>
        obtain ⟨child, member, found⟩ := Option.bind_eq_some_iff.mp found
        exact .inr ⟨index, child, below, member, by rw [reached, Nat.zero_add], found⟩

theorem mem_locatedFrom {address : List Nat} {place : Nat} {trees : List (Tree T N)} {found : List Nat × Tree T N} :
    found ∈ locatedFrom address place trees ↔ ∃ index tree below, trees[index]? = some tree ∧
      found.1 = address ++ (place + index) :: below ∧ tree.at? below = some found.2 :=
  mem_locatedFrom_of_mem (fun _ _ _ _ => mem_located) found

/-- The addresses of a tree in pre-order. -/
def addresses (tree : Tree T N) : List (List Nat) :=
  (located [] tree).map Prod.fst

theorem mem_addresses {tree : Tree T N} {address : List Nat} :
    address ∈ tree.addresses ↔ (tree.at? address).isSome = true := by
  rw [addresses, List.mem_map, Option.isSome_iff_exists]
  constructor
  · rintro ⟨entry, member, rfl⟩
    obtain ⟨below, reached, found⟩ := mem_located.mp member
    exact ⟨entry.2, reached ▸ found⟩
  · rintro ⟨subtree, found⟩
    exact ⟨(address, subtree), mem_located.mpr ⟨address, rfl, found⟩, rfl⟩

/-- A child comes before the next one with all that lies below it. -/
theorem pairwise_locatedFrom {address : List Nat} {place : Nat} {trees : List (Tree T N)}
    (each : ∀ tree ∈ trees, ∀ address, (located address tree).Pairwise fun one other =>
      List.Lex (· < ·) one.1 other.1) :
    (locatedFrom address place trees).Pairwise fun one other => List.Lex (· < ·) one.1 other.1 := by
  induction trees generalizing place with
  | nil => exact .nil
  | cons tree rest ih =>
    obtain ⟨here, later⟩ := List.forall_mem_cons.mp each
    rw [locatedFrom, List.pairwise_append]
    refine ⟨here _, ih later, ?_⟩
    intro one inside other behind
    obtain ⟨below, reached, _⟩ := mem_located.mp inside
    obtain ⟨index, _, below', _, reached', _⟩ := mem_locatedFrom.mp behind
    rw [reached, reached', List.append_assoc]
    exact (List.Lex.rel (by omega)).append_left _ address

theorem pairwise_located (address : List Nat) (tree : Tree T N) :
    (located address tree).Pairwise fun one other => List.Lex (· < ·) one.1 other.1 := by
  induction tree using by_children generalizing address with
  | node label children ih =>
    rw [located, List.pairwise_cons]
    refine ⟨?_, pairwise_locatedFrom fun child member address => ih child member address⟩
    intro other behind
    obtain ⟨index, _, below, _, reached, _⟩ := mem_locatedFrom.mp behind
    have first : List.Lex (· < ·) (address ++ []) (address ++ (0 + index) :: below) := List.Lex.nil.append_left _ address
    rwa [List.append_nil, ← reached] at first

theorem pairwise_addresses (tree : Tree T N) : tree.addresses.Pairwise (List.Lex (· < ·)) :=
  List.pairwise_map.mpr (pairwise_located [] tree)

/-- The row of some children, in the walk and with addresses, once it is the same for each child. -/
theorem traversalAll_eq_located {address : List Nat} {place : Nat} {trees : List (Tree T N)}
    (each : ∀ tree ∈ trees, ∀ address : List Nat, traversal address.length tree =
      (located address tree).map fun entry => (entry.1.length, entry.2)) :
    traversalAll (address.length + 1) trees =
      (locatedFrom address place trees).map fun entry => (entry.1.length, entry.2) := by
  induction trees generalizing place with
  | nil => rfl
  | cons tree rest ih =>
    obtain ⟨here, later⟩ := List.forall_mem_cons.mp each
    have own := here (address ++ [place])
    rw [List.length_append, List.length_singleton] at own
    rw [traversalAll, locatedFrom, List.map_append, own, ih later]

/-- The walk goes through the addresses, and the depth of a node is the length of its address. -/
theorem traversal_eq_located (address : List Nat) (tree : Tree T N) :
    traversal address.length tree = (located address tree).map fun entry => (entry.1.length, entry.2) := by
  induction tree using by_children generalizing address with
  | node label children ih =>
    rw [traversal, located, List.map_cons, traversalAll_eq_located fun child member address => ih child member address]

theorem preorder_eq_located (tree : Tree T N) :
    tree.preorder = (located [] tree).map fun entry => (entry.1.length, entry.2) := by
  rw [preorder_eq_traversal]
  exact traversal_eq_located [] tree

theorem forall₂_addresses_preorder (tree : Tree T N) :
    List.Forall₂ (fun address entry => entry.1 = address.length ∧ tree.at? address = some entry.2) tree.addresses
      tree.preorder := by
  rw [addresses, preorder_eq_located, List.forall₂_map_left_iff, List.forall₂_map_right_iff, List.forall₂_same]
  intro entry member
  obtain ⟨below, rfl, found⟩ := mem_located.mp member
  exact ⟨rfl, found⟩

theorem length_traversal (depth : Nat) (tree : Tree T N) : (traversal depth tree).length = tree.count := by
  induction tree using by_children generalizing depth with
  | node label children ih =>
    rw [traversal, count, List.length_cons]
    congr 1
    induction children with
    | nil => rfl
    | cons child rest row =>
      obtain ⟨here, later⟩ := List.forall_mem_cons.mp ih
      rw [traversalAll, countAll, List.length_append, here, row later]

theorem size_eq_count (tree : Tree T N) : tree.size = tree.count := by
  rw [size, preorder_eq_traversal, length_traversal]

/-- One level further down all depths grow by one. -/
theorem traversal_succ (depth : Nat) (tree : Tree T N) :
    traversal (depth + 1) tree = (traversal depth tree).map (Prod.map (· + 1) id) := by
  induction tree using by_children generalizing depth with
  | node label children ih =>
    rw [traversal, traversal, List.map_cons, traversalAll_eq_flatMap, traversalAll_eq_flatMap, List.map_flatMap]
    refine congrArg₂ _ rfl (List.flatMap_congr ?_)
    intro child member
    exact ih child member (depth + 1)

theorem preorder_node (label : Label T N) (children : List (Tree T N)) :
    (node label children).preorder =
      (0, node label children) :: children.flatMap fun child => child.preorder.map (Prod.map (· + 1) id) := by
  rw [preorder_eq_traversal, traversal, traversalAll_eq_flatMap]
  refine congrArg _ (List.flatMap_congr ?_)
  intro child _
  rw [preorder_eq_traversal]
  exact traversal_succ 0 child

/-! Outlines. -/

/-- The outline of a tree at some depth. -/
def outlineAt (depth : Nat) (tree : Tree T N) : List (Nat × Label T N) :=
  (traversal depth tree).map fun entry => (entry.1, entry.2.label)

theorem outlineAt_node (depth : Nat) (label : Label T N) (children : List (Tree T N)) :
    outlineAt depth (node label children) = (depth, label) :: children.flatMap (outlineAt (depth + 1)) := by
  rw [outlineAt, traversal, List.map_cons, traversalAll_eq_flatMap, List.map_flatMap]
  rfl

theorem outline_eq (tree : Tree T N) : tree.outline = outlineAt 0 tree := by
  rw [outline, preorder_eq_traversal, outlineAt]

/-- The children of a label lie deeper than what follows them. -/
theorem graft_children {depth : Nat} (label : Label T N) (children : List (Tree T N)) {forest : List (Nat × Tree T N)}
    (shallow : ∀ entry ∈ forest.head?, entry.1 ≤ depth) :
    graft (depth, label) (children.map (depth + 1, ·) ++ forest) = (depth, node label children) :: forest := by
  have deeper : ∀ entry ∈ children.map (depth + 1, ·), decide (depth < entry.1) = true := by
    intro entry member
    obtain ⟨child, _, rfl⟩ := List.mem_map.mp member
    exact decide_eq_true (Nat.lt_succ_self depth)
  have stops : forest.takeWhile (fun entry => decide (depth < entry.1)) = [] ∧
      forest.dropWhile (fun entry => decide (depth < entry.1)) = forest := by
    cases forest with
    | nil => exact ⟨rfl, rfl⟩
    | cons entry rest =>
      have outside : ¬ decide (depth < entry.1) = true := by
        have bound := shallow entry rfl
        simpa using bound
      exact ⟨List.takeWhile_cons_of_neg outside, List.dropWhile_cons_of_neg outside⟩
  simp only [graft, List.takeWhile_append_of_pos deeper, List.dropWhile_append_of_pos deeper, stops, List.append_nil]
  rw [List.map_map]
  exact congrArg (fun trees => (depth, node label trees) :: forest) (List.map_id children)

/-- Reading an outline from its end puts the tree in front of what has been read. Each child finds its right siblings
in front, which lie as deep as itself, or else what follows the node. -/
theorem foldr_graft_outlineAt (tree : Tree T N) {depth : Nat} {forest : List (Nat × Tree T N)}
    (shallow : ∀ entry ∈ forest.head?, entry.1 ≤ depth) :
    (outlineAt depth tree).foldr graft forest = (depth, tree) :: forest := by
  induction tree using by_children generalizing depth forest with
  | node label children ih =>
    have row : (children.flatMap (outlineAt (depth + 1))).foldr graft forest =
        children.map (depth + 1, ·) ++ forest := by
      induction children with
      | nil => rfl
      | cons child rest row =>
        obtain ⟨here, later⟩ := List.forall_mem_cons.mp ih
        rw [List.flatMap_cons, List.foldr_append, row fun other member => later other member]
        apply here
        intro entry first
        cases rest with
        | nil => exact (shallow entry first).trans (Nat.le_succ depth)
        | cons next rest =>
          cases first
          exact Nat.le_refl _
    rw [outlineAt_node, List.foldr_cons, row, graft_children label children shallow]

/-- An outline says all there is to say of a tree. -/
theorem ofOutline?_outline (tree : Tree T N) : ofOutline? tree.outline = some tree := by
  have none : ∀ entry ∈ ([] : List (Nat × Tree T N)).head?, entry.1 ≤ 0 := fun _ absent => nomatch absent
  rw [ofOutline?, outline_eq, foldr_graft_outlineAt tree none]
  rfl

/-- The walk over a tree takes each node before those of its children, and the children from left to right. It comes
to every address of the tree once, in the order of a dictionary, and says for each node its depth and the subtree under
it. The size of a tree is the number of its nodes, and its leaves are the terminals from left to right. The labels of
the nodes and their depths determine the tree. -/
theorem preorder_lossless (tree : Tree T N) :
    (tree.preorder =
      (0, tree) :: tree.children.flatMap fun child => child.preorder.map (Prod.map (· + 1) id)) ∧
    (∃ addresses : List (List Nat), addresses.Pairwise (List.Lex (· < ·)) ∧
      (∀ address, address ∈ addresses ↔ (tree.at? address).isSome = true) ∧
      List.Forall₂ (fun address entry => entry.1 = address.length ∧ tree.at? address = some entry.2) addresses
        tree.preorder ∧
      tree.size = addresses.length) ∧
    tree.leaves = ownLeaf tree.sign ++ tree.children.flatMap leaves ∧
    ∀ other : Tree T N, tree.outline = other.outline → tree = other := by
  have aligned := forall₂_addresses_preorder tree
  refine ⟨?_, ⟨tree.addresses, pairwise_addresses tree, fun _ => mem_addresses, aligned, aligned.length_eq.symm⟩, ?_, ?_⟩
  · cases tree
    exact preorder_node _ _
  · cases tree
    exact leaves_node _ _
  · intro other same
    have read := ofOutline?_outline tree
    rw [same, ofOutline?_outline] at read
    exact (Option.some.inj read).symm

/-- A list of words, each of which stands beside the list of those behind it. -/
def wordList (line : Nat) : List String → Tree Nat Nat
  | [] => node ⟨.nonTerminal 0, some 1, none, line⟩ []
  | word :: rest =>
    node ⟨.nonTerminal 0, some 0, none, line⟩ [node ⟨.terminal 0, none, some word, line⟩ [], wordList (line + 1) rest]

/-- Two words, written out. -/
def twoWords : Tree Nat Nat :=
  let leaf (word : String) (line : Nat) : Tree Nat Nat := node ⟨.terminal 0, none, some word, line⟩ []
  node ⟨.nonTerminal 0, some 0, none, 1⟩
    [leaf "a" 1, node ⟨.nonTerminal 0, some 0, none, 2⟩ [leaf "b" 2, node ⟨.nonTerminal 0, some 1, none, 3⟩ []]]

theorem preorder_lossless_twoWords :
    twoWords.outline = (wordList 1 ["a", "b"]).outline ∧ twoWords = wordList 1 ["a", "b"] ∧
      twoWords.outline.map Prod.fst = [0, 1, 1, 2, 2] := by
  obtain ⟨_, _, _, unique⟩ := preorder_lossless twoWords
  have same : twoWords.outline = (wordList 1 ["a", "b"]).outline := by
    rw [outline_eq, outline_eq]
    rfl
  refine ⟨same, unique _ same, ?_⟩
  rw [outline_eq]
  rfl

end Minuscule.Tree
