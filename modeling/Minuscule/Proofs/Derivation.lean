import Minuscule.Proofs.Traversal
import Mathlib.Logic.Relation

/-!
Derivations of a grammar, apart from tables and parsers. One rewriting step replaces a non-terminal by
the right-hand side of one of its productions, anywhere in a sequence of signs; a derivation is any
number of steps. A word can be derived from a sequence exactly when conforming trees stand over the word
whose signs spell out the sequence.
-/

namespace Minuscule.Grammar
variable {T N : Type} {grammar : Grammar T N}

/-- One step of rewriting. -/
def Rewrites (grammar : Grammar T N) (before after : List (Sign T N)) : Prop :=
  ∃ front production back, production ∈ grammar.productions ∧
    before = front ++ .nonTerminal production.left :: back ∧ after = front ++ production.right ++ back

/-- Any number of steps of rewriting. -/
def Derives (grammar : Grammar T N) : List (Sign T N) → List (Sign T N) → Prop :=
  Relation.ReflTransGen grammar.Rewrites

/-- The words of a grammar. -/
def Accepts (grammar : Grammar T N) (word : List T) : Prop :=
  grammar.Derives [.nonTerminal grammar.start] (word.map .terminal)

theorem Rewrites.inside {before after : List (Sign T N)} (step : grammar.Rewrites before after)
    (front back : List (Sign T N)) : grammar.Rewrites (front ++ before ++ back) (front ++ after ++ back) := by
  obtain ⟨inner, production, outer, member, rfl, rfl⟩ := step
  exact ⟨front ++ inner, production, outer ++ back, member, by simp, by simp⟩

theorem Derives.inside {before after : List (Sign T N)} (derived : grammar.Derives before after)
    (front back : List (Sign T N)) : grammar.Derives (front ++ before ++ back) (front ++ after ++ back) := by
  induction derived with
  | refl => exact .refl
  | tail _ step ih => exact ih.tail (step.inside front back)

theorem Derives.append {before before' after after' : List (Sign T N)} (left : grammar.Derives before after)
    (right : grammar.Derives before' after') : grammar.Derives (before ++ before') (after ++ after') := by
  have first := left.inside [] before'
  have second := right.inside after []
  simp only [List.nil_append, List.append_nil] at first second
  exact first.trans second

theorem Derives.cons (sign : Sign T N) {before after : List (Sign T N)} (derived : grammar.Derives before after) :
    grammar.Derives (sign :: before) (sign :: after) := by
  have place := derived.inside [sign] []
  simpa using place

theorem derives_right {production : Production T N} (member : production ∈ grammar.productions) :
    grammar.Derives [.nonTerminal production.left] production.right :=
  .single ⟨[], production, [], member, by simp, by simp⟩

/-- What the signs of a sequence derive one by one, they derive side by side. -/
theorem derives_flatMap {α : Type} {items : List α} {sign : α → Sign T N} {below : α → List (Sign T N)}
    (each : ∀ item ∈ items, grammar.Derives [sign item] (below item)) :
    grammar.Derives (items.map sign) (items.flatMap below) := by
  induction items with
  | nil => exact .refl
  | cons item rest ih =>
    have head := each item (List.mem_cons_self ..)
    have tail := ih fun other member => each other (List.mem_cons_of_mem _ member)
    rw [List.map_cons, List.flatMap_cons]
    exact head.append tail

theorem derives_of_forest {forest : List (Tree T N)}
    (each : ∀ tree ∈ forest, grammar.Derives [tree.sign] (tree.leaves.map .terminal)) :
    grammar.Derives (forest.map Tree.sign) ((forest.flatMap Tree.leaves).map .terminal) := by
  rw [List.map_flatMap]
  exact derives_flatMap each

section Trees
variable [DecidableEq T] [DecidableEq N]

/-- Conforming trees that spell out a sequence of signs. -/
structure Spells (grammar : Grammar T N) (forest : List (Tree T N)) (signs : List (Sign T N)) : Prop where
  signs : forest.map Tree.sign = signs
  conforms : ∀ tree ∈ forest, tree.conforms grammar = true

theorem derives_of_tree (tree : Tree T N) (conforming : tree.conforms grammar = true) :
    grammar.Derives [tree.sign] (tree.leaves.map .terminal) := by
  induction tree using Tree.by_children with
  | node label children ih =>
    rw [Tree.leaves_node]
    change grammar.Derives [label.sign] _
    rcases Tree.conforms_cases conforming with
      ⟨kind, signed, _, rfl⟩ | ⟨index, production, signed, _, found, right, below⟩
    · rw [signed]
      exact .refl
    · have root := derives_right (List.mem_of_getElem? found)
      have rest := derives_of_forest fun child member => ih child member (below child member)
      rw [right] at root
      rw [signed]
      exact root.trans rest

/-- A rewriting step is undone on trees: the trees over the right-hand side get a common root. -/
theorem forest_of_rewrites {before after : List (Sign T N)} {forest : List (Tree T N)}
    (step : grammar.Rewrites before after) (spells : grammar.Spells forest after) :
    ∃ folded, grammar.Spells folded before ∧ folded.flatMap Tree.leaves = forest.flatMap Tree.leaves := by
  obtain ⟨front, production, back, member, rfl, rfl⟩ := step
  obtain ⟨signs, conforms⟩ := spells
  obtain ⟨frontChildren, backTrees, rfl, frontSigns, backSigns⟩ := List.map_eq_append_iff.mp signs
  obtain ⟨frontTrees, children, rfl, frontSigns, right⟩ := List.map_eq_append_iff.mp frontSigns
  obtain ⟨index, found⟩ := List.getElem?_of_mem member
  have root : (Tree.node ⟨.nonTerminal production.left, some index, none, 0⟩ children).conforms grammar = true :=
    Tree.conforms_expanded rfl rfl found right.symm fun child inside => conforms child (by simp [inside])
  refine ⟨frontTrees ++ .node ⟨.nonTerminal production.left, some index, none, 0⟩ children :: backTrees, ⟨?_, ?_⟩, ?_⟩
  · rw [List.map_append, List.map_cons, frontSigns, backSigns]
    rfl
  · intro tree inside
    rcases List.mem_append.mp inside with early | late
    · exact conforms tree (by simp [early])
    · rcases List.mem_cons.mp late with rfl | later
      · exact root
      · exact conforms tree (by simp [later])
  · simp [Tree.leaves_node, Tree.ownLeaf]

theorem forest_of_derives {signs : List (Sign T N)} {word : List T}
    (derived : grammar.Derives signs (word.map .terminal)) :
    ∃ forest, grammar.Spells forest signs ∧ forest.flatMap Tree.leaves = word := by
  induction derived using Relation.ReflTransGen.head_induction_on with
  | refl =>
    refine ⟨word.map fun kind => .node ⟨.terminal kind, none, none, 0⟩ [], ⟨?_, ?_⟩, ?_⟩
    · rw [List.map_map]
      rfl
    · intro tree member
      obtain ⟨kind, _, rfl⟩ := List.mem_map.mp member
      exact Tree.conforms_leaf rfl rfl
    · simp [List.flatMap_map, Tree.leaves_node, Tree.ownLeaf]
  | head step _ ih =>
    obtain ⟨forest, spells, leaves⟩ := ih
    obtain ⟨folded, spells, same⟩ := forest_of_rewrites step spells
    exact ⟨folded, spells, same.trans leaves⟩

/-- The words of a grammar are the leaves of the conforming trees over its start symbol. -/
theorem accepts_iff_tree {word : List T} :
    grammar.Accepts word ↔ ∃ tree : Tree T N,
      tree.sign = .nonTerminal grammar.start ∧ tree.conforms grammar = true ∧ tree.leaves = word := by
  constructor
  · intro accepted
    obtain ⟨forest, ⟨signs, conforms⟩, leaves⟩ := forest_of_derives accepted
    obtain ⟨tree, rfl, signed⟩ := List.map_eq_singleton_iff.mp signs
    refine ⟨tree, signed, conforms tree (by simp), ?_⟩
    simpa using leaves
  · rintro ⟨tree, signed, conforming, rfl⟩
    have derived := derives_of_tree tree conforming
    rwa [signed] at derived

end Trees

end Minuscule.Grammar
