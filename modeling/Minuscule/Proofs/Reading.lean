import Minuscule.Proofs.Definitions
import Minuscule.Proofs.Spelling

/-!
A program is read off its tokens alone. Trees of one form with the same leaves stand for the same phrase, whatever
lines their inner nodes have, and the tokens decide the form. Any row of definitions makes up the tree of a program, so
that the tokens of definitions in a row are parsed, and are read as these definitions and no others.
-/

namespace Minuscule

namespace Phrase

/-- Together with its form, the leaves in front of any text decide the phrase of a tree, and where they end. -/
def ReadBy (tree : ParseTree) : Prop :=
  ∀ (other : ParseTree) (rest rest' : List (Label Terminal NonTerminal)), tree.skeleton = other.skeleton →
    tree.leafLabels ++ rest = other.leafLabels ++ rest' → ofTree tree = ofTree other ∧ rest = rest'

theorem readBy_forest {forest others : List ParseTree} (each : ∀ tree ∈ forest, ReadBy tree)
    (forms : forest.map Tree.skeleton = others.map Tree.skeleton) {rest rest' : List (Label Terminal NonTerminal)}
    (labels : forest.flatMap Tree.leafLabels ++ rest = others.flatMap Tree.leafLabels ++ rest') :
    forest.map ofTree = others.map ofTree ∧ rest = rest' := by
  induction forest generalizing others with
  | nil =>
    cases List.map_eq_nil_iff.mp forms.symm
    exact ⟨rfl, labels⟩
  | cons tree forest ih =>
    obtain ⟨here, later⟩ := List.forall_mem_cons.mp each
    obtain ⟨other, others, rfl, form, forms⟩ := List.map_eq_cons_iff.mp forms.symm
    rw [List.flatMap_cons, List.flatMap_cons, List.append_assoc, List.append_assoc] at labels
    obtain ⟨phrase, behind⟩ := here other _ _ form.symm labels
    obtain ⟨phrases, behind⟩ := ih later forms.symm behind
    exact ⟨by rw [List.map_cons, List.map_cons, phrase, phrases], behind⟩

theorem readBy (tree : ParseTree) : ReadBy tree := by
  induction tree using Tree.by_children with
  | node label children ih =>
    rintro ⟨label', children'⟩ rest rest' form labels
    obtain ⟨sign, production, lexeme, line⟩ := label
    obtain ⟨sign', production', lexeme', line'⟩ := label'
    rw [Tree.skeleton, Tree.skeleton, Tree.node.injEq, Label.mk.injEq, Tree.skeletons_eq_map,
      Tree.skeletons_eq_map] at form
    obtain ⟨⟨rfl, rfl, _⟩, forms⟩ := form
    rw [Tree.leafLabels_node, Tree.leafLabels_node, List.append_assoc, List.append_assoc] at labels
    have inside : children.flatMap Tree.leafLabels ++ rest = children'.flatMap Tree.leafLabels ++ rest' := by
      cases sign with
      | terminal kind => exact (List.cons.inj labels).2
      | _ => exact labels
    obtain ⟨phrases, behind⟩ := readBy_forest ih forms inside
    refine ⟨?_, behind⟩
    cases sign with
    | terminal kind =>
      obtain ⟨_, _, rfl, rfl⟩ := Label.mk.inj (List.cons.inj labels).1
      rw [ofTree_terminal rfl, ofTree_terminal rfl]
    | _ => simp only [ofTree, ofTrees_eq_map, phrases]

end Phrase

theorem Tree.leaves_of_leafLabels {tree other : ParseTree} (labels : tree.leafLabels = other.leafLabels) :
    tree.leaves = other.leaves := by
  apply List.map_injective_iff.mpr fun (one two : Terminal) (same : Sign.terminal one = .terminal two) =>
    Sign.terminal.inj same
  rw [tree.leaves_eq_leafLabels, other.leaves_eq_leafLabels, labels]

/-- Trees of programs with the same leaves stand for the same phrase. -/
theorem Phrase.ofTree_unique {tree other : ParseTree} (rooted : tree.sign = .nonTerminal .program)
    (conforming : tree.conforms Language.grammar = true) (rooted' : other.sign = .nonTerminal .program)
    (conforming' : other.conforms Language.grammar = true) (labels : tree.leafLabels = other.leafLabels) :
    ofTree tree = ofTree other := by
  have form := Parser.skeleton_unique Language.grammar_valid Language.parser_built rooted conforming rooted'
    conforming' (Tree.leaves_of_leafLabels labels)
  exact (readBy tree other [] [] form (by rw [labels])).1

/-! Trees from rules. -/

theorem Rule.ofIndex?_index (rule : Rule) : ofIndex? rule.index = some rule := by
  cases rule <;> rfl

namespace Tree

/-- A node over children. -/
def ofRule (rule : Rule) (children : List ParseTree) : ParseTree :=
  .node ⟨.nonTerminal rule.production.left, some rule.index, none, 1⟩ children

theorem conforms_ofRule {rule : Rule} {children : List ParseTree} (right : children.map sign = rule.production.right)
    (below : ∀ child ∈ children, child.conforms Language.grammar = true) :
    (ofRule rule children).conforms Language.grammar = true := by
  refine conforms_expanded rfl rfl ?_ right.symm below
  rw [Language.productions_getElem?, Rule.ofIndex?_index]
  rfl

theorem leafLabels_ofRule (rule : Rule) (children : List ParseTree) :
    (ofRule rule children).leafLabels = children.flatMap leafLabels := by
  rw [ofRule, leafLabels_node]
  rfl

/-- The tree of a definition. -/
structure Defines (tree : ParseTree) : Prop where
  signed : tree.sign = .nonTerminal .define
  conforming : tree.conforms Language.grammar = true

def rowOf : List ParseTree → ParseTree
  | [] => ofRule .defineListEmpty []
  | definition :: rest => ofRule .defineList [definition, rowOf rest]

/-- The tree of a program with these definitions. -/
def programOf (definitions : List ParseTree) : ParseTree :=
  ofRule .program [rowOf definitions]

theorem sign_rowOf (definitions : List ParseTree) : (rowOf definitions).sign = .nonTerminal .defineList := by
  cases definitions <;> rfl

theorem conforms_rowOf {definitions : List ParseTree} (each : ∀ definition ∈ definitions, definition.Defines) :
    (rowOf definitions).conforms Language.grammar = true := by
  induction definitions with
  | nil => exact conforms_ofRule rfl (by simp)
  | cons definition rest ih =>
    obtain ⟨here, later⟩ := List.forall_mem_cons.mp each
    apply conforms_ofRule
    · rw [List.map_cons, List.map_singleton, here.signed, sign_rowOf]
      rfl
    · simp [here.conforming, ih later]

theorem conforms_programOf {definitions : List ParseTree} (each : ∀ definition ∈ definitions, definition.Defines) :
    (programOf definitions).conforms Language.grammar = true := by
  apply conforms_ofRule
  · rw [List.map_singleton, sign_rowOf]
    rfl
  · simp [conforms_rowOf each]

theorem leafLabels_rowOf (definitions : List ParseTree) :
    (rowOf definitions).leafLabels = definitions.flatMap leafLabels := by
  induction definitions with
  | nil => exact leafLabels_ofRule _ _
  | cons definition rest ih =>
    rw [rowOf, leafLabels_ofRule, List.flatMap_cons, List.flatMap_singleton, ih, List.flatMap_cons]

theorem leafLabels_programOf (definitions : List ParseTree) :
    (programOf definitions).leafLabels = definitions.flatMap leafLabels := by
  rw [programOf, leafLabels_ofRule, List.flatMap_singleton, leafLabels_rowOf]

theorem defines_of_mem {tree : ParseTree} (conforming : tree.conforms Language.grammar = true) :
    ∀ definition ∈ tree.definitions, definition.Defines := by
  intro definition member
  obtain ⟨signed, fits⟩ := mem_definitions conforming member
  exact ⟨signed, fits⟩

/-- All tokens of a program are tokens of its definitions. -/
theorem leafLabels_definitions {tree : ParseTree} (conforming : tree.conforms Language.grammar = true)
    (signed : tree.sign = .nonTerminal .program ∨ tree.sign = .nonTerminal .defineList) :
    tree.definitions.flatMap leafLabels = tree.leafLabels := by
  induction tree using by_children with
  | node label children ih =>
    obtain ⟨kind, sort, outer⟩ : ∃ kind, label.sign = .nonTerminal kind ∧ (kind = .program ∨ kind = .defineList) := by
      rcases signed with signed | signed
      · exact ⟨_, signed, .inl rfl⟩
      · exact ⟨_, signed, .inr rfl⟩
    have other : (node label children).sign ≠ .nonTerminal .define := by
      change label.sign ≠ _
      rw [sort]
      rcases outer with rfl | rfl <;> simp
    obtain ⟨rule, rfl, _, _, right, below⟩ := Language.expansion conforming sort
    rw [definitions_children other, leafLabels_node, sort, List.flatMap_assoc]
    apply List.flatMap_congr
    intro child member
    by_cases definition : child.sign = .nonTerminal .define
    · rw [definitions_define (below child member) definition, List.flatMap_singleton]
    · apply ih child member (below child member)
      have listed : child.sign ∈ rule.production.right := right ▸ List.mem_map_of_mem member
      cases rule
      case program => exact .inr (List.mem_singleton.mp listed)
      case defineList =>
        rcases List.mem_cons.mp listed with same | later
        · exact absurd same definition
        · exact .inr (List.mem_singleton.mp later)
      case defineListEmpty => cases listed
      all_goals simp [Rule.production] at outer

end Tree

theorem Phrase.ofTree_ofRule (rule : Rule) (children : List ParseTree) :
    ofTree (Tree.ofRule rule children) = ofRule rule (children.map ofTree) := by
  have known : (some rule.index).bind Rule.ofIndex? = some rule := rule.ofIndex?_index
  exact ofTree_rule rfl known children

section Rows
variable {definitions others : List ParseTree}

theorem Phrase.program_programOf (definitions : List ParseTree) :
    (ofTree (Tree.programOf definitions)).program = definitions.map Definition.ofTree := by
  have row : (ofTree (Tree.rowOf definitions)).program = definitions.map Definition.ofTree := by
    induction definitions with
    | nil => rfl
    | cons definition rest ih =>
      rw [Tree.rowOf, ofTree_ofRule]
      exact congrArg (Definition.ofTree definition :: ·) ih
  rw [Tree.programOf, ofTree_ofRule, ← row]
  rfl

/-- Rows of definitions with the same tokens are read the same way. -/
theorem Definition.ofTree_unique (each : ∀ definition ∈ definitions, definition.Defines)
    (each' : ∀ definition ∈ others, definition.Defines)
    (labels : definitions.flatMap Tree.leafLabels = others.flatMap Tree.leafLabels) :
    definitions.map Definition.ofTree = others.map Definition.ofTree := by
  rw [← Phrase.program_programOf, ← Phrase.program_programOf]
  apply congrArg Phrase.program
  apply Phrase.ofTree_unique rfl (Tree.conforms_programOf each) rfl (Tree.conforms_programOf each')
  rw [Tree.leafLabels_programOf, Tree.leafLabels_programOf, labels]

/-- The tokens of definitions in a row are parsed, and are read as these definitions. -/
theorem Language.parse_definitions (each : ∀ definition ∈ definitions, definition.Defines)
    {tokens : List (Token Terminal)}
    (labels : definitions.flatMap Tree.leafLabels = tokens.map (Token.label NonTerminal)) :
    ∃ tree, parser.parse tokens = .ok tree ∧ Program.ofTree tree = definitions.map Definition.ofTree := by
  have conforming := Tree.conforms_programOf each
  have spelled : (Tree.programOf definitions).leafLabels = tokens.map (Token.label NonTerminal) := by
    rw [Tree.leafLabels_programOf, labels]
  obtain ⟨tree, parsed⟩ := Parser.parse_of_tree grammar_valid parser_built rfl conforming
    (Parser.leaves_of_leafLabels spelled).symm
  obtain ⟨rooted, fits, own⟩ := parse_tree parsed
  refine ⟨tree, parsed, ?_⟩
  rw [Program.ofTree, Phrase.ofTree_unique rooted fits rfl conforming (own.trans spelled.symm),
    Phrase.program_programOf]

end Rows

end Minuscule
