import Minuscule.Proofs.Declaring

/-!
The tree of a program as the row of its definitions. None of them lies inside another, and the program that the tree
stands for lists them in their order. Evaluated one after the other, each adds a segment to the code, and the code is
made up of these segments.
-/

namespace Minuscule

open Minuscule.Action

namespace Language

/-- The rule of a conforming non-terminal, and the children that it asks for. -/
theorem expansion {label : Label Terminal NonTerminal} {children : List ParseTree} {kind : NonTerminal}
    (conforming : (Tree.node label children).conforms grammar = true) (signed : label.sign = .nonTerminal kind) :
    ∃ rule, rule.production.left = kind ∧ label.production.bind Rule.ofIndex? = some rule ∧
      Phrase.ofTree (.node label children) = Phrase.ofRule rule (children.map Phrase.ofTree) ∧
      children.map Tree.sign = rule.production.right ∧ ∀ child ∈ children, child.conforms grammar = true := by
  rcases conforms_cases conforming with ⟨kind, terminal, _⟩ | ⟨rule, expanded, known, right, below⟩
  · cases terminal.symm.trans signed
  · cases expanded.symm.trans signed
    exact ⟨rule, rfl, known, Phrase.ofTree_rule expanded known children, right.symm, below⟩

end Language

/-- The signs above the definitions of a program, and of a definition itself. -/
def NonTerminal.isOuter : NonTerminal → Bool
  | .program | .defineList | .define => true
  | _ => false

def Sign.isOuter : Sign Terminal NonTerminal → Bool
  | .nonTerminal kind => kind.isOuter
  | _ => false

/-- Nothing below a definition leads back to definitions. -/
theorem Rule.right_inner {rule : Rule} (inner : rule.production.left.isOuter = false) :
    ∀ sign ∈ rule.production.right, sign.isOuter = false := by
  cases rule
  case program | defineList | defineListEmpty | define => cases inner
  all_goals simp [Rule.production, Sign.isOuter, NonTerminal.isOuter]

theorem Rule.eq_define {rule : Rule} (left : rule.production.left = .define) : rule = .define := by
  cases rule <;> first | rfl | cases left

theorem Rule.right_define : ∀ sign ∈ Rule.define.production.right, sign.isOuter = false := by
  simp [Rule.production, Sign.isOuter, NonTerminal.isOuter]

namespace Tree

/-- The definitions of a program in their order. -/
def definitions (tree : ParseTree) : List ParseTree :=
  tree.subtrees.filter (·.sign = .nonTerminal .define)

/-- The name that a definition gives to a function, if it defines one. -/
def functionName? (tree : ParseTree) : Option String :=
  match tree.children with
  | [_, name, follow] =>
    if follow.label.production.bind Rule.ofIndex? = some .defineTypeFun then some name.lexeme else none
  | _ => none

theorem definitions_children {tree : ParseTree} (other : tree.sign ≠ .nonTerminal .define) :
    tree.definitions = tree.children.flatMap definitions := by
  obtain ⟨label, children⟩ := tree
  rw [definitions, subtrees_node, List.filter_cons_of_neg (by simpa using other), List.filter_flatMap]
  rfl

theorem definitions_cons {tree : ParseTree} (signed : tree.sign = .nonTerminal .define) :
    tree.definitions = tree :: tree.children.flatMap definitions := by
  obtain ⟨label, children⟩ := tree
  rw [definitions, subtrees_node, List.filter_cons_of_pos (by simpa using signed), List.filter_flatMap]
  rfl

theorem definitions_of_inner {tree : ParseTree} (conforming : tree.conforms Language.grammar = true)
    (inner : tree.sign.isOuter = false) : tree.definitions = [] := by
  induction tree using by_children with
  | node label children ih =>
    have other : (node label children).sign ≠ .nonTerminal .define := by
      intro same
      rw [same] at inner
      cases inner
    rw [definitions_children other, List.flatMap_eq_nil_iff]
    intro child member
    rcases Language.conforms_cases conforming with ⟨_, _, rfl⟩ | ⟨rule, signed, _, right, below⟩
    · cases member
    · apply ih child member (below child member)
      have left : rule.production.left.isOuter = false := by
        change label.sign.isOuter = false at inner
        rwa [signed] at inner
      exact Rule.right_inner left child.sign (right ▸ List.mem_map_of_mem member)

theorem definitions_define {tree : ParseTree} (conforming : tree.conforms Language.grammar = true)
    (signed : tree.sign = .nonTerminal .define) : tree.definitions = [tree] := by
  obtain ⟨label, children⟩ := tree
  obtain ⟨rule, left, _, _, right, below⟩ := Language.expansion conforming signed
  rw [Rule.eq_define left] at right
  rw [definitions_cons signed, List.cons_inj_right, List.flatMap_eq_nil_iff]
  intro child member
  apply definitions_of_inner (below child member)
  exact Rule.right_define child.sign (right ▸ List.mem_map_of_mem member)

theorem mem_definitions {tree definition : ParseTree} (conforming : tree.conforms Language.grammar = true)
    (member : definition ∈ tree.definitions) :
    definition.sign = .nonTerminal .define ∧ definition.conforms Language.grammar = true := by
  obtain ⟨inside, signed⟩ := List.mem_filter.mp member
  refine ⟨by simpa using signed, ?_⟩
  induction tree using by_children with
  | node label children ih =>
    rw [subtrees_node] at inside
    rcases List.mem_cons.mp inside with rfl | below
    · exact conforming
    · obtain ⟨child, listed, within⟩ := List.mem_flatMap.mp below
      have fits := ((conforms_node label children).mp conforming).2 child listed
      exact ih child listed fits (List.mem_filter.mpr ⟨within, signed⟩) within

end Tree

/-- The name of the function that a definition defines. -/
def Definition.functionName? : Definition → Option String
  | ⟨_, .datum _⟩ => none
  | ⟨declarator, .function ..⟩ => some declarator.subject.name

/-- The definition that a tree stands for. -/
def Definition.ofTree (tree : ParseTree) : Definition :=
  (Phrase.ofTree tree).definition

namespace Phrase

/-- The program of a row of definitions lists them. -/
theorem program_eq_map {tree : ParseTree} (conforming : tree.conforms Language.grammar = true)
    (signed : tree.sign = .nonTerminal .program ∨ tree.sign = .nonTerminal .defineList) :
    (ofTree tree).program = tree.definitions.map Definition.ofTree := by
  induction tree using Tree.by_children with
  | node label children ih =>
    have other : (Tree.node label children).sign ≠ .nonTerminal .define := by
      intro same
      rw [same] at signed
      simp at signed
    obtain ⟨kind, sort, outer⟩ : ∃ kind, label.sign = .nonTerminal kind ∧ (kind = .program ∨ kind = .defineList) := by
      rcases signed with signed | signed
      · exact ⟨_, signed, .inl rfl⟩
      · exact ⟨_, signed, .inr rfl⟩
    obtain ⟨rule, rfl, _, phrase, right, below⟩ := Language.expansion conforming sort
    rw [phrase, Tree.definitions_children other]
    change (ofRule rule (children.map ofTree)).program = (children.flatMap Tree.definitions).map _
    cases rule
    case program =>
      obtain ⟨list, rfl, listed⟩ := List.map_eq_singleton_iff.mp right
      have inner := ih list (List.mem_singleton_self _) (below _ (List.mem_singleton_self _)) (.inr listed)
      rw [List.flatMap_singleton, ← inner]
      rfl
    case defineList =>
      obtain ⟨first, _, rfl, here, right⟩ := List.map_eq_cons_iff.mp right
      obtain ⟨rest, rfl, listed⟩ := List.map_eq_singleton_iff.mp right
      have inner := ih rest (by simp) (below rest (by simp)) (.inr listed)
      rw [List.flatMap_cons, List.flatMap_singleton, Tree.definitions_define (below first (by simp)) here]
      exact congrArg (Definition.ofTree first :: ·) inner
    case defineListEmpty =>
      cases List.map_eq_nil_iff.mp right
      rfl
    all_goals simp [Rule.production] at outer

/-- The form below a definition is a function where the tree says so. -/
theorem form_cases {tree : ParseTree} (conforming : tree.conforms Language.grammar = true)
    (signed : tree.sign = .nonTerminal .defineType) :
    (tree.label.production.bind Rule.ofIndex? = some .defineTypeFun ∧
      ∃ params locals body, (ofTree tree).form = .function params locals body) ∨
    (tree.label.production.bind Rule.ofIndex? ≠ some .defineTypeFun ∧
      ∃ length, (ofTree tree).form = .datum length) := by
  obtain ⟨label, children⟩ := tree
  obtain ⟨rule, left, known, phrase, right, below⟩ := Language.expansion conforming signed
  rw [phrase]
  change (label.production.bind Rule.ofIndex? = _ ∧ _) ∨ (label.production.bind Rule.ofIndex? ≠ _ ∧ _)
  rw [known]
  cases rule
  case defineTypeVar => exact .inr ⟨by simp, _, rfl⟩
  case defineTypeFun =>
    obtain ⟨follow, rfl, sort⟩ := List.map_eq_singleton_iff.mp right
    obtain ⟨own, inside⟩ := follow
    obtain ⟨inner, innerLeft, _, innerPhrase, _⟩ := Language.expansion (below _ (List.mem_singleton_self _)) sort
    have same : inner = .funDefineFollow := by
      cases inner <;> first | rfl | cases innerLeft
    refine .inl ⟨rfl, ?_⟩
    change ∃ params locals body, (ofTree (.node own inside)).form = _
    rw [innerPhrase, same]
    exact ⟨_, _, _, rfl⟩
  all_goals cases left

end Phrase

theorem Program.ofTree_eq_map {tree : ParseTree} (conforming : tree.conforms Language.grammar = true)
    (rooted : tree.sign = .nonTerminal .program) : Program.ofTree tree = tree.definitions.map Definition.ofTree :=
  Phrase.program_eq_map conforming (.inl rooted)

theorem Tree.functionName?_eq {tree : ParseTree} (conforming : tree.conforms Language.grammar = true)
    (signed : tree.sign = .nonTerminal .define) :
    tree.functionName? = (Definition.ofTree tree).functionName? := by
  obtain ⟨label, children⟩ := tree
  obtain ⟨rule, left, _, phrase, right, below⟩ := Language.expansion conforming signed
  rw [Rule.eq_define left] at phrase right
  obtain ⟨type, _, rfl, _, right⟩ := List.map_eq_cons_iff.mp right
  obtain ⟨name, _, rfl, named, right⟩ := List.map_eq_cons_iff.mp right
  obtain ⟨follow, rfl, sort⟩ := List.map_eq_singleton_iff.mp right
  have spelled : (Phrase.ofTree name).occurrence.name = name.lexeme := by
    obtain ⟨own, inside⟩ := name
    have leaf : own.sign = .terminal .ident := named
    rw [Phrase.ofTree_terminal leaf]
    rfl
  rw [Definition.ofTree, phrase]
  change (if _ then _ else _) =
    Definition.functionName? ⟨⟨(Phrase.ofTree name).occurrence, _⟩, (Phrase.ofTree follow).form⟩
  rcases Phrase.form_cases (below follow (by simp)) sort with
    ⟨known, params, locals, body, form⟩ | ⟨other, length, form⟩
  · rw [if_pos known, form, Definition.functionName?, spelled]
  · rw [if_neg other, form, Definition.functionName?]

/-! What each definition adds to the code. -/

namespace Program

/-- The code of each definition, with the names that are left to it by those in front. -/
def segments (names : Names) : Program → List (List Instruction)
  | [] => []
  | definition :: rest => definition.code names :: segments (definition.names names) rest

theorem flatten_segments (program : Program) (names : Names) :
    (program.segments names).flatten = program.code names := by
  induction program generalizing names with
  | nil => rfl
  | cons definition rest ih => rw [segments, List.flatten_cons, ih, code]

end Program

namespace Evaluation

/-- The code of trees that are evaluated one after the other. -/
def contributions : List ParseTree → Action (List (List Instruction))
  | [] => return []
  | tree :: rest => do
    let found ← attributes tree {}
    let others ← contributions rest
    return found.code :: others

/-- What the definitions of a tree contribute to the code. -/
def segments (tree : ParseTree) : List (List Instruction) :=
  ((contributions tree.definitions).run .start).1

theorem run_contributions {trees : List ParseTree}
    (each : ∀ tree ∈ trees, tree.sign = .nonTerminal .define ∧ tree.conforms Language.grammar = true)
    (progress : Progress) :
    ((contributions trees).run progress).1 = Program.segments progress.names (trees.map Definition.ofTree) := by
  induction trees generalizing progress with
  | nil => rfl
  | cons tree rest ih =>
    obtain ⟨⟨signed, conforming⟩, later⟩ := List.forall_mem_cons.mp each
    have found : (attributes tree {}).run progress =
        (.ofCode (((Definition.ofTree tree).form.elaborate (some (Definition.ofTree tree).declarator)).run progress).1,
          (((Definition.ofTree tree).form.elaborate (some (Definition.ofTree tree).declarator)).run progress).2) := by
      rw [Phrase.attributes_ofTree tree conforming, signed]
      rfl
    rw [Definition.run_elaborate] at found
    rw [contributions, run_bind, found, run_bind]
    change _ :: ((contributions rest).run _).1 = _
    rw [ih later]
    rfl

theorem segments_eq {tree : ParseTree} (conforming : tree.conforms Language.grammar = true)
    (rooted : tree.sign = .nonTerminal .program) : segments tree = Program.segments .fresh (Program.ofTree tree) := by
  rw [Program.ofTree_eq_map conforming rooted]
  exact run_contributions (fun definition => Tree.mem_definitions conforming) .start

/-- The code of a program is what its definitions contribute, in their order. -/
theorem code_eq_flatten_segments {tree : ParseTree} (conforming : tree.conforms Language.grammar = true)
    (rooted : tree.sign = .nonTerminal .program) : (ofTree tree).code = (segments tree).flatten := by
  rw [segments_eq conforming rooted, Program.flatten_segments, ofTree_eq_program conforming rooted]

end Evaluation

end Minuscule
