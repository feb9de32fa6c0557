import Minuscule.Proofs.Locality
import Minuscule.Proofs.ViablePrefix

/-!
Variables leave no trace in the code. A program from which definitions of variables are deleted, global or local ones,
is still parsed, and it is read as the same functions with the same bodies. The symbols then differ everywhere and with
them the errors, but the code and the numbers of the names in it depend on neither.
-/

namespace Minuscule

namespace Tree

/-- The definition of a local variable, or a global definition that goes on as that of a variable. -/
def isVariableDefinition (tree : ParseTree) : Bool :=
  match tree.sign, tree.children with
  | .nonTerminal .localVarDefine, _ => true
  | .nonTerminal .define, [_, _, follow] => follow.label.production.bind Rule.ofIndex? = some .defineTypeVar
  | _, _ => false

mutual

/-- The tokens of a tree without those of the variable definitions that are deleted. A node is named by the way to it
from the root: for each node on the way, its place among the children of the node above it. -/
def leafLabelsBut : ParseTree → (List Nat → Bool) → List (Label Terminal NonTerminal)
  | .node label children, deleted =>
    if deleted [] && (node label children).isVariableDefinition then []
    else (if label.sign.isTerminal then [label] else []) ++
      forestLabelsBut children fun place way => deleted (place :: way)

def forestLabelsBut : List ParseTree → (Nat → List Nat → Bool) → List (Label Terminal NonTerminal)
  | [], _ => []
  | tree :: rest, deleted =>
    tree.leafLabelsBut (deleted 0) ++ forestLabelsBut rest fun place => deleted (place + 1)

end

theorem sublist_forestLabelsBut {trees : List ParseTree}
    (each : ∀ tree ∈ trees, ∀ deleted, (leafLabelsBut tree deleted).Sublist tree.leafLabels)
    (deleted : Nat → List Nat → Bool) : (forestLabelsBut trees deleted).Sublist (trees.flatMap leafLabels) := by
  induction trees generalizing deleted with
  | nil => exact .slnil
  | cons tree rest ih =>
    obtain ⟨here, later⟩ := List.forall_mem_cons.mp each
    rw [forestLabelsBut, List.flatMap_cons]
    exact (here _).append (ih later _)

/-- Nothing is added and nothing changes its place. -/
theorem sublist_leafLabelsBut (tree : ParseTree) (deleted : List Nat → Bool) :
    (tree.leafLabelsBut deleted).Sublist tree.leafLabels := by
  induction tree using by_children generalizing deleted with
  | node label children ih =>
    rw [leafLabelsBut, leafLabels_node]
    split
    · exact List.nil_sublist _
    · exact (List.Sublist.refl _).append (sublist_forestLabelsBut ih _)

theorem isVariableDefinition_cases {tree : ParseTree} (defines : tree.isVariableDefinition = true) :
    tree.sign = .nonTerminal .localVarDefine ∨
      tree.sign = .nonTerminal .define ∧ tree.functionName? = none := by
  unfold isVariableDefinition at defines
  split at defines
  · next signed => exact .inl signed
  · next type name follow signed below =>
    refine .inr ⟨signed, ?_⟩
    rw [functionName?, below]
    simp only [decide_eq_true_eq] at defines
    simp [defines]
  · cases defines

end Tree

/-! Programs without their variables. -/

/-- A function without its local variables. -/
def Form.bare : Form → Form
  | .datum length => .datum length
  | .function params _ body => .function params [] body

def Definition.bare (definition : Definition) : Definition :=
  ⟨definition.declarator, definition.form.bare⟩

/-- The functions of a program, without variables. -/
def Program.bare (program : Program) : Program :=
  (program.filter (·.functionName?.isSome)).map Definition.bare

/-- What is left of a phrase without the variables that it defines. -/
def Phrase.bare (phrase : Phrase) : Phrase :=
  { phrase with
    locals := []
    form := phrase.form.bare
    definition := phrase.definition.bare
    program := phrase.program.bare }

theorem Form.bare_bare (form : Form) : form.bare.bare = form.bare := by
  cases form <;> rfl

theorem Definition.bare_bare (definition : Definition) : definition.bare.bare = definition.bare := by
  rw [bare, bare, Form.bare_bare]

theorem Definition.functionName?_bare (definition : Definition) :
    definition.bare.functionName? = definition.functionName? := by
  obtain ⟨declarator, length | ⟨params, locals, body⟩⟩ := definition <;> rfl

namespace Program

theorem bare_cons (definition : Definition) (rest : Program) :
    bare (definition :: rest) = if definition.functionName?.isSome then definition.bare :: rest.bare else rest.bare := by
  rw [bare, List.filter_cons]
  split <;> rfl

theorem bare_bare (program : Program) : program.bare.bare = program.bare := by
  induction program with
  | nil => rfl
  | cons definition rest ih =>
    rw [bare_cons]
    split
    · next function => rw [bare_cons, definition.functionName?_bare, if_pos function, definition.bare_bare, ih]
    · exact ih

/-- Neither the code of a program nor the names that it takes are those of variables. -/
theorem code_bare (program : Program) (names : Names) :
    program.bare.code names = program.code names ∧ Program.names names program.bare = Program.names names program := by
  induction program generalizing names with
  | nil => exact ⟨rfl, rfl⟩
  | cons definition rest ih =>
    obtain ⟨declarator, length | ⟨params, locals, body⟩⟩ := definition
    · exact ih names
    · obtain ⟨code, last⟩ := ih (names.advance body.temporaries body.labels)
      exact ⟨congrArg (.label declarator.subject.name :: body.code names ++ ·) code, last⟩

end Program

namespace Phrase

theorem getD_bare (children : List Phrase) (place : Nat) :
    (children.map bare).getD place {} = (children.getD place {}).bare := by
  rw [List.getD_eq_getElem?_getD, List.getD_eq_getElem?_getD, List.getElem?_map]
  cases children[place]? <;> rfl

/-- What variables the children define makes no difference to the rest of a phrase. -/
theorem bare_ofRule (rule : Rule) (children : List Phrase) :
    (ofRule rule (children.map bare)).bare = (ofRule rule children).bare := by
  cases rule
  all_goals simp only [ofRule, getD_bare]
  case program => simp only [bare, Program.bare_bare]
  case defineList =>
    simp only [bare, Program.bare_cons, Program.bare_bare, Definition.functionName?_bare, Definition.bare_bare]
  case define => simp only [bare, Definition.bare, Form.bare_bare]; rfl
  case defineTypeFun => simp only [bare, Form.bare_bare]
  all_goals rfl

end Phrase

/-! Trees. -/

theorem Rule.eq_defineList {rule : Rule} (listed : .nonTerminal .define ∈ rule.production.right) :
    rule = .defineList := by
  cases rule <;> simp [Rule.production] at listed ⊢

theorem Rule.eq_localDefineList {rule : Rule} (listed : .nonTerminal .localVarDefine ∈ rule.production.right) :
    rule = .localDefineList := by
  cases rule <;> simp [Rule.production] at listed ⊢

namespace Tree

/-- A tree over the tokens that are left, of the same sort, which stands for the same but for variables. -/
structure Thins (tree : ParseTree) (labels : List (Label Terminal NonTerminal)) (other : ParseTree) : Prop where
  signed : other.sign = tree.sign
  conforming : other.conforms Language.grammar = true
  labels : other.leafLabels = labels
  phrase : (Phrase.ofTree other).bare = (Phrase.ofTree tree).bare

/-- Trees in a row are thinned one by one. -/
theorem thins_forest {trees : List ParseTree} {deleted : Nat → List Nat → Bool}
    (each : ∀ place tree, trees[place]? = some tree → ∃ other, Thins tree (tree.leafLabelsBut (deleted place)) other) :
    ∃ others : List ParseTree, others.map sign = trees.map sign ∧
      (∀ other ∈ others, other.conforms Language.grammar = true) ∧
      others.flatMap leafLabels = forestLabelsBut trees deleted ∧
      (others.map Phrase.ofTree).map Phrase.bare = (trees.map Phrase.ofTree).map Phrase.bare := by
  induction trees generalizing deleted with
  | nil => exact ⟨[], rfl, by simp, rfl, rfl⟩
  | cons tree rest ih =>
    obtain ⟨other, thins⟩ := each 0 tree rfl
    obtain ⟨others, signs, conforming, labels, phrases⟩ := ih fun place => each (place + 1)
    refine ⟨other :: others, ?_, List.forall_mem_cons.mpr ⟨thins.conforming, conforming⟩, ?_, ?_⟩
    · rw [List.map_cons, List.map_cons, thins.signed, signs]
    · rw [List.flatMap_cons, forestLabelsBut, thins.labels, labels]
    · simp only [List.map_cons, thins.phrase, phrases]

/-- Where no child goes, the node stays. -/
theorem thins_node {label : Label Terminal NonTerminal} {children : List ParseTree}
    (conforming : (node label children).conforms Language.grammar = true) {rule : Rule}
    (signed : label.sign = .nonTerminal rule.production.left)
    (known : label.production.bind Rule.ofIndex? = some rule) {deleted : Nat → List Nat → Bool}
    (each : ∀ place child, children[place]? = some child →
      ∃ other, Thins child (child.leafLabelsBut (deleted place)) other) :
    ∃ other, Thins (node label children) (forestLabelsBut children deleted) other := by
  obtain ⟨others, signs, below, labels, phrases⟩ := thins_forest each
  refine ⟨node label others, rfl, ?_, ?_, ?_⟩
  · rcases conforms_cases conforming with ⟨_, terminal, _⟩ | ⟨index, production, sort, recorded, found, right, _⟩
    · cases terminal.symm.trans signed
    · exact conforms_expanded sort recorded found (right.trans signs.symm) below
  · rw [leafLabels_node, signed, labels]
    rfl
  · rw [Phrase.ofTree_rule signed known, Phrase.ofTree_rule signed known, ← Phrase.bare_ofRule, phrases,
      Phrase.bare_ofRule]

theorem leafLabelsBut_deleted {tree : ParseTree} {deleted : List Nat → Bool}
    (goes : (deleted [] && tree.isVariableDefinition) = true) : tree.leafLabelsBut deleted = [] := by
  cases tree
  rw [leafLabelsBut, if_pos goes]

theorem isVariableDefinition_eq_false {tree : ParseTree} (global : tree.sign ≠ .nonTerminal .define)
    (inner : tree.sign ≠ .nonTerminal .localVarDefine) : tree.isVariableDefinition = false := by
  rw [Bool.eq_false_iff]
  intro defines
  rcases isVariableDefinition_cases defines with signed | ⟨signed, _⟩
  · exact inner signed
  · exact global signed

/-- The child of a list that is an item is the first child. -/
theorem list_cases {children : List ParseTree} {item list : Sign Terminal NonTerminal} (apart : item ≠ list)
    (right : children.map sign = [item, list]) {place : Nat} {child : ParseTree}
    (present : children[place]? = some child) (signed : child.sign = item) :
    ∃ rest, place = 0 ∧ children = [child, rest] ∧ rest.sign = list := by
  obtain ⟨first, _, rfl, _, right⟩ := List.map_eq_cons_iff.mp right
  obtain ⟨rest, rfl, listed⟩ := List.map_eq_singleton_iff.mp right
  match place with
  | 0 =>
    cases present
    exact ⟨rest, rfl, rfl, listed⟩
  | 1 =>
    cases present
    exact absurd (signed.symm.trans listed) apart
  | place + 2 => cases present

theorem phrase_defineList {tree : ParseTree} (conforming : tree.conforms Language.grammar = true)
    (signed : tree.sign = .nonTerminal .defineList) :
    Phrase.ofTree tree = { program := (Phrase.ofTree tree).program } := by
  obtain ⟨label, children⟩ := tree
  obtain ⟨rule, left, _, phrase, _, _⟩ := Language.expansion conforming signed
  rw [phrase]
  cases rule
  case defineList | defineListEmpty => rfl
  all_goals cases left

theorem phrase_localDefineList {tree : ParseTree} (conforming : tree.conforms Language.grammar = true)
    (signed : tree.sign = .nonTerminal .localDefineList) :
    Phrase.ofTree tree = { locals := (Phrase.ofTree tree).locals } := by
  obtain ⟨label, children⟩ := tree
  obtain ⟨rule, left, _, phrase, _, _⟩ := Language.expansion conforming signed
  rw [phrase]
  cases rule
  case localDefineList | localDefineListEmpty => rfl
  all_goals cases left

/-- Without an item that defines a variable, a list stands for what its tail stands for. -/
theorem bare_tail {label : Label Terminal NonTerminal} {children : List ParseTree} {kind : NonTerminal}
    (conforming : (node label children).conforms Language.grammar = true) (signed : label.sign = .nonTerminal kind)
    {place : Nat} {child : ParseTree} (present : children[place]? = some child)
    (defines : child.isVariableDefinition = true) :
    ∃ rest, place = 0 ∧ children = [child, rest] ∧ rest.sign = label.sign ∧ rest.isVariableDefinition = false ∧
      (Phrase.ofTree rest).bare = (Phrase.ofTree (node label children)).bare := by
  obtain ⟨rule, rfl, known, phrase, right, below⟩ := Language.expansion conforming signed
  have listed : child.sign ∈ rule.production.right := right ▸ List.mem_map_of_mem (List.mem_of_getElem? present)
  rcases isVariableDefinition_cases defines with sort | ⟨sort, unnamed⟩
  · obtain rfl := Rule.eq_localDefineList (sort ▸ listed)
    obtain ⟨rest, rfl, rfl, tail⟩ := list_cases (by simp) right present sort
    refine ⟨rest, rfl, rfl, tail.trans signed.symm, isVariableDefinition_eq_false (by simp [tail]) (by simp [tail]), ?_⟩
    rw [phrase, phrase_localDefineList (below rest (by simp)) tail]
    rfl
  · obtain rfl := Rule.eq_defineList (sort ▸ listed)
    obtain ⟨rest, rfl, rfl, tail⟩ := list_cases (by simp) right present sort
    refine ⟨rest, rfl, rfl, tail.trans signed.symm, isVariableDefinition_eq_false (by simp [tail]) (by simp [tail]), ?_⟩
    rw [functionName?_eq (below child (by simp)) sort] at unnamed
    have program : Program.bare ((Phrase.ofTree child).definition :: (Phrase.ofTree rest).program) =
        (Phrase.ofTree rest).program.bare := by
      rw [Program.bare_cons, if_neg]
      change ¬(Definition.ofTree child).functionName?.isSome = true
      simp [unnamed]
    rw [phrase, phrase_defineList (below rest (by simp)) tail]
    change Phrase.bare _ = { program := Program.bare ((Phrase.ofTree child).definition :: (Phrase.ofTree rest).program) }
    rw [program]
    rfl

/-- Of every conforming tree that is not itself deleted a conforming tree is left. -/
theorem exists_thins (tree : ParseTree) (conforming : tree.conforms Language.grammar = true)
    (deleted : List Nat → Bool) (stays : (deleted [] && tree.isVariableDefinition) = false) :
    ∃ other, Thins tree (tree.leafLabelsBut deleted) other := by
  induction tree using by_children generalizing deleted with
  | node label children ih =>
    rw [leafLabelsBut, stays]
    rcases Language.conforms_cases conforming with ⟨kind, signed, rfl⟩ | ⟨rule, signed, known, right, below⟩
    · refine ⟨node label [], rfl, conforming, ?_, rfl⟩
      rw [leafLabels_node]
      rfl
    · simp only [signed, Sign.isTerminal]
      by_cases some : ∃ place child, children[place]? = some child ∧
          (deleted [place] && child.isVariableDefinition) = true
      · obtain ⟨place, child, present, goes⟩ := some
        obtain ⟨rest, rfl, rfl, tail, other, phrase⟩ :=
          bare_tail conforming signed present (Bool.and_eq_true_iff.mp goes).2
        obtain ⟨left, thins⟩ := ih rest (by simp) (below rest (by simp)) (fun way => deleted (1 :: way)) (by simp [other])
        refine ⟨left, thins.signed.trans tail, thins.conforming, thins.labels.trans ?_, thins.phrase.trans phrase⟩
        have gone : child.leafLabelsBut (fun way => deleted (0 :: way)) = [] := leafLabelsBut_deleted goes
        simp [forestLabelsBut, gone]
      · apply thins_node conforming signed known
        intro place child present
        have member := List.mem_of_getElem? present
        apply ih child member (below child member)
        rw [Bool.eq_false_iff]
        exact fun goes => some ⟨place, child, present, goes⟩

end Tree

theorem parseTokens_labels {tokens : List (Token Terminal)} {tree : ParseTree} (parsed : parseTokens tokens = .ok tree) :
    tree.leafLabels = tokens.map (Token.label NonTerminal) :=
  (Language.parse_tree (Language.parseTokens_eq_ok.mp parsed)).2.2

/-- Variables can be deleted from a program that is parsed, any of them, each with the whole of its definition. The tokens
that are left are parsed, and evaluated to the same code with the same names. -/
theorem code_without_variables {tokens : List (Token Terminal)} {tree : ParseTree}
    (parsed : parseTokens tokens = .ok tree) (deleted : List Nat → Bool) :
    ∃ tokens' tree', tokens'.Sublist tokens ∧
      tokens'.map (Token.label NonTerminal) = tree.leafLabelsBut deleted ∧ parseTokens tokens' = .ok tree' ∧
      (Evaluation.ofTree tree').code = (Evaluation.ofTree tree).code ∧
      (Evaluation.ofTree tree').names = (Evaluation.ofTree tree).names := by
  obtain ⟨conforming, rooted⟩ := parseTokens_ok parsed
  have stays : (deleted [] && tree.isVariableDefinition) = false := by
    rw [Tree.isVariableDefinition_eq_false (by simp [rooted]) (by simp [rooted]), Bool.and_false]
  obtain ⟨other, thins⟩ := Tree.exists_thins tree conforming deleted stays
  have kept := tree.sublist_leafLabelsBut deleted
  rw [parseTokens_labels parsed] at kept
  obtain ⟨tokens', sublist, labels⟩ := List.sublist_map_iff.mp kept
  have spelled : other.leafLabels = tokens'.map (Token.label NonTerminal) := thins.labels.trans labels
  obtain ⟨tree', found⟩ := Parser.parse_of_tree Language.grammar_valid Language.parser_built
    (thins.signed.trans rooted) thins.conforming (Parser.leaves_of_leafLabels spelled).symm
  obtain ⟨rooted', conforming', own⟩ := Language.parse_tree found
  have program : (Program.ofTree tree').bare = (Program.ofTree tree).bare := by
    have phrase := Phrase.ofTree_unique rooted' conforming' (thins.signed.trans rooted) thins.conforming
      (own.trans spelled.symm)
    exact congrArg Phrase.program ((congrArg Phrase.bare phrase).trans thins.phrase)
  obtain ⟨code, names⟩ := (Program.ofTree tree).code_bare .fresh
  obtain ⟨code', names'⟩ := (Program.ofTree tree').code_bare .fresh
  refine ⟨tokens', tree', sublist, labels.symm, Language.parseTokens_eq_ok.mpr found, ?_⟩
  rw [Evaluation.ofTree_eq_program conforming rooted, Evaluation.ofTree_eq_program conforming' rooted', ← code, ← code',
    ← names, ← names', program]
  exact ⟨rfl, rfl⟩

/-- A global variable and a local one, and what is left without them. -/
theorem code_without_variables_declared :
    ∃ tokens tree tree', tokenize "int g; void f() \x7b int x; x = g + x; \x7d" = .ok tokens ∧
      parseTokens tokens = .ok tree ∧ parseTokens (tokensOf "void f() \x7b x = g + x; \x7d") = .ok tree' ∧
      (Evaluation.ofTree tree').code = (Evaluation.ofTree tree).code := by
  have passes : (Preview.parser 200).sourcePasses (fun _ tree => tree.leafLabelsBut (fun _ => true) =
      (tokensOf "void f() \x7b x = g + x; \x7d").map (Token.label NonTerminal))
      "int g; void f() \x7b int x; x = g + x; \x7d" = true := by
    decide +kernel
  obtain ⟨tokens, tree, read, parsed, passes⟩ := Preview.parseSource_of_sourcePasses passes
  obtain ⟨_, read', found⟩ := parseSource_ok parsed
  cases read.symm.trans read'
  have parsed := Language.parseTokens_eq_ok.mpr found
  obtain ⟨tokens', tree', _, labels, parsed', code, _⟩ := code_without_variables parsed fun _ => true
  have kept := labels.trans (decide_eq_true_eq.mp passes)
  have injective : Function.Injective (Token.label (T := Terminal) NonTerminal) := by
    rintro ⟨kind, lexeme, line⟩ ⟨kind', lexeme', line'⟩ same
    cases same
    rfl
  rw [List.map_injective_iff.mpr injective kept] at parsed'
  exact ⟨tokens, tree, tree', read, parsed, parsed', code⟩

end Minuscule
