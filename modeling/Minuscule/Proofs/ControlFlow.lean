import Minuscule.Proofs.Definitions
import Minuscule.Proofs.Segments

/-!
The jumps of a program. A statement that branches takes three block labels and places each of them once, jumps once
on a condition and twice without one, and every jump goes to a label of the same statement. So the segment of a
function is closed under its jumps, and the labels of all segments together are the functions' own and an unbroken
row of block labels, as many as the source's branches ask for.
-/

namespace Minuscule

open Machine

namespace Instruction

/-- Where an instruction may jump to. -/
def target? : Instruction → Option String
  | goto target | ifGoto _ target => some target
  | _ => none

def isGoto : Instruction → Bool
  | goto _ => true
  | _ => false

def isBranch : Instruction → Bool
  | ifGoto .. => true
  | _ => false

end Instruction

/-- Every jump of the code goes to a label in it. -/
def Closed (code : List Instruction) : Prop :=
  ∀ instruction ∈ code, ∀ target ∈ instruction.target?, .label target ∈ code

theorem Closed.append {code more : List Instruction} (closed : Closed code) (other : Closed more) :
    Closed (code ++ more) := by
  intro instruction member target jumps
  rcases List.mem_append.mp member with early | late
  · exact List.mem_append_left _ (closed instruction early target jumps)
  · exact List.mem_append_right _ (other instruction late target jumps)

theorem closed_of_still {code : List Instruction} (still : ∀ instruction ∈ code, instruction.target? = none) :
    Closed code := by
  intro instruction member target jumps
  rw [still instruction member] at jumps
  cases jumps

theorem Scratch.still {next : Nat} {instruction : Instruction} (scratch : Scratch next instruction) :
    instruction.target? = none := by
  cases instruction
  case goto | ifGoto => exact scratch.elim
  all_goals rfl

/-- Closed parts make a closed selection: the three jumps of the frame go to its own labels. -/
theorem closed_selection {test consequent alternative : List Instruction} (testClosed : Closed test)
    (consequentClosed : Closed consequent) (alternativeClosed : Closed alternative)
    (condition consequentLabel alternativeLabel joinLabel : String) :
    Closed (Layout.selection test condition consequent alternative consequentLabel alternativeLabel joinLabel) := by
  intro instruction member target jumps
  simp only [Layout.selection, List.mem_append, List.mem_cons, List.not_mem_nil, or_false] at member ⊢
  have inTest := fun present => testClosed instruction present target jumps
  have inConsequent := fun present => consequentClosed instruction present target jumps
  have inAlternative := fun present => alternativeClosed instruction present target jumps
  rcases member with ((((present | rfl | rfl) | present) | rfl | rfl) | present) | rfl | rfl
  case inl.inl.inl.inl.inl => simp [inTest present]
  case inl.inl.inl.inr => simp [inAlternative present]
  case inl.inr => simp [inConsequent present]
  all_goals cases jumps <;> simp

theorem closed_iteration {test body : List Instruction} (testClosed : Closed test) (bodyClosed : Closed body)
    (condition testLabel bodyLabel endLabel : String) :
    Closed (Layout.iteration test condition body testLabel bodyLabel endLabel) := by
  intro instruction member target jumps
  simp only [Layout.iteration, List.mem_append, List.mem_cons, List.not_mem_nil, or_false] at member ⊢
  have inTest := fun present => testClosed instruction present target jumps
  have inBody := fun present => bodyClosed instruction present target jumps
  rcases member with (((rfl | present) | rfl | rfl | rfl) | present) | rfl | rfl
  case inl.inl.inl.inr => simp [inTest present]
  case inl.inr => simp [inBody present]
  all_goals cases jumps <;> simp

namespace Statement

/-- How many statements branch. -/
def branches : Statement → Nat
  | .skip | .assign .. | .store .. | .call .. | .ret _ => 0
  | .seq first rest => first.branches + rest.branches
  | .select _ consequent alternative => consequent.branches + alternative.branches + 1
  | .loop _ body => body.branches + 1

theorem labels_eq (statement : Statement) : statement.labels = 3 * statement.branches := by
  induction statement with
  | skip | assign | store | call | ret => rfl
  | seq first rest ihFirst ihRest => rw [labels, branches, ihFirst, ihRest, Nat.mul_add]
  | select test consequent alternative ihConsequent ihAlternative =>
    rw [labels, branches, ihConsequent, ihAlternative]
    omega
  | loop test body ih =>
    rw [labels, branches, ih]
    omega

/-- A statement of straight code. -/
theorem still_code {statement : Statement} (names : Names) (straight : statement.branches = 0) :
    ∀ instruction ∈ statement.code names, instruction.target? = none := by
  induction statement generalizing names with
  | skip => simp [code]
  | seq first rest ihFirst ihRest =>
    have both : first.branches = 0 ∧ rest.branches = 0 := by
      rw [branches] at straight
      omega
    rw [code, List.forall_mem_append]
    exact ⟨ihFirst names both.1, ihRest _ both.2⟩
  | assign target value =>
    rw [code, List.forall_mem_append, List.forall_mem_singleton]
    exact ⟨fun instruction member => (value.scratch_code (Nat.le_refl _) instruction member).still, rfl⟩
  | store target index value =>
    rw [code, List.forall_mem_append, List.forall_mem_append, List.forall_mem_singleton]
    exact ⟨⟨fun instruction member => (index.scratch_code (Nat.le_refl _) instruction member).still,
      fun instruction member => (value.scratch_code (Nat.le_refl _) instruction member).still⟩, rfl⟩
  | call callee arguments =>
    rw [code, List.forall_mem_append]
    exact ⟨fun instruction member => (arguments.scratch_code (Nat.le_refl _) instruction member).still,
      fun instruction member => (scratch_call (Nat.le_refl _) _ _ instruction member).still⟩
  | select test consequent alternative => cases straight
  | loop test body => cases straight
  | ret value =>
    cases value with
    | none => simp [code, Instruction.target?]
    | some value =>
      rw [code, List.forall_mem_append, List.forall_mem_singleton]
      exact ⟨fun instruction member => (value.scratch_code (Nat.le_refl _) instruction member).still, rfl⟩

theorem closed_test (test : Expression) (next : Nat) : Closed (test.code next) :=
  closed_of_still fun instruction member => (test.scratch_code (Nat.le_refl _) instruction member).still

theorem closed_code (statement : Statement) (names : Names) : Closed (statement.code names) := by
  induction statement generalizing names with
  | skip | assign | store | call | ret => exact closed_of_still (still_code names rfl)
  | seq first rest ihFirst ihRest => exact (ihFirst names).append (ihRest _)
  | select test consequent alternative ihConsequent ihAlternative =>
    exact closed_selection (closed_test test _) (ihConsequent _) (ihAlternative _) _ _ _ _
  | loop test body ih => exact closed_iteration (closed_test test _) (ih _) _ _ _ _

/-- A count of jumps by their form: each branch of the source has one that is conditional and two that are not. -/
theorem countP_code {test : Instruction → Bool} {conditional plain : Nat}
    (others : ∀ instruction, instruction.target? = none → test instruction = false)
    (branch : ∀ condition target, (test (.ifGoto condition target)).toNat = conditional)
    (goto : ∀ target, (test (.goto target)).toNat = plain) (statement : Statement) (names : Names) :
    (statement.code names).countP test = (conditional + 2 * plain) * statement.branches := by
  have none {part : List Instruction} (still : ∀ instruction ∈ part, instruction.target? = none) :
      part.countP test = 0 := by
    rw [List.countP_eq_zero]
    intro instruction member
    simp [others instruction (still instruction member)]
  have single (instruction : Instruction) (rest : List Instruction) :
      (instruction :: rest).countP test = (test instruction).toNat + rest.countP test := by
    rw [List.countP_cons, Nat.add_comm]
    cases test instruction <;> rfl
  have label (name : String) : test (.label name) = false := others _ rfl
  have inTest (condition : Expression) (next : Nat) : (condition.code next).countP test = 0 :=
    none fun instruction member => (condition.scratch_code (Nat.le_refl _) instruction member).still
  induction statement generalizing names with
  | skip | assign | store | call | ret => exact none (still_code names rfl)
  | seq first rest ihFirst ihRest => rw [code, List.countP_append, ihFirst, ihRest, branches, Nat.mul_add]
  | select condition consequent alternative ihConsequent ihAlternative =>
    simp only [code, Layout.selection, List.countP_append, single, List.countP_nil, inTest, ihConsequent,
      ihAlternative, branch, goto, label, branches, Nat.mul_add, Bool.toNat_false]
    omega
  | loop condition body ih =>
    simp only [code, Layout.iteration, List.countP_append, single, List.countP_nil, inTest, ih, branch, goto, label,
      branches, Nat.mul_add, Bool.toNat_false]
    omega

end Statement

/-! Branches of a tree and of its phrase. -/

namespace NonTerminal

/-- The sorts of the statements that branch. -/
def isBranching : NonTerminal → Bool
  | .selectionStatement | .iterationStatement => true
  | _ => false

end NonTerminal

def Sign.isBranching : Sign Terminal NonTerminal → Bool
  | .nonTerminal kind => kind.isBranching
  | _ => false

/-- The number of `if` and `while` statements in a tree. -/
def Tree.branches (tree : ParseTree) : Nat :=
  tree.subtrees.countP (·.sign.isBranching)

theorem Tree.branches_node (label : Label Terminal NonTerminal) (children : List ParseTree) :
    (node label children).branches = label.sign.isBranching.toNat + sumOf branches children := by
  have below : (children.flatMap subtrees).countP (·.sign.isBranching) = sumOf branches children := by
    induction children with
    | nil => rfl
    | cons child rest ih => rw [List.flatMap_cons, List.countP_append, ih, sumOf_cons, branches]
  rw [branches, subtrees_node, List.countP_cons, below, Nat.add_comm]
  change (if label.sign.isBranching = true then _ else _) + _ = _
  cases label.sign.isBranching <;> rfl

def Form.branches : Form → Nat
  | .datum _ => 0
  | .function _ _ body => body.branches

def Program.branches (program : Program) : Nat :=
  sumOf (fun definition => definition.form.branches) program

namespace Phrase

def branchesOf (phrase : Phrase) : NonTerminal → Nat
  | .program | .defineList => phrase.program.branches
  | .define => phrase.definition.form.branches
  | .defineType | .funDefineFollow => phrase.form.branches
  | .codeBlock | .codeList | .code | .normalStatement | .selectionStatement | .selectionFollow
  | .iterationStatement | .iterationFollow | .returnStatement | .returnFollow => phrase.statement.branches
  | _ => 0

/-- The branches of a phrase below a sign. -/
def branches (phrase : Phrase) : Sign Terminal NonTerminal → Nat
  | .nonTerminal kind => phrase.branchesOf kind
  | _ => 0

def branchesAll : List (Sign Terminal NonTerminal) → List Phrase → Nat
  | sign :: signs, phrase :: phrases => phrase.branches sign + branchesAll signs phrases
  | _, _ => 0

theorem branches_ofRule (rule : Rule) (child : Nat → Phrase) :
    let children := (List.range rule.production.right.length).map child
    (ofRule rule children).branchesOf rule.production.left =
      rule.production.left.isBranching.toNat + branchesAll rule.production.right children := by
  cases rule
  case normalStatementId =>
    change ((child 1).effect.statement (child 0).occurrence).branches = 0
    rcases (child 1).effect with ⟨_ | index, value⟩ | arguments <;> rfl
  case defineList =>
    change (child 0).definition.form.branches + (child 1).program.branches =
      0 + ((child 0).definition.form.branches + ((child 1).program.branches + 0))
    omega
  case codeList =>
    change (child 0).statement.branches + (child 1).statement.branches =
      0 + ((child 0).statement.branches + ((child 1).statement.branches + 0))
    omega
  case selection =>
    change (child 5).statement.branches + (child 7).statement.branches + 1 =
      1 + (0 + (0 + (0 + (0 + (0 + ((child 5).statement.branches + (0 + ((child 7).statement.branches + 0))))))))
    omega
  case iteration =>
    change (child 4).statement.branches + 1 = 1 + (0 + (0 + (0 + (0 + ((child 4).statement.branches + 0)))))
    omega
  all_goals simp [ofRule, branchesOf, branches, branchesAll, Rule.production, NonTerminal.isBranching, List.range_succ,
    Form.branches, Program.branches, Statement.branches, sumOf]

theorem branchesAll_ofTrees {trees : List ParseTree}
    (each : ∀ tree ∈ trees, tree.branches = (ofTree tree).branches tree.sign) :
    sumOf Tree.branches trees = branchesAll (trees.map Tree.sign) (trees.map ofTree) := by
  induction trees with
  | nil => rfl
  | cons tree rest ih =>
    obtain ⟨here, later⟩ := List.forall_mem_cons.mp each
    rw [sumOf_cons, here, ih later]
    rfl

/-- A tree has as many branches as its phrase. -/
theorem branches_ofTree (tree : ParseTree) (conforming : tree.conforms Language.grammar = true) :
    tree.branches = (ofTree tree).branches tree.sign := by
  induction tree using Tree.by_children with
  | node label children ih =>
    rw [Tree.branches_node]
    change _ = (ofTree (.node label children)).branches label.sign
    rcases Language.conforms_cases conforming with ⟨kind, signed, rfl⟩ | ⟨rule, signed, known, right, below⟩
    · rw [signed]
      rfl
    · have list := eq_map_range (children.map ofTree)
      have all := branchesAll_ofTrees fun tree member => ih tree member (below tree member)
      rw [List.length_map, ← List.length_map Tree.sign, ← right] at list
      rw [all, ofTree_rule signed known, ← right, list, signed]
      exact (branches_ofRule rule _).symm

end Phrase

theorem Program.branches_ofTree {tree : ParseTree} (conforming : tree.conforms Language.grammar = true)
    (rooted : tree.sign = .nonTerminal .program) : tree.branches = (Program.ofTree tree).branches := by
  rw [Phrase.branches_ofTree tree conforming, rooted]
  rfl

/-! Labels and jumps of a program. -/

namespace Program

theorem branches_cons (definition : Definition) (rest : Program) :
    branches (definition :: rest) = definition.form.branches + branches rest :=
  rfl

theorem labels_names (definition : Definition) (names : Names) :
    (definition.names names).labels = names.labels + 3 * definition.form.branches := by
  obtain ⟨declarator, length | ⟨params, locals, body⟩⟩ := definition
  · rfl
  · exact congrArg (names.labels + ·) body.labels_eq

/-- The labels of a program: one for each function, and an unbroken row of block labels. -/
theorem perm_labels (program : Program) (names : Names) :
    List.Perm ((program.code names).filter Instruction.isLabel)
      ((program.filterMap Definition.functionName?).map .label ++ blockLabels names.labels (3 * program.branches)) := by
  induction program generalizing names with
  | nil => exact .refl _
  | cons definition rest ih =>
    have later := ih (definition.names names)
    rw [labels_names] at later
    rw [code, List.filter_append, branches_cons, Nat.mul_add, blockLabels_add]
    obtain ⟨declarator, length | ⟨params, locals, body⟩⟩ := definition
    · exact later
    · have inside := body.perm_labels names
      rw [body.labels_eq] at inside
      exact ((inside.append later).trans (List.perm_append_comm_assoc ..)).cons _

theorem countP_code {test : Instruction → Bool} {conditional plain : Nat}
    (others : ∀ instruction, instruction.target? = none → test instruction = false)
    (branch : ∀ condition target, (test (.ifGoto condition target)).toNat = conditional)
    (goto : ∀ target, (test (.goto target)).toNat = plain) (program : Program) (names : Names) :
    (program.code names).countP test = (conditional + 2 * plain) * program.branches := by
  induction program generalizing names with
  | nil => rfl
  | cons definition rest ih =>
    rw [code, List.countP_append, ih, branches_cons, Nat.mul_add]
    obtain ⟨declarator, length | ⟨params, locals, body⟩⟩ := definition
    · rfl
    · have entry : test (.label declarator.subject.name) = false := others _ rfl
      rw [Definition.code, List.countP_cons_of_neg (by simp [entry]), Statement.countP_code others branch goto]
      rfl

theorem countP_isBranch (program : Program) (names : Names) :
    (program.code names).countP Instruction.isBranch = program.branches := by
  have others : ∀ instruction : Instruction, instruction.target? = none → instruction.isBranch = false := by
    intro instruction still
    cases instruction <;> first | rfl | cases still
  have once : ∀ condition target, (Instruction.ifGoto condition target).isBranch.toNat = 1 := fun _ _ => rfl
  have never : ∀ target, (Instruction.goto target).isBranch.toNat = 0 := fun _ => rfl
  rw [countP_code others once never, Nat.one_mul]

theorem countP_isGoto (program : Program) (names : Names) :
    (program.code names).countP Instruction.isGoto = 2 * program.branches := by
  have others : ∀ instruction : Instruction, instruction.target? = none → instruction.isGoto = false := by
    intro instruction still
    cases instruction <;> first | rfl | cases still
  have never : ∀ condition target, (Instruction.ifGoto condition target).isGoto.toNat = 0 := fun _ _ => rfl
  have once : ∀ target, (Instruction.goto target).isGoto.toNat = 1 := fun _ => rfl
  rw [countP_code others never once]

end Program

/-- What a definition has in the code. A function has its label and a block behind it, and the jumps of the block go
to labels of the block, which are block labels with small numbers. Anything else has no code. -/
def Encloses (limit : Nat) (definition : ParseTree) (segment : List Instruction) : Prop :=
  match definition.functionName? with
  | some name => ∃ block, segment = .label name :: block ∧
      ∀ instruction ∈ block, ∀ target ∈ instruction.target?,
        .label target ∈ block ∧ ∃ number < limit, target = blockLabel number
  | none => segment = []

theorem Statement.number_of_mem {statement : Statement} {names : Names} {name : String}
    (member : .label name ∈ statement.code names) :
    ∃ number < names.labels + 3 * statement.branches, name = blockLabel number := by
  have listed : .label name ∈ (statement.code names).filter Instruction.isLabel := List.mem_filter.mpr ⟨member, rfl⟩
  obtain ⟨number, inside, same⟩ := List.mem_map.mp ((statement.perm_labels names).mem_iff.mp listed)
  rw [statement.labels_eq, List.mem_range'_1] at inside
  exact ⟨number, inside.2, (Instruction.label.inj same).symm⟩

theorem encloses_code {definition : ParseTree} (signed : definition.sign = .nonTerminal .define)
    (conforming : definition.conforms Language.grammar = true) {names : Names} {limit : Nat}
    (room : names.labels + 3 * (Definition.ofTree definition).form.branches ≤ limit) :
    Encloses limit definition ((Definition.ofTree definition).code names) := by
  rw [Encloses, Tree.functionName?_eq conforming signed]
  revert room
  obtain ⟨declarator, length | ⟨params, locals, body⟩⟩ := Definition.ofTree definition <;> intro room
  · rfl
  · refine ⟨body.code names, rfl, ?_⟩
    intro instruction member target jumps
    have placed := body.closed_code names instruction member target jumps
    obtain ⟨number, low, same⟩ := Statement.number_of_mem placed
    exact ⟨placed, number, Nat.lt_of_lt_of_le low room, same⟩

theorem encloses_segments {trees : List ParseTree}
    (each : ∀ tree ∈ trees, tree.sign = .nonTerminal .define ∧ tree.conforms Language.grammar = true)
    {names : Names} {limit : Nat}
    (room : names.labels + 3 * Program.branches (trees.map Definition.ofTree) ≤ limit) :
    List.Forall₂ (Encloses limit) trees (Program.segments names (trees.map Definition.ofTree)) := by
  induction trees generalizing names with
  | nil => exact .nil
  | cons tree rest ih =>
    obtain ⟨⟨signed, conforming⟩, later⟩ := List.forall_mem_cons.mp each
    rw [List.map_cons, Program.branches_cons] at room
    refine .cons (encloses_code signed conforming (by omega)) (ih later ?_)
    rw [Program.labels_names]
    omega

/-- The names of the functions of a program in their order. -/
def Tree.functionNames (tree : ParseTree) : List String :=
  tree.definitions.filterMap functionName?

theorem Program.filterMap_functionName? {tree : ParseTree} (conforming : tree.conforms Language.grammar = true)
    (rooted : tree.sign = .nonTerminal .program) :
    (Program.ofTree tree).filterMap Definition.functionName? = tree.functionNames := by
  rw [Program.ofTree_eq_map conforming rooted, List.filterMap_map, Tree.functionNames]
  apply List.filterMap_congr
  intro definition member
  obtain ⟨signed, fits⟩ := Tree.mem_definitions conforming member
  exact (Tree.functionName?_eq fits signed).symm

/-- The control flow of a program with so many branches. Its labels are the functions' names and the block labels with
the first three numbers for each branch, all of them once; each branch has one conditional jump and two others; and
the code is made up of what the definitions contribute, in which every jump stays in its function. -/
theorem control_flow_closed {tree : ParseTree} (conforming : tree.conforms Language.grammar = true)
    (rooted : tree.sign = .nonTerminal .program) :
    List.Perm ((Evaluation.ofTree tree).code.filter Instruction.isLabel)
        (tree.functionNames.map .label ++ blockLabels 0 (3 * tree.branches)) ∧
      (Evaluation.ofTree tree).code.countP Instruction.isBranch = tree.branches ∧
      (Evaluation.ofTree tree).code.countP Instruction.isGoto = 2 * tree.branches ∧
      (Evaluation.ofTree tree).code = (Evaluation.segments tree).flatten ∧
      List.Forall₂ (Encloses (3 * tree.branches)) tree.definitions (Evaluation.segments tree) := by
  have code : (Evaluation.ofTree tree).code = (Program.ofTree tree).code .fresh := by
    rw [Evaluation.ofTree_eq_program conforming rooted]
  refine ⟨?_, ?_, ?_, Evaluation.code_eq_flatten_segments conforming rooted, ?_⟩
  · rw [code, ← Program.filterMap_functionName? conforming rooted, Program.branches_ofTree conforming rooted]
    exact Program.perm_labels _ .fresh
  · rw [code, Program.branches_ofTree conforming rooted, Program.countP_isBranch]
  · rw [code, Program.branches_ofTree conforming rooted, Program.countP_isGoto]
  · rw [Evaluation.segments_eq conforming rooted, Program.branches_ofTree conforming rooted,
      Program.ofTree_eq_map conforming rooted]
    apply encloses_segments fun definition => Tree.mem_definitions conforming
    exact Nat.le_of_eq (Nat.zero_add _)

theorem parseSource_conforms {source : String} {tree : ParseTree} (parsed : parseSource source = .ok tree) :
    tree.conforms Language.grammar = true ∧ tree.sign = .nonTerminal .program := by
  obtain ⟨_, _, found⟩ := parseSource_ok parsed
  obtain ⟨rooted, conforming, _⟩ := Language.parse_tree found
  exact ⟨conforming, rooted⟩

/-- A branch inside a loop, and behind a variable a second function with a loop, which calls the first. -/
def branching : String :=
  "int f(int x, int y[]) \x7b int z; while (x) \x7b if (x < 2) \x7b x = y[0]; \x7d \x7d \x7d int g; " ++
    "void h(void) \x7b while (g) f(1, g); \x7d"

theorem branching_parses :
    ∃ tokens tree, tokenize branching = .ok tokens ∧ parseSource branching = .ok tree ∧
      (∀ token ∈ tokens, token.lexeme.toList.head? ≠ some '_') ∧ (Evaluation.ofTree tree).errors = [] ∧
      (Evaluation.ofTree tree).symbols.functions.entries =
        [⟨"f", .int, [.param false, .param true], 0⟩, ⟨"h", .void, [], 1⟩] ∧
      (Evaluation.ofTree tree).names.temporaries = 3 ∧ tree.functionNames = ["f", "h"] ∧ tree.branches = 3 := by
  have passes : (Preview.descent 500).sourcePasses (fun tokens program =>
      tokens.all (·.lexeme.toList.head? ≠ some '_') && (program.faults .empty).isEmpty &&
        (program.after .empty).functions.entries =
          [⟨"f", .int, [.param false, .param true], 0⟩, ⟨"h", .void, [], 1⟩] &&
        (program.names .fresh).temporaries = 3 && program.filterMap Definition.functionName? = ["f", "h"] &&
        program.branches = 3)
      branching = true := by
    decide +kernel
  obtain ⟨tokens, tree, read, parsed, passes⟩ := Preview.parseSource_of_sourcePasses passes
  obtain ⟨conforming, rooted⟩ := parseSource_conforms parsed
  rw [Program.filterMap_functionName? conforming rooted, ← Program.branches_ofTree conforming rooted] at passes
  simp only [Bool.and_eq_true, List.isEmpty_iff, List.all_eq_true, decide_eq_true_eq] at passes
  obtain ⟨⟨⟨⟨⟨plain, quiet⟩, functions⟩, count⟩, named⟩, branches⟩ := passes
  have whole := Evaluation.ofTree_eq_program conforming rooted
  refine ⟨tokens, tree, read, parsed, plain, ?_, ?_, ?_, named, branches⟩ <;> rw [whole]
  · exact quiet
  · exact functions
  · exact count

theorem control_flow_branching :
    ∃ tree, parseSource branching = .ok tree ∧ tree.conforms Language.grammar = true ∧
      tree.sign = .nonTerminal .program ∧ tree.functionNames = ["f", "h"] ∧
      List.Perm ((Evaluation.ofTree tree).code.filter Instruction.isLabel)
        ([.label "f", .label "h"] ++ blockLabels 0 9) ∧
      (Evaluation.ofTree tree).code.countP Instruction.isBranch = 3 ∧
      (Evaluation.ofTree tree).code.countP Instruction.isGoto = 6 := by
  obtain ⟨_, tree, _, parsed, _, _, _, _, named, count⟩ := branching_parses
  obtain ⟨conforming, rooted⟩ := parseSource_conforms parsed
  obtain ⟨labels, branches, gotos, _⟩ := control_flow_closed conforming rooted
  rw [named, count] at labels
  rw [count] at branches gotos
  exact ⟨tree, parsed, conforming, rooted, named, labels, branches, gotos⟩

end Minuscule
