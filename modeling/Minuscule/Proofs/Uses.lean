import Minuscule.Proofs.Chains
import Minuscule.Proofs.Lists

/-!
The uses of names in the bodies of a program. A name is used alone, with a subscript or with arguments, both in
expressions and at the front of statements. The uses are listed from the inside out: what stands in a subscript or among
arguments comes in front of the name that it belongs to, and the value of an assignment in front of its target. In this
order the uses are checked, and the errors of a body are those of its uses. A tree has the same uses as its phrase.
-/

namespace Minuscule

/-- How a name is used. -/
inductive Usage (E : Type) where
  | plain
  | element (subscript : E)
  | call (arguments : List E)

/-- A name where it is used. -/
structure Use (E : Type) where
  subject : Occurrence
  usage : Usage E

namespace Usage
variable {E F : Type}

def map (value : E → F) : Usage E → Usage F
  | plain => plain
  | element subscript => element (value subscript)
  | call arguments => call (arguments.map value)

/-- The subscript or the arguments. -/
def operands : Usage E → List E
  | plain => []
  | element subscript => [subscript]
  | call arguments => arguments

end Usage

def Use.map {E F : Type} (value : E → F) (use : Use E) : Use F :=
  ⟨use.subject, use.usage.map value⟩

/-! Uses in phrases. -/

def Arguments.toList : Arguments → List Expression
  | .nil => []
  | .cons first rest => first :: rest.toList

theorem Arguments.length_toList (arguments : Arguments) : arguments.toList.length = arguments.length := by
  cases arguments with
  | nil => rfl
  | cons first rest => exact congrArg (· + 1) rest.length_toList

mutual

def Expression.uses : Expression → List (Use Expression)
  | .number _ => []
  | .scalar use => [⟨use, .plain⟩]
  | .element use index => index.uses ++ [⟨use, .element index⟩]
  | .call callee arguments => arguments.uses ++ [⟨callee, .call arguments.toList⟩]
  | .chain head links => head.uses ++ links.uses

def Links.uses : Links → List (Use Expression)
  | .nil => []
  | .cons _ operand rest => operand.uses ++ rest.uses

def Arguments.uses : Arguments → List (Use Expression)
  | .nil => []
  | .cons first rest => first.uses ++ rest.uses

end

def Statement.uses : Statement → List (Use Expression)
  | .skip | .ret none => []
  | .seq first rest => first.uses ++ rest.uses
  | .assign target value => value.uses ++ [⟨target, .plain⟩]
  | .store target index value => index.uses ++ value.uses ++ [⟨target, .element index⟩]
  | .call callee arguments => arguments.uses ++ [⟨callee, .call arguments.toList⟩]
  | .select test consequent alternative => test.uses ++ consequent.uses ++ alternative.uses
  | .loop test body => test.uses ++ body.uses
  | .ret (some value) => value.uses

def Form.uses : Form → List (Use Expression)
  | .datum _ => []
  | .function _ _ body => body.uses

def Program.uses (program : Program) : List (Use Expression) :=
  program.flatMap fun definition => definition.form.uses

/-- The errors of a use. -/
def Use.faults (symbols : Symbols) (scope : Scope) (use : Use Expression) : List SemanticError :=
  match use.usage with
  | .plain => symbols.variableFaults scope use.subject
  | .element index => symbols.elementFaults scope use.subject index.constant?
  | .call arguments => symbols.callFaults use.subject arguments.length

section Faults
variable (symbols : Symbols) (scope : Scope)

theorem Use.faults_call (callee : Occurrence) (arguments : Arguments) :
    Use.faults symbols scope ⟨callee, .call arguments.toList⟩ = symbols.callFaults callee arguments.length :=
  congrArg (symbols.callFaults callee) arguments.length_toList

mutual

theorem Expression.faults_eq_flatMap : ∀ expression : Expression,
    expression.faults symbols scope = expression.uses.flatMap (Use.faults symbols scope)
  | .number _ => rfl
  | .scalar use => (List.append_nil _).symm
  | .element use index => by
    rw [Expression.faults, Expression.uses, List.flatMap_append, Expression.faults_eq_flatMap index,
      List.flatMap_singleton]
    rfl
  | .call callee arguments => by
    rw [Expression.faults, Expression.uses, List.flatMap_append, Arguments.faults_eq_flatMap arguments,
      List.flatMap_singleton, Use.faults_call]
  | .chain head links => by
    rw [Expression.faults, Expression.uses, List.flatMap_append, Expression.faults_eq_flatMap head,
      Links.faults_eq_flatMap links]

theorem Links.faults_eq_flatMap : ∀ links : Links,
    links.faults symbols scope = links.uses.flatMap (Use.faults symbols scope)
  | .nil => rfl
  | .cons _ operand rest => by
    rw [Links.faults, Links.uses, List.flatMap_append, Expression.faults_eq_flatMap operand,
      Links.faults_eq_flatMap rest]

theorem Arguments.faults_eq_flatMap : ∀ arguments : Arguments,
    arguments.faults symbols scope = arguments.uses.flatMap (Use.faults symbols scope)
  | .nil => rfl
  | .cons first rest => by
    rw [Arguments.faults, Arguments.uses, List.flatMap_append, Expression.faults_eq_flatMap first,
      Arguments.faults_eq_flatMap rest]

end

/-- The errors of a statement are those of its uses, in their order. -/
theorem Statement.faults_eq_flatMap (statement : Statement) :
    statement.faults symbols scope = statement.uses.flatMap (Use.faults symbols scope) := by
  induction statement with
  | skip => rfl
  | seq first rest ihFirst ihRest => rw [faults, uses, List.flatMap_append, ihFirst, ihRest]
  | assign target value =>
    rw [faults, uses, List.flatMap_append, value.faults_eq_flatMap, List.flatMap_singleton]
    rfl
  | store target index value =>
    rw [faults, uses, List.flatMap_append, List.flatMap_append, index.faults_eq_flatMap, value.faults_eq_flatMap,
      List.flatMap_singleton]
    rfl
  | call callee arguments =>
    rw [faults, uses, List.flatMap_append, arguments.faults_eq_flatMap, List.flatMap_singleton, Use.faults_call]
  | select test consequent alternative ihConsequent ihAlternative =>
    rw [faults, uses, List.flatMap_append, List.flatMap_append, test.faults_eq_flatMap, ihConsequent, ihAlternative]
  | loop test body ih => rw [faults, uses, List.flatMap_append, test.faults_eq_flatMap, ih]
  | ret value =>
    cases value with
    | none => rfl
    | some value => exact value.faults_eq_flatMap symbols scope

end Faults

/-! Uses in trees. -/

namespace Tree

def rule? (tree : ParseTree) : Option Rule :=
  tree.label.production.bind Rule.ofIndex?

/-- The arguments of a call from left to right. -/
def arguments : ParseTree → List ParseTree
  | .node _ [list] => list.arguments
  | .node _ [first, rest] => first :: rest.arguments
  | .node _ [_, next, rest] => next :: rest.arguments
  | _ => []

/-- What follows a name that is no function's: nothing, or a subscript in brackets. -/
def subscript : ParseTree → Usage ParseTree
  | .node _ [_, index, _] => .element index
  | _ => .plain

/-- How a name is used, from what follows it. -/
def usage (tree : ParseTree) : Usage ParseTree :=
  match tree.rule?, tree.children with
  | some .idFactorVar, [follow] => follow.subscript
  | some .idFactorCall, [_, args, _] => .call args.arguments
  | some .normalFollowAssign, [follow, _, _, _] => follow.subscript
  | some .normalFollowCall, [.node _ [_, args, _], _] => .call args.arguments
  | _, _ => .plain

/-- The use that a node stands for. -/
def use? (tree : ParseTree) : Option (Use ParseTree) :=
  match tree.rule?, tree.children with
  | some .factorId, [name, follow] => some ⟨⟨name.lexeme, name.label.line⟩, follow.usage⟩
  | some .normalStatementId, [name, follow] => some ⟨⟨name.lexeme, name.label.line⟩, follow.usage⟩
  | _, _ => none

mutual

/-- The uses in a tree, those below a node first. -/
def uses : ParseTree → List (Use ParseTree)
  | .node label children => usesAll children ++ (use? (.node label children)).toList

def usesAll : List ParseTree → List (Use ParseTree)
  | [] => []
  | tree :: rest => uses tree ++ usesAll rest

end

theorem usesAll_eq_flatMap (trees : List ParseTree) : usesAll trees = trees.flatMap uses := by
  induction trees with
  | nil => rfl
  | cons tree rest ih => rw [usesAll, ih, List.flatMap_cons]

theorem uses_node (label : Label Terminal NonTerminal) (children : List ParseTree) :
    uses (.node label children) = children.flatMap uses ++ (use? (.node label children)).toList := by
  rw [uses, usesAll_eq_flatMap]

theorem uses_leaf (label : Label Terminal NonTerminal) : uses (.node label []) = [] := by
  have none : use? (.node label []) = none := by
    rw [use?]
    split
    · next same => cases same
    · next same => cases same
    · rfl
  rw [uses_node, none]
  rfl

end Tree

/-! The uses of a tree are those of its phrase. -/

def Access.usage : Access → Usage Expression
  | plain => .plain
  | element index => .element index
  | call arguments => .call arguments.toList

def Access.uses : Access → List (Use Expression)
  | plain => []
  | element index => index.uses
  | call arguments => arguments.uses

/-- What follows a name that no call follows. -/
def Access.ofIndex (index : Option Expression) : Access :=
  index.elim .plain .element

def Effect.usage : Effect → Usage Expression
  | assign index _ => (Access.ofIndex index).usage
  | call arguments => .call arguments.toList

def Effect.uses : Effect → List (Use Expression)
  | assign index value => (Access.ofIndex index).uses ++ value.uses
  | call arguments => arguments.uses

theorem Access.uses_expression (use : Occurrence) (access : Access) :
    (access.expression use).uses = access.uses ++ [⟨use, access.usage⟩] := by
  cases access <;> rfl

theorem Effect.uses_statement (target : Occurrence) (effect : Effect) :
    (effect.statement target).uses = effect.uses ++ [⟨target, effect.usage⟩] := by
  rcases effect with ⟨_ | index, value⟩ | arguments <;> rfl

theorem Expression.uses_ofLinks (head : Expression) (links : Links) :
    (ofLinks head links).uses = head.uses ++ links.uses := by
  cases links with
  | nil => exact (List.append_nil _).symm
  | cons => rfl

namespace Phrase

def usesOf (phrase : Phrase) : NonTerminal → List (Use Expression)
  | .program | .defineList => phrase.program.uses
  | .define => phrase.definition.form.uses
  | .defineType | .funDefineFollow => phrase.form.uses
  | .codeBlock | .codeList | .code | .normalStatement | .selectionStatement | .selectionFollow
  | .iterationStatement | .iterationFollow | .returnStatement | .returnFollow => phrase.statement.uses
  | .normalStatementFollow => phrase.effect.uses
  | .callFollow | .args | .argList | .argListFollow => phrase.arguments.uses
  | .varFollow => (Access.ofIndex phrase.index).uses
  | .expression | .additiveExpr | .term | .factor => phrase.expression.uses
  | .expressionFollow => (Links.ofRelation phrase.relation).uses
  | .additiveExprFollow | .termFollow => phrase.links.uses
  | .idFactorFollow => phrase.access.uses
  | _ => []

/-- The uses of a phrase below a sign. -/
def uses (phrase : Phrase) : Sign Terminal NonTerminal → List (Use Expression)
  | .nonTerminal kind => phrase.usesOf kind
  | _ => []

def usesAll : List (Sign Terminal NonTerminal) → List Phrase → List (Use Expression)
  | sign :: signs, phrase :: phrases => phrase.uses sign ++ usesAll signs phrases
  | _, _ => []

/-- The use that a rule adds to those of its children. -/
def ownUses (rule : Rule) (children : List Phrase) : List (Use Expression) :=
  let child (index : Nat) : Phrase := children.getD index {}
  match rule with
  | .factorId => [⟨(child 0).occurrence, (child 1).access.usage⟩]
  | .normalStatementId => [⟨(child 0).occurrence, (child 1).effect.usage⟩]
  | _ => []

theorem uses_ofRule (rule : Rule) (child : Nat → Phrase) :
    let children := (List.range rule.production.right.length).map child
    (ofRule rule children).usesOf rule.production.left =
      usesAll rule.production.right children ++ ownUses rule children := by
  cases rule
  case expression =>
    change (Expression.ofRelation (child 0).expression (child 1).relation).uses = _
    rw [Expression.ofRelation_eq, Expression.uses_ofLinks]
    simp [usesAll, uses, usesOf, ownUses, Rule.production, List.range_succ]
  all_goals simp [ofRule, usesAll, uses, usesOf, ownUses, Rule.production, List.range_succ, Access.uses_expression,
    Effect.uses_statement, Expression.uses_ofLinks, Program.uses, Form.uses, Statement.uses, Expression.uses,
    Links.uses, Links.ofRelation, Arguments.uses, Access.uses, Effect.uses, Access.ofIndex]

end Phrase

def Expression.ofTree (tree : ParseTree) : Expression :=
  (Phrase.ofTree tree).expression

namespace Tree

/-- A conforming expression. -/
structure IsExpression (tree : ParseTree) : Prop where
  conforming : tree.conforms Language.grammar = true
  signed : tree.sign = .nonTerminal .expression

theorem IsExpression.hasValue {tree : ParseTree} (whole : tree.IsExpression) : tree.HasValue :=
  ⟨whole.conforming, .inl (.inl whole.signed)⟩

/-- A conforming expression below a tree. -/
structure HasExpression (tree part : ParseTree) : Prop extends IsExpression part where
  below : part ∈ tree.subtrees

theorem HasExpression.ofChild {label : Label Terminal NonTerminal} {children : List ParseTree} {child part : ParseTree}
    (inside : child.HasExpression part) (member : child ∈ children) : (node label children).HasExpression part where
  toIsExpression := inside.toIsExpression
  below := by
    rw [subtrees_node]
    exact List.mem_cons_of_mem _ (List.mem_flatMap.mpr ⟨child, member, inside.below⟩)

theorem hasExpression_child {label : Label Terminal NonTerminal} {children : List ParseTree} {child : ParseTree}
    (member : child ∈ children) (conforming : child.conforms Language.grammar = true)
    (signed : child.sign = .nonTerminal .expression) : (node label children).HasExpression child := by
  have self : child ∈ child.subtrees := by
    obtain ⟨label, children⟩ := child
    rw [subtrees_node]
    exact List.mem_cons_self ..
  exact HasExpression.ofChild ⟨⟨conforming, signed⟩, self⟩ member

/-- How a name is used, read off a tree and off its phrase. -/
structure Matches (tree : ParseTree) (found : Usage ParseTree) (usage : Usage Expression) : Prop where
  same : found.map Expression.ofTree = usage
  inside : ∀ operand ∈ found.operands, tree.HasExpression operand

section Matches
variable {label : Label Terminal NonTerminal} {children : List ParseTree}

theorem Matches.ofChild {child : ParseTree} {found : Usage ParseTree} {usage : Usage Expression}
    (whole : child.Matches found usage) (member : child ∈ children) : (node label children).Matches found usage where
  same := whole.same
  inside := fun operand present => (whole.inside operand present).ofChild member

theorem matches_plain (tree : ParseTree) : tree.Matches .plain .plain :=
  ⟨rfl, fun _ absent => absurd absent List.not_mem_nil⟩

theorem matches_element {index : ParseTree} (inside : (node label children).HasExpression index) :
    (node label children).Matches (.element index) (.element (Expression.ofTree index)) :=
  ⟨rfl, List.forall_mem_singleton.mpr inside⟩

/-- One argument more. -/
theorem Matches.cons {value rest : ParseTree} {found : List ParseTree} {expressions : List Expression}
    (inside : (node label children).HasExpression value) (later : rest.Matches (.call found) (.call expressions))
    (member : rest ∈ children) :
    (node label children).Matches (.call (value :: found)) (.call (Expression.ofTree value :: expressions)) where
  same := congrArg (fun others => Usage.call (Expression.ofTree value :: others)) (Usage.call.inj later.same)
  inside := List.forall_mem_cons.mpr ⟨inside, (later.ofChild member).inside⟩

end Matches

theorem matches_arguments {tree : ParseTree} {kind : NonTerminal} (conforming : tree.conforms Language.grammar = true)
    (signed : tree.sign = .nonTerminal kind) (sort : kind = .args ∨ kind = .argList ∨ kind = .argListFollow) :
    tree.Matches (.call tree.arguments) (.call (Phrase.ofTree tree).arguments.toList) := by
  induction tree using Tree.by_children generalizing kind with
  | node label children ih =>
    obtain ⟨rule, rfl, _, phrase, right, below⟩ := Language.expansion conforming signed
    rw [phrase]
    cases rule
    case args =>
      obtain ⟨list, _, rfl, first, right⟩ := List.map_eq_cons_iff.mp right
      cases List.map_eq_nil_iff.mp right
      exact (ih list (by simp) (below list (by simp)) first (by simp)).ofChild (by simp)
    case argList =>
      obtain ⟨value, rest, rfl, first, second⟩ := map_eq_pair right
      have later := ih rest (by simp) (below rest (by simp)) second (by simp)
      exact .cons (hasExpression_child (by simp) (below value (by simp)) first) later (by simp)
    case argListFollow =>
      obtain ⟨comma, value, rest, rfl, _, first, second⟩ := map_eq_triple right
      have later := ih rest (by simp) (below rest (by simp)) second (by simp)
      exact .cons (hasExpression_child (by simp) (below value (by simp)) first) later (by simp)
    case argsEmpty | argListFollowEmpty =>
      cases List.map_eq_nil_iff.mp right
      exact ⟨rfl, by simp [arguments, Usage.operands]⟩
    all_goals simp [Rule.production] at sort

theorem matches_subscript {tree : ParseTree} (conforming : tree.conforms Language.grammar = true)
    (signed : tree.sign = .nonTerminal .varFollow) :
    tree.Matches tree.subscript (Access.ofIndex (Phrase.ofTree tree).index).usage := by
  obtain ⟨label, children⟩ := tree
  obtain ⟨rule, left, _, phrase, right, below⟩ := Language.expansion conforming signed
  rw [phrase]
  cases rule
  case varFollowIndex =>
    obtain ⟨opening, index, closing, rfl, _, first, _⟩ := map_eq_triple right
    exact matches_element (hasExpression_child (by simp) (below index (by simp)) first)
  case varFollowEmpty =>
    cases List.map_eq_nil_iff.mp right
    exact matches_plain _
  all_goals cases left

/-- What follows a name in an expression. -/
theorem matches_access {tree : ParseTree} (conforming : tree.conforms Language.grammar = true)
    (signed : tree.sign = .nonTerminal .idFactorFollow) :
    tree.Matches tree.usage (Phrase.ofTree tree).access.usage := by
  obtain ⟨label, children⟩ := tree
  obtain ⟨rule, left, known, phrase, right, below⟩ := Language.expansion conforming signed
  have named : rule? (node label children) = some rule := known
  rw [phrase, usage, named]
  cases rule
  case idFactorVar =>
    obtain ⟨follow, _, rfl, first, right⟩ := List.map_eq_cons_iff.mp right
    cases List.map_eq_nil_iff.mp right
    exact (matches_subscript (below follow (by simp)) first).ofChild (by simp)
  case idFactorCall =>
    obtain ⟨opening, args, closing, rfl, _, first, _⟩ := map_eq_triple right
    exact (matches_arguments (below args (by simp)) first (by simp)).ofChild (by simp)
  all_goals cases left

/-- What follows a name in front of a statement. -/
theorem matches_effect {tree : ParseTree} (conforming : tree.conforms Language.grammar = true)
    (signed : tree.sign = .nonTerminal .normalStatementFollow) :
    tree.Matches tree.usage (Phrase.ofTree tree).effect.usage := by
  obtain ⟨label, children⟩ := tree
  obtain ⟨rule, left, known, phrase, right, below⟩ := Language.expansion conforming signed
  have named : rule? (node label children) = some rule := known
  rw [phrase, usage, named]
  cases rule
  case normalFollowAssign =>
    obtain ⟨follow, _, rfl, first, right⟩ := List.map_eq_cons_iff.mp right
    obtain ⟨sign, value, ending, rfl, _, _, _⟩ := map_eq_triple right
    exact (matches_subscript (below follow (by simp)) first).ofChild (by simp)
  case normalFollowCall =>
    obtain ⟨⟨inner, parts⟩, ending, rfl, first, _⟩ := map_eq_pair right
    obtain ⟨rule, left, _, phrase, right, below⟩ := Language.expansion (below (node inner parts) (by simp)) first
    cases rule
    case callFollow =>
      obtain ⟨opening, args, closing, rfl, _, second, _⟩ := map_eq_triple right
      have whole := matches_arguments (below args (by simp)) second (by simp)
      have deep : (node inner [opening, args, closing]).Matches _ _ := whole.ofChild (by simp)
      simp only [Phrase.ofRule, List.map_cons, phrase]
      exact deep.ofChild (by simp)
    all_goals cases left
  all_goals cases left

theorem Matches.use {name follow : ParseTree} {kind : Terminal} {usage : Usage Expression}
    (signed : name.sign = .terminal kind) (whole : follow.Matches follow.usage usage) :
    Use.map Expression.ofTree ⟨⟨name.lexeme, name.label.line⟩, follow.usage⟩ =
      ⟨(Phrase.ofTree name).occurrence, usage⟩ := by
  obtain ⟨label, children⟩ := name
  change label.sign = .terminal kind at signed
  rw [Use.map, whole.same, Phrase.ofTree_terminal signed]
  rfl

/-- A node adds the use that its rule adds, and the operands of the use are expressions below the node. -/
theorem use?_ofRule {label : Label Terminal NonTerminal} {children : List ParseTree} {rule : Rule}
    (known : label.production.bind Rule.ofIndex? = some rule) (right : rule.production.right = children.map sign)
    (below : ∀ child ∈ children, child.conforms Language.grammar = true) :
    (use? (node label children)).toList.map (Use.map Expression.ofTree) =
        Phrase.ownUses rule (children.map Phrase.ofTree) ∧
      ∀ use ∈ use? (node label children), ∀ operand ∈ use.usage.operands,
        (node label children).HasExpression operand := by
  have named : rule? (node label children) = some rule := known
  cases rule
  case factorId =>
    obtain ⟨name, follow, rfl, terminal, signed⟩ := map_eq_pair right.symm
    have whole := matches_access (below follow (by simp)) signed
    rw [use?, named]
    refine ⟨congrArg ([·]) (whole.use terminal), ?_⟩
    intro use same
    cases same
    exact (whole.ofChild (by simp)).inside
  case normalStatementId =>
    obtain ⟨name, follow, rfl, terminal, signed⟩ := map_eq_pair right.symm
    have whole := matches_effect (below follow (by simp)) signed
    rw [use?, named]
    refine ⟨congrArg ([·]) (whole.use terminal), ?_⟩
    intro use same
    cases same
    exact (whole.ofChild (by simp)).inside
  all_goals
    have none : use? (node label children) = none := by rw [use?, named]
    exact ⟨by rw [none]; rfl, by simp [none]⟩

end Tree

namespace Phrase

theorem usesAll_ofTrees {trees : List ParseTree}
    (each : ∀ tree ∈ trees, tree.uses.map (Use.map Expression.ofTree) = (ofTree tree).uses tree.sign) :
    (trees.flatMap Tree.uses).map (Use.map Expression.ofTree) = usesAll (trees.map Tree.sign) (trees.map ofTree) := by
  induction trees with
  | nil => rfl
  | cons tree rest ih =>
    obtain ⟨here, later⟩ := List.forall_mem_cons.mp each
    rw [List.flatMap_cons, List.map_append, here, ih later]
    rfl

/-- A tree has the uses of its phrase. -/
theorem uses_ofTree (tree : ParseTree) (conforming : tree.conforms Language.grammar = true) :
    tree.uses.map (Use.map Expression.ofTree) = (ofTree tree).uses tree.sign := by
  induction tree using Tree.by_children with
  | node label children ih =>
    change _ = (ofTree (.node label children)).uses label.sign
    rcases Language.conforms_cases conforming with ⟨kind, signed, rfl⟩ | ⟨rule, signed, known, right, below⟩
    · rw [Tree.uses_leaf, signed]
      rfl
    · have list := eq_map_range (children.map ofTree)
      have all := usesAll_ofTrees fun tree member => ih tree member (below tree member)
      rw [List.length_map, ← List.length_map Tree.sign, ← right] at list
      rw [Tree.uses_node, List.map_append, all, (Tree.use?_ofRule known right below).1, ofTree_rule signed known,
        ← right, list, signed]
      exact (uses_ofRule rule _).symm

end Phrase

theorem Program.uses_ofTree {tree : ParseTree} (conforming : tree.conforms Language.grammar = true)
    (rooted : tree.sign = .nonTerminal .program) :
    tree.uses.map (Use.map Expression.ofTree) = (Program.ofTree tree).uses := by
  rw [Phrase.uses_ofTree tree conforming, rooted]
  rfl

/-- The operands of the uses in a tree are expressions below it. -/
theorem Tree.hasExpression_operand {tree : ParseTree} (conforming : tree.conforms Language.grammar = true)
    {use : Use ParseTree} (member : use ∈ tree.uses) : ∀ operand ∈ use.usage.operands, tree.HasExpression operand := by
  induction tree using Tree.by_children with
  | node label children ih =>
    rcases Language.conforms_cases conforming with ⟨kind, signed, rfl⟩ | ⟨rule, signed, known, right, below⟩
    · rw [uses_leaf] at member
      cases member
    · rw [uses_node] at member
      rcases List.mem_append.mp member with deeper | own
      · obtain ⟨child, present, inside⟩ := List.mem_flatMap.mp deeper
        exact fun operand given => (ih child present (below child present) inside operand given).ofChild present
      · exact (use?_ofRule known right below).2 use (Option.mem_toList.mp own)

end Minuscule
