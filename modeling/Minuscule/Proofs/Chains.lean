import Minuscule.Proofs.Definitions
import Minuscule.Proofs.Precedence

/-!
Where the code of the operands of a chain stands. Below an expression, each operator chain has its operands and its
operators from left to right. Its code is the code of the operands in this order, as they are evaluated one after the
other, with the instructions of the operators behind it, and it is a part of the code of the whole expression.
-/

namespace Minuscule

/-! Chains in trees. -/

namespace Tree

/-- A tree that stands for an operator, by its word. -/
def operator? (tree : ParseTree) : Option Operator :=
  tree.words.head?.bind fun word => word.1.operator?

/-- The operators behind the first operand of a chain, each with the operand to its right. -/
def links : ParseTree → List (ParseTree × ParseTree)
  | .node _ [operator, operand, rest] => (operator, operand) :: rest.links
  | .node _ [operator, operand] => [(operator, operand)]
  | _ => []

def operands : ParseTree → List ParseTree
  | .node _ [first, follow] => first :: follow.links.map Prod.snd
  | _ => []

def operators : ParseTree → List Operator
  | .node _ [_, follow] => (follow.links.map Prod.fst).filterMap operator?
  | _ => []

/-- An expression, a sum or a product, with any number of operators. -/
def IsChain (tree : ParseTree) : Prop :=
  tree.sign = .nonTerminal .expression ∨ tree.sign = .nonTerminal .additiveExpr ∨ tree.sign = .nonTerminal .term

/-- A conforming tree that has a value. -/
structure HasValue (tree : ParseTree) : Prop where
  conforming : tree.conforms Language.grammar = true
  signed : tree.IsChain ∨ tree.sign = .nonTerminal .factor

end Tree

/-! Evaluation one after the other. -/

namespace Walk

/-- A walk over a tree that starts with the tree's own frame. -/
def ofTree (tree : ParseTree) (inherited : Inherited) (progress : Progress) : Attributes × Progress :=
  match Frame.visit tree inherited with
  | .closed attributes => (attributes, progress)
  | .opened frame => run ⟨[frame], progress⟩

/-- The code of trees that are evaluated in a row. -/
def codes (inherited : Inherited) : List ParseTree → Progress → List (List Instruction)
  | [], _ => []
  | tree :: rest, progress =>
    (ofTree tree inherited progress).1.code :: codes inherited rest (ofTree tree inherited progress).2

end Walk

/-- The code of expressions that are evaluated in a row. -/
def codesFrom (next : Nat) : List Expression → List (List Instruction)
  | [] => []
  | expression :: rest => expression.code next :: codesFrom (next + expression.temporaries) rest

theorem Tree.HasValue.ofTree {tree : ParseTree} (valued : tree.HasValue) (inherited : Inherited)
    (progress : Progress) :
    let expression := (Phrase.ofTree tree).expression
    let next := progress.names.temporaries
    Walk.ofTree tree inherited progress =
      ({ code := expression.code next, place := expression.place next, constant := expression.constant? },
        progress.advance expression.temporaries 0 (expression.faults progress.symbols inherited.scope)) := by
  have walked : Walk.ofTree tree inherited progress = _ := Walk.run_visit valued.conforming inherited progress
  rw [walked, Phrase.attributes_ofTree tree valued.conforming]
  have elaborated : (Phrase.ofTree tree).attributes inherited tree.sign =
      (Phrase.ofTree tree).expression.elaborate inherited.scope := by
    rcases valued.signed with (signed | signed | signed) | signed <;> rw [signed] <;> rfl
  rw [elaborated]
  exact Expression.run_elaborate inherited.scope _ progress

theorem Walk.codes_eq (inherited : Inherited) {trees : List ParseTree} (each : ∀ tree ∈ trees, tree.HasValue)
    (progress : Progress) :
    codes inherited trees progress =
      codesFrom progress.names.temporaries (trees.map fun tree => (Phrase.ofTree tree).expression) := by
  induction trees generalizing progress with
  | nil => rfl
  | cons tree rest ih =>
    obtain ⟨here, later⟩ := List.forall_mem_cons.mp each
    rw [codes, here.ofTree, ih later]
    rfl

/-! Chains of expressions. -/

def Links.expressions : Links → List Expression
  | .nil => []
  | .cons _ operand rest => operand :: rest.expressions

def Links.ofRelation : Option (Operator × Expression) → Links
  | none => .nil
  | some (operator, right) => .cons operator right .nil

theorem Expression.ofRelation_eq (head : Expression) (relation : Option (Operator × Expression)) :
    ofRelation head relation = ofLinks head (.ofRelation relation) := by
  cases relation <;> rfl

theorem Links.code_eq_flatten (next : Nat) :
    ∀ links : Links, links.code next = (codesFrom next links.expressions).flatten
  | .nil => rfl
  | .cons _ operand rest =>
    congrArg (operand.code next ++ ·) (Links.code_eq_flatten (next + operand.temporaries) rest)

def Instruction.operator? : Instruction → Option Operator
  | binary _ _ operator _ => some operator
  | _ => none

/-- The instructions of a chain are its operators in their order. -/
theorem map_operator?_chain (next : Nat) (place : String) (operands : List (Operator × String)) :
    (Layout.chain next place operands).map Instruction.operator? = (operands.map Prod.fst).map some := by
  induction operands generalizing next place with
  | nil => rfl
  | cons operand rest ih => exact congrArg (some operand.1 :: ·) (ih (next + 1) (temporary next))

theorem length_chain (next : Nat) (place : String) (operands : List (Operator × String)) :
    (Layout.chain next place operands).length = operands.length := by
  simpa using congrArg List.length (map_operator?_chain next place operands)

theorem Links.map_fst_operands (next : Nat) : ∀ links : Links, (links.operands next).map Prod.fst = links.operators
  | .nil => rfl
  | .cons operator operand rest => congrArg (operator :: ·) (Links.map_fst_operands (next + operand.temporaries) rest)

/-- The operands come first, in their order, and the operators behind them. -/
theorem Expression.code_ofLinks (head : Expression) (links : Links) (next : Nat) :
    ∃ own, (Expression.ofLinks head links).code next = (codesFrom next (head :: links.expressions)).flatten ++ own ∧
      own.map Instruction.operator? = links.operators.map some := by
  cases links with
  | nil => exact ⟨[], by simp [Expression.ofLinks, Links.expressions, codesFrom], rfl⟩
  | cons operator operand rest =>
    let links := Links.cons operator operand rest
    let own := Layout.chain (next + head.temporaries + links.temporaries) (head.place next)
      (links.operands (next + head.temporaries))
    refine ⟨own, ?_, ?_⟩
    · change head.code next ++ links.code (next + head.temporaries) ++ own = head.code next ++ _ ++ own
      rw [Links.code_eq_flatten]
    · rw [map_operator?_chain, Links.map_fst_operands]

/-! What stands behind the first operand. -/

namespace Phrase

/-- The operators and operands of a tree that goes on with a chain. -/
def follow (phrase : Phrase) : NonTerminal → Links
  | .expressionFollow => .ofRelation phrase.relation
  | _ => phrase.links

/-- The links of a tree and those of its phrase. -/
structure LinkedBy (tree : ParseTree) (links : Links) : Prop where
  valued : ∀ link ∈ tree.links, link.2.HasValue
  expressions : tree.links.map (fun link => (ofTree link.2).expression) = links.expressions
  operators : (tree.links.map Prod.fst).filterMap Tree.operator? = links.operators

theorem operator?_ofTree {tree : ParseTree} (conforming : tree.conforms Language.grammar = true)
    (signed : tree.sign = .nonTerminal .relOp ∨ tree.sign = .nonTerminal .addOp ∨ tree.sign = .nonTerminal .mulOp) :
    tree.operator? = some (ofTree tree).operator := by
  have reads := reads_ofTree tree conforming
  obtain ⟨strength, kind, text, spelled, known, _⟩ : ∃ strength, (ofTree tree).IsOperator strength tree.words := by
    rcases signed with signed | signed | signed <;> rw [signed] at reads <;> exact ⟨_, reads⟩
  rw [Tree.operator?, spelled]
  exact known

theorem linkedBy_ofTree {tree : ParseTree} {kind : NonTerminal} (conforming : tree.conforms Language.grammar = true)
    (signed : tree.sign = .nonTerminal kind)
    (follows : kind = .expressionFollow ∨ kind = .additiveExprFollow ∨ kind = .termFollow) :
    LinkedBy tree ((ofTree tree).follow kind) := by
  induction tree using Tree.by_children generalizing kind with
  | node label children ih =>
    obtain ⟨rule, rfl, _, phrase, right, below⟩ := Language.expansion conforming signed
    rw [phrase]
    cases rule
    case additiveFollow | termFollow =>
      obtain ⟨operator, _, rfl, first, right⟩ := List.map_eq_cons_iff.mp right
      obtain ⟨operand, _, rfl, second, right⟩ := List.map_eq_cons_iff.mp right
      obtain ⟨rest, _, rfl, third, right⟩ := List.map_eq_cons_iff.mp right
      cases List.map_eq_nil_iff.mp right
      have later := ih rest (by simp) (below rest (by simp)) third (by simp)
      have known := operator?_ofTree (below operator (by simp)) (by simp [first])
      have valued : operand.HasValue := ⟨below operand (by simp), by simp [Tree.IsChain, second]⟩
      refine ⟨List.forall_mem_cons.mpr ⟨valued, later.valued⟩, ?_, ?_⟩
      · exact congrArg (_ :: ·) later.expressions
      · rw [Tree.links, List.map_cons, List.filterMap_cons_some known]
        exact congrArg (_ :: ·) later.operators
    case expressionFollow =>
      obtain ⟨operator, _, rfl, first, right⟩ := List.map_eq_cons_iff.mp right
      obtain ⟨operand, _, rfl, second, right⟩ := List.map_eq_cons_iff.mp right
      cases List.map_eq_nil_iff.mp right
      have known := operator?_ofTree (below operator (by simp)) (by simp [first])
      have valued : operand.HasValue := ⟨below operand (by simp), by simp [Tree.IsChain, second]⟩
      refine ⟨List.forall_mem_singleton.mpr valued, rfl, ?_⟩
      rw [Tree.links, List.map_cons, List.filterMap_cons_some known]
      rfl
    case additiveFollowEmpty | termFollowEmpty | expressionFollowEmpty =>
      cases List.map_eq_nil_iff.mp right
      exact ⟨by simp [Tree.links], rfl, rfl⟩
    all_goals simp [Rule.production] at follows

end Phrase

/-! Code below code. -/

section OfLinks
variable (head : Expression) (links : Links) (next : Nat)

theorem Expression.head_code_part : head.code next <:+: (Expression.ofLinks head links).code next := by
  cases links with
  | nil => exact List.infix_rfl
  | cons operator operand rest =>
    exact ((List.prefix_append _ _).trans (List.prefix_append _ _)).isInfix

theorem Expression.links_code_part :
    links.code (next + head.temporaries) <:+: (Expression.ofLinks head links).code next := by
  cases links with
  | nil => exact List.nil_infix
  | cons operator operand rest => exact List.infix_append _ _ _

end OfLinks

def Access.code (next : Nat) : Access → List Instruction
  | .plain => []
  | .element index => index.code next
  | .call arguments => arguments.code next

theorem Access.code_part (access : Access) (use : Occurrence) (next : Nat) :
    access.code next <:+: (access.expression use).code next := by
  cases access with
  | plain => exact List.nil_infix
  | element index => exact (List.prefix_append _ _).isInfix
  | call arguments => exact (List.prefix_append _ _).isInfix

/-- The non-terminals below an expression. -/
def NonTerminal.isInner : NonTerminal → Bool
  | expression | expressionFollow | relOp | additiveExpr | additiveExprFollow | addOp | term | termFollow | mulOp
  | factor | idFactorFollow | varFollow | args | argList | argListFollow => true
  | _ => false

def Sign.isInner : Sign Terminal NonTerminal → Bool
  | .nonTerminal kind => kind.isInner
  | _ => true

theorem Rule.isInner_right {rule : Rule} (inner : rule.production.left.isInner = true) :
    ∀ sign ∈ rule.production.right, sign.isInner = true := by
  revert inner
  cases rule <;> decide

namespace Phrase

/-- The code of what stands below a non-terminal of an expression. -/
def codeOf (phrase : Phrase) (next : Nat) : NonTerminal → List Instruction
  | .expression | .additiveExpr | .term | .factor => phrase.expression.code next
  | .expressionFollow => (Links.ofRelation phrase.relation).code next
  | .additiveExprFollow | .termFollow => phrase.links.code next
  | .varFollow => (phrase.index.elim Access.plain Access.element).code next
  | .idFactorFollow => phrase.access.code next
  | .args | .argList | .argListFollow => phrase.arguments.code next
  | _ => []

def codeBelow (phrase : Phrase) (next : Nat) : Sign Terminal NonTerminal → List Instruction
  | .nonTerminal kind => phrase.codeOf next kind
  | _ => []

/-- The code of a child is a part of the code of its parent. -/
theorem child_code_part {rule : Rule} (inner : rule.production.left.isInner = true) (child : Nat → Phrase) (next : Nat)
    {index : Nat} {sign : Sign Terminal NonTerminal} (found : rule.production.right[index]? = some sign) :
    ∃ start, (child index).codeBelow start sign <:+:
      (ofRule rule ((List.range rule.production.right.length).map child)).codeOf next rule.production.left := by
  cases rule
  case expression =>
    change ∃ start, _ <:+: (Expression.ofRelation (child 0).expression (child 1).relation).code next
    rw [Expression.ofRelation_eq]
    match index, found with
    | 0, rfl => exact ⟨_, Expression.head_code_part _ _ _⟩
    | 1, rfl => exact ⟨_, Expression.links_code_part _ _ _⟩
  case additiveExpr | term =>
    match index, found with
    | 0, rfl => exact ⟨_, Expression.head_code_part _ _ _⟩
    | 1, rfl => exact ⟨_, Expression.links_code_part _ _ _⟩
  case additiveFollow | termFollow | argListFollow =>
    match index, found with
    | 0, rfl => exact ⟨next, List.nil_infix⟩
    | 1, rfl => exact ⟨_, (List.prefix_append _ _).isInfix⟩
    | 2, rfl => exact ⟨_, (List.suffix_append _ _).isInfix⟩
  case expressionFollow =>
    match index, found with
    | 0, rfl => exact ⟨next, List.nil_infix⟩
    | 1, rfl => exact ⟨_, (List.prefix_append _ _).isInfix⟩
  case argList =>
    match index, found with
    | 0, rfl => exact ⟨_, (List.prefix_append _ _).isInfix⟩
    | 1, rfl => exact ⟨_, (List.suffix_append _ _).isInfix⟩
  case factorId =>
    match index, found with
    | 0, rfl => exact ⟨next, List.nil_infix⟩
    | 1, rfl => exact ⟨_, Access.code_part _ _ _⟩
  case factorParen | idFactorCall | varFollowIndex =>
    match index, found with
    | 0, rfl | 2, rfl => exact ⟨next, List.nil_infix⟩
    | 1, rfl => exact ⟨next, List.infix_rfl⟩
  case idFactorVar | args =>
    match index, found with
    | 0, rfl => exact ⟨next, List.infix_rfl⟩
  case relOpLe | relOpLt | relOpGt | relOpGe | relOpEq | relOpNe | addOpPlus | addOpMinus | mulOpStar | mulOpSlash
    | factorNum =>
    match index, found with
    | 0, rfl => exact ⟨next, List.nil_infix⟩
  case expressionFollowEmpty | additiveFollowEmpty | termFollowEmpty | varFollowEmpty | argsEmpty
    | argListFollowEmpty => cases found
  all_goals cases inner

/-- The code of each chain below a tree is a part of the code of the tree. -/
theorem chain_code_part {tree : ParseTree} (conforming : tree.conforms Language.grammar = true)
    (inner : tree.sign.isInner = true) (next : Nat) {chain : ParseTree} (member : chain ∈ tree.subtrees)
    (chained : chain.IsChain) :
    chain.HasValue ∧ ∃ start, (ofTree chain).expression.code start <:+: (ofTree tree).codeBelow next tree.sign := by
  induction tree using Tree.by_children generalizing next with
  | node label children ih =>
    rw [Tree.subtrees_node] at member
    rcases List.mem_cons.mp member with rfl | below
    · refine ⟨⟨conforming, .inl chained⟩, next, ?_⟩
      rcases chained with signed | signed | signed <;> rw [signed] <;> exact List.infix_rfl
    · obtain ⟨child, present, deeper⟩ := List.mem_flatMap.mp below
      rcases Language.conforms_cases conforming with ⟨_, _, rfl⟩ | ⟨rule, signed, known, right, fits⟩
      · cases present
      · have listed : child.sign ∈ rule.production.right := right ▸ List.mem_map_of_mem present
        change label.sign.isInner = true at inner
        rw [signed] at inner
        have inside := Rule.isInner_right inner child.sign listed
        obtain ⟨index, bound, rfl⟩ := List.getElem_of_mem present
        have list := eq_map_range (children.map ofTree)
        rw [List.length_map, ← List.length_map Tree.sign, ← right] at list
        have found : rule.production.right[index]? = some children[index].sign := by
          rw [right, List.getElem?_map, List.getElem?_eq_getElem bound]
          rfl
        obtain ⟨start, part⟩ := child_code_part inner (fun index => (children.map ofTree).getD index {}) next found
        have same : (children.map ofTree).getD index {} = ofTree children[index] := by simp [bound]
        rw [← list, same, ← ofTree_rule signed known] at part
        obtain ⟨valued, start', inmost⟩ := ih _ present (fits _ present) inside start deeper
        refine ⟨valued, start', ?_⟩
        change _ <:+: (ofTree (.node label children)).codeBelow next label.sign
        rw [signed]
        exact inmost.trans part

end Phrase

theorem Tree.HasValue.sort {tree : ParseTree} (valued : tree.HasValue) :
    ∃ kind, tree.sign = .nonTerminal kind ∧ kind.isInner = true ∧
      ∀ phrase next, Phrase.codeOf phrase next kind = phrase.expression.code next := by
  rcases valued.signed with (signed | signed | signed) | signed <;> exact ⟨_, signed, rfl, fun _ _ => rfl⟩

/-- The operands and operators of a chain are those of its phrase. -/
theorem Tree.HasValue.expression_ofLinks {chain : ParseTree} (valued : chain.HasValue) (chained : chain.IsChain) :
    ∃ head links, (Phrase.ofTree chain).expression = .ofLinks head links ∧
      (∀ operand ∈ chain.operands, operand.HasValue) ∧
      chain.operands.map (fun operand => (Phrase.ofTree operand).expression) = head :: links.expressions ∧
      chain.operators = links.operators := by
  obtain ⟨label, children⟩ := chain
  obtain ⟨kind, signed, sort⟩ : ∃ kind, label.sign = .nonTerminal kind ∧
      (kind = .expression ∨ kind = .additiveExpr ∨ kind = .term) := by
    rcases chained with signed | signed | signed <;> exact ⟨_, signed, by simp⟩
  obtain ⟨rule, rfl, _, phrase, right, below⟩ := Language.expansion valued.conforming signed
  rw [phrase]
  cases rule
  case expression | additiveExpr | term =>
    obtain ⟨first, _, rfl, front, right⟩ := List.map_eq_cons_iff.mp right
    obtain ⟨rest, _, rfl, back, right⟩ := List.map_eq_cons_iff.mp right
    cases List.map_eq_nil_iff.mp right
    have linked := Phrase.linkedBy_ofTree (below rest (by simp)) back (by simp)
    have head : first.HasValue := ⟨below first (by simp), by simp [IsChain, front]⟩
    refine ⟨(Phrase.ofTree first).expression, _, ?_, ?_, ?_, linked.operators⟩
    · simp [Phrase.ofRule, Phrase.follow, Expression.ofRelation_eq]
    · exact List.forall_mem_cons.mpr ⟨head, List.forall_mem_map.mpr linked.valued⟩
    · rw [operands, List.map_cons, List.map_map]
      exact congrArg (_ :: ·) linked.expressions
  all_goals simp [Rule.production] at sort

/-- Below a tree with a value, the code of a chain is a part of the whole code. It is the code of the operands,
evaluated in a row, and then the instructions of the operators. -/
theorem Tree.HasValue.code_chain {tree : ParseTree} (valued : tree.HasValue) (inherited : Inherited)
    (progress : Progress) {chain : ParseTree} (member : chain ∈ tree.subtrees) (chained : chain.IsChain) :
    ∃ start own, (Walk.ofTree chain inherited start).1.code =
        (Walk.codes inherited chain.operands start).flatten ++ own ∧
      own.map Instruction.operator? = chain.operators.map some ∧
      (Walk.ofTree chain inherited start).1.code <:+: (Walk.ofTree tree inherited progress).1.code := by
  obtain ⟨kind, signed, inner, whole⟩ := valued.sort
  obtain ⟨inside, next, part⟩ := Phrase.chain_code_part valued.conforming (by rw [signed]; exact inner)
    progress.names.temporaries member chained
  obtain ⟨head, links, same, each, expressions, operators⟩ := inside.expression_ofLinks chained
  obtain ⟨own, code, behind⟩ := Expression.code_ofLinks head links next
  let start : Progress := { progress with names := { progress.names with temporaries := next } }
  refine ⟨start, own, ?_, ?_, ?_⟩
  · rw [inside.ofTree, Walk.codes_eq inherited each, expressions, same]
    exact code
  · rw [behind, operators]
  · rw [inside.ofTree, valued.ofTree]
    rw [signed, Phrase.codeBelow, whole] at part
    exact part

end Minuscule
