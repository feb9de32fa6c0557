import Minuscule.Proofs.Elaboration
import Minuscule.Proofs.Parsing

/-!
The operators of an expression, as they bind. A formula is an expression without parentheses and chains: each operator
has a left and a right operand. Which formula a row of words stands for is said apart from the grammar: products bind
tighter than sums and sums tighter than comparisons, operators of one strength group to the left, and parentheses only
group. The formula of a tree is what its words stand for.
-/

namespace Minuscule

/-- A variable or a number, an element, a call, or an operator between two formulas. -/
inductive Formula where
  | leaf (text : String)
  | element (array : String) (index : Formula)
  | call (function : String) (arguments : List Formula)
  | binary (operator : Operator) (left right : Formula)

/-- Operators one after the other, each applied to all that stands to its left. -/
def Formula.group (left : Formula) : List Operator → List Formula → Formula
  | operator :: operators, right :: rest => group (.binary operator left right) operators rest
  | _, _ => left

def Links.operators : Links → List Operator
  | .nil => []
  | .cons operator _ rest => operator :: rest.operators

mutual

def Expression.formula : Expression → Formula
  | .number literal => .leaf literal
  | .scalar use => .leaf use.name
  | .element use index => .element use.name index.formula
  | .call callee arguments => .call callee.name arguments.formulas
  | .chain head links => .group head.formula links.operators links.formulas

def Links.formulas : Links → List Formula
  | .nil => []
  | .cons _ operand rest => operand.formula :: rest.formulas

def Arguments.formulas : Arguments → List Formula
  | .nil => []
  | .cons first rest => first.formula :: rest.formulas

end

/-! Words. -/

/-- How tightly a formula holds together, the tightest first. -/
inductive Strength where
  | factor | product | sum | comparison

/-- A token without its line. -/
abbrev Word := Terminal × String

def Operator.strength : Operator → Strength
  | mul | div => .product
  | add | sub => .sum
  | lt | le | gt | ge | eq | ne => .comparison

namespace Strength

/-- The strength of a left operand. Products and sums go on to the left, and comparisons do not. -/
def left : Strength → Strength
  | factor => factor
  | product => product
  | sum => sum
  | comparison => sum

/-- The strength of a right operand, and of a formula without an operator of the strength. -/
def right : Strength → Strength
  | factor => factor
  | product => factor
  | sum => product
  | comparison => sum

end Strength

def Terminal.operator? : Terminal → Option Operator
  | plus => some .add
  | minus => some .sub
  | star => some .mul
  | slash => some .div
  | lt => some .lt
  | le => some .le
  | gt => some .gt
  | ge => some .ge
  | eqEq => some .eq
  | notEq => some .ne
  | _ => none

mutual

/-- A row of words stands for a formula of a strength. -/
inductive Reads : Strength → List Word → Formula → Prop
  | number {text : String} : Reads .factor [(.num, text)] (.leaf text)
  | name {text : String} : Reads .factor [(.ident, text)] (.leaf text)
  | element {array opened closed : String} {words : List Word} {index : Formula}
    (inside : Reads .comparison words index) :
    Reads .factor ((.ident, array) :: (.lbracket, opened) :: (words ++ [(.rbracket, closed)])) (.element array index)
  | call {function opened closed : String} {words : List Word} {arguments : List Formula}
    (inside : ReadsAll words arguments) :
    Reads .factor ((.ident, function) :: (.lparen, opened) :: (words ++ [(.rparen, closed)])) (.call function arguments)
  | group {opened closed : String} {words : List Word} {formula : Formula} (inside : Reads .comparison words formula) :
    Reads .factor ((.lparen, opened) :: (words ++ [(.rparen, closed)])) formula
  | alone {strength : Strength} {words : List Word} {formula : Formula} (tight : Reads strength.right words formula) :
    Reads strength words formula
  | binary {operator : Operator} {kind : Terminal} {text : String} {front back : List Word} {left right : Formula}
    (known : kind.operator? = some operator) (first : Reads operator.strength.left front left)
    (second : Reads operator.strength.right back right) :
    Reads operator.strength (front ++ (kind, text) :: back) (.binary operator left right)

/-- Formulas with commas between them. -/
inductive ReadsAll : List Word → List Formula → Prop
  | nil : ReadsAll [] []
  | single {words : List Word} {formula : Formula} (only : Reads .comparison words formula) : ReadsAll words [formula]
  | cons {comma : String} {front back : List Word} {first next : Formula} {rest : List Formula}
    (here : Reads .comparison front first) (later : ReadsAll back (next :: rest)) :
    ReadsAll (front ++ (.comma, comma) :: back) (first :: next :: rest)

end

theorem Reads.operate {strength : Strength} {operator : Operator} {kind : Terminal} {text : String}
    {front back : List Word} {left right : Formula} (known : kind.operator? = some operator)
    (strong : operator.strength = strength) (first : Reads strength.left front left)
    (second : Reads strength.right back right) :
    Reads strength (front ++ (kind, text) :: back) (.binary operator left right) := by
  subst strong
  exact .binary known first second

theorem Expression.formula_ofLinks (head : Expression) (links : Links) :
    (Expression.ofLinks head links).formula = .group head.formula links.operators links.formulas := by
  cases links <;> rfl

/-! Trees. -/

def Label.word? (label : Label Terminal NonTerminal) : Option Word :=
  match label.sign with
  | .terminal kind => some (kind, label.lexeme.getD "")
  | _ => none

/-- The words of a tree from left to right. -/
def Tree.words (tree : ParseTree) : List Word :=
  tree.leafLabels.filterMap Label.word?

theorem Tree.words_node (label : Label Terminal NonTerminal) (children : List ParseTree) :
    words (.node label children) = label.word?.toList ++ children.flatMap words := by
  rw [words, leafLabels_node, List.filterMap_append, List.filterMap_flatMap]
  congr 1
  cases signed : label.sign <;> simp [Sign.isTerminal, Label.word?, signed]

/-- Operators and operands that go on with what stands in front of them. -/
def Links.Continues (links : Links) (strength : Strength) (words : List Word) : Prop :=
  ∀ front left, Reads strength front left → Reads strength (front ++ words) (.group left links.operators links.formulas)

/-- Nothing, an index in brackets, or arguments in parentheses. -/
def Access.ReadsFrom (words : List Word) : Access → Prop
  | .plain => words = []
  | .element index => ∃ opened inner closed, words = (.lbracket, opened) :: (inner ++ [(.rbracket, closed)]) ∧
    Reads .comparison inner index.formula
  | .call arguments => ∃ opened inner closed, words = (.lparen, opened) :: (inner ++ [(.rparen, closed)]) ∧
    ReadsAll inner arguments.formulas

namespace Phrase

/-- One word, which is an operator of this strength. -/
def IsOperator (phrase : Phrase) (strength : Strength) (words : List Word) : Prop :=
  ∃ kind text, words = [(kind, text)] ∧ kind.operator? = some phrase.operator ∧ phrase.operator.strength = strength

/-- What the words below a non-terminal stand for. -/
def ReadsOf (phrase : Phrase) (words : List Word) : NonTerminal → Prop
  | .expression => Reads .comparison words phrase.expression.formula
  | .additiveExpr => Reads .sum words phrase.expression.formula
  | .term => Reads .product words phrase.expression.formula
  | .factor => Reads .factor words phrase.expression.formula
  | .relOp => phrase.IsOperator .comparison words
  | .addOp => phrase.IsOperator .sum words
  | .mulOp => phrase.IsOperator .product words
  | .additiveExprFollow => phrase.links.Continues .sum words
  | .termFollow => phrase.links.Continues .product words
  | .expressionFollow =>
    match phrase.relation with
    | none => words = []
    | some (operator, right) => ∃ kind text back, words = (kind, text) :: back ∧ kind.operator? = some operator ∧
      operator.strength = .comparison ∧ Reads .sum back right.formula
  | .varFollow => (phrase.index.elim Access.plain Access.element).ReadsFrom words
  | .idFactorFollow => phrase.access.ReadsFrom words
  | .args | .argList => ReadsAll words phrase.arguments.formulas
  | .argListFollow =>
    ∀ front first, Reads .comparison front first → ReadsAll (front ++ words) (first :: phrase.arguments.formulas)
  | _ => True

/-- What the words below a sign stand for. -/
def ReadsAs (phrase : Phrase) (words : List Word) : Sign Terminal NonTerminal → Prop
  | .terminal kind => words = [(kind, phrase.lexeme)]
  | .nonTerminal kind => phrase.ReadsOf words kind
  | _ => True

theorem reads_ofRule (rule : Rule) (child : Nat → Phrase) (words : Nat → List Word)
    (each : ∀ index sign, rule.production.right[index]? = some sign → (child index).ReadsAs (words index) sign) :
    (ofRule rule ((List.range rule.production.right.length).map child)).ReadsOf
      ((List.range rule.production.right.length).flatMap words) rule.production.left := by
  cases rule
  case expression =>
    have first : Reads .sum (words 0) _ := each 0 _ rfl
    have follow := each 1 _ rfl
    change Reads .comparison (words 0 ++ (words 1 ++ []))
      (Expression.ofRelation (child 0).expression (child 1).relation).formula
    rw [List.append_nil]
    rcases found : (child 1).relation with _ | ⟨operator, right⟩ <;> simp only [ReadsAs, ReadsOf, found] at follow
    · rw [follow, List.append_nil]
      exact .alone first
    · obtain ⟨kind, text, back, spelled, known, strong, second⟩ := follow
      rw [spelled]
      exact .operate known strong first second
  case additiveExpr | term =>
    change Reads _ (words 0 ++ (words 1 ++ [])) (Expression.ofLinks (child 0).expression (child 1).links).formula
    rw [List.append_nil, Expression.formula_ofLinks]
    exact each 1 _ rfl _ _ (.alone (each 0 _ rfl))
  case additiveFollow | termFollow =>
    obtain ⟨kind, text, spelled, known, strong⟩ := each 0 _ rfl
    intro front left first
    have joined : Reads _ (front ++ (kind, text) :: words 1) _ := .operate known strong first (each 1 _ rfl)
    have whole := each 2 _ rfl _ _ joined
    change Reads _ (front ++ (words 0 ++ (words 1 ++ (words 2 ++ [])))) _
    rw [spelled, List.append_nil]
    rw [List.append_assoc] at whole
    exact whole
  case additiveFollowEmpty | termFollowEmpty =>
    intro front left first
    exact (List.append_nil front).symm ▸ first
  case expressionFollow =>
    obtain ⟨kind, text, spelled, known, strong⟩ := each 0 _ rfl
    refine ⟨kind, text, words 1, ?_, known, strong, each 1 _ rfl⟩
    change words 0 ++ (words 1 ++ []) = _
    rw [spelled, List.append_nil]
    rfl
  case relOpLe | relOpLt | relOpGt | relOpGe | relOpEq | relOpNe | addOpPlus | addOpMinus | mulOpStar | mulOpSlash =>
    refine ⟨_, _, (List.append_nil (words 0)).trans (each 0 _ rfl), ?_, ?_⟩ <;> rfl
  case factorParen =>
    have opened : words 0 = _ := each 0 _ rfl
    have closed : words 2 = _ := each 2 _ rfl
    change Reads _ (words 0 ++ (words 1 ++ (words 2 ++ []))) _
    rw [opened, closed]
    exact .group (each 1 _ rfl)
  case factorId =>
    have name : words 0 = _ := each 0 _ rfl
    have follow : (child 1).access.ReadsFrom (words 1) := each 1 _ rfl
    change Reads _ (words 0 ++ (words 1 ++ [])) ((child 1).access.expression (child 0).occurrence).formula
    rw [name, List.append_nil]
    generalize (child 1).access = access at follow ⊢
    rcases access with _ | index | arguments
    · rw [show words 1 = [] from follow]
      exact .name
    · obtain ⟨opened, inner, closed, spelled, inside⟩ := follow
      rw [spelled]
      exact .element inside
    · obtain ⟨opened, inner, closed, spelled, inside⟩ := follow
      rw [spelled]
      exact .call inside
  case factorNum =>
    have spelled : words 0 = _ := each 0 _ rfl
    change Reads _ (words 0 ++ []) _
    rw [spelled]
    exact .number
  case idFactorVar =>
    change Access.ReadsFrom (words 0 ++ []) _
    rw [List.append_nil]
    exact each 0 _ rfl
  case idFactorCall | varFollowIndex =>
    have opened : words 0 = _ := each 0 _ rfl
    have closed : words 2 = _ := each 2 _ rfl
    refine ⟨(child 0).lexeme, words 1, (child 2).lexeme, ?_, each 1 _ rfl⟩
    change words 0 ++ (words 1 ++ (words 2 ++ [])) = _
    rw [opened, closed]
    rfl
  case varFollowEmpty | expressionFollowEmpty => rfl
  case args =>
    change ReadsAll (words 0 ++ []) _
    rw [List.append_nil]
    exact each 0 _ rfl
  case argsEmpty => exact .nil
  case argList =>
    change ReadsAll (words 0 ++ (words 1 ++ [])) _
    rw [List.append_nil]
    exact each 1 _ rfl _ _ (each 0 _ rfl)
  case argListFollow =>
    have comma : words 0 = _ := each 0 _ rfl
    intro front first here
    change ReadsAll (front ++ (words 0 ++ (words 1 ++ (words 2 ++ [])))) _
    rw [comma, List.append_nil]
    exact .cons here (each 2 _ rfl _ _ (each 1 _ rfl))
  case argListFollowEmpty =>
    intro front first here
    exact (List.append_nil front).symm ▸ .single here
  all_goals trivial

/-- The words of a conforming tree stand for its phrase. -/
theorem reads_ofTree (tree : ParseTree) (conforming : tree.conforms Language.grammar = true) :
    (ofTree tree).ReadsAs tree.words tree.sign := by
  induction tree using Tree.by_children with
  | node label children ih =>
    change (ofTree (.node label children)).ReadsAs _ label.sign
    rcases Language.conforms_cases conforming with ⟨kind, signed, rfl⟩ | ⟨rule, signed, known, right, below⟩
    · rw [Tree.words_node, ofTree_terminal signed, Label.word?, signed]
      rfl
    · let tree (index : Nat) : ParseTree := children.getD index (.node label [])
      have list : children = (List.range rule.production.right.length).map tree := by
        rw [right, List.length_map]
        apply List.ext_getElem (by simp)
        intro index inside _
        simp [tree, inside]
      rw [ofTree_rule signed known, Tree.words_node, Label.word?, signed, list, List.map_map, List.flatMap_map]
      apply reads_ofRule
      intro index sign found
      rw [right, List.getElem?_map] at found
      obtain ⟨child, present, rfl⟩ := Option.map_eq_some_iff.mp found
      have same : tree index = child := by simp [tree, present]
      have member := List.mem_of_getElem? present
      change (ofTree (tree index)).ReadsAs (tree index).words child.sign
      rw [same]
      exact ih child member (below child member)

end Phrase

end Minuscule
