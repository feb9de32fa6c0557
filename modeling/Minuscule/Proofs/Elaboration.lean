import Minuscule.Proofs.Recursion
import Minuscule.Proofs.Syntax

/-!
The evaluation of a tree as an evaluation of its phrase. Every sort of phrase is elaborated by an action of its
own, and a node of a conforming tree is evaluated as its phrase is elaborated. The proof has one equation for
each rule, in which no tree occurs.
-/

namespace Minuscule

open Minuscule.Action

mutual

/-- The code of an expression, the place of its value, and the value of a literal. -/
def Expression.elaborate (scope : Scope) : Expression → Action Attributes
  | .number literal => return { constant := Numeral.signed? literal, place := literal }
  | .scalar use => do
    checkVariable scope use
    return { place := use.name }
  | .element use index => do
    let index ← index.elaborate scope
    checkElement scope use index.constant
    let target ← newTemporary
    return .ofValue (index.code ++ [.load target use.name index.place]) target
  | .call callee arguments => do
    let arguments ← arguments.elaborate scope
    Action.call callee arguments.args arguments.code
  | .chain head links => do
    let head ← head.elaborate scope
    let links ← links.elaborate scope
    foldChain head links.code links.chain

def Links.elaborate (scope : Scope) : Links → Action Attributes
  | .nil => return {}
  | .cons operator operand rest => do
    let operand ← operand.elaborate scope
    let rest ← rest.elaborate scope
    return { code := operand.code ++ rest.code, chain := (operator, operand.place) :: rest.chain }

def Arguments.elaborate (scope : Scope) : Arguments → Action Attributes
  | .nil => return {}
  | .cons first rest => do
    let first ← first.elaborate scope
    let rest ← rest.elaborate scope
    return { code := first.code ++ rest.code, args := first.place :: rest.args }

end

def Statement.elaborate (scope : Scope) : Statement → Action (List Instruction)
  | .skip => return []
  | .seq first rest => do
    let first ← first.elaborate scope
    let rest ← rest.elaborate scope
    return first ++ rest
  | .assign target value => do
    let value ← value.elaborate scope
    checkVariable scope target
    return value.code ++ [.assign target.name value.place]
  | .store target index value => do
    let index ← index.elaborate scope
    let value ← value.elaborate scope
    checkElement scope target index.constant
    return index.code ++ value.code ++ [.store target.name index.place value.place]
  | .call callee arguments => do
    let arguments ← arguments.elaborate scope
    let result ← Action.call callee arguments.args arguments.code
    return result.code
  | .select test consequent alternative => do
    let test ← test.elaborate scope
    let consequent ← consequent.elaborate scope
    let alternative ← alternative.elaborate scope
    let result ← selection test (.ofCode consequent) (.ofCode alternative)
    return result.code
  | .loop test body => do
    let test ← test.elaborate scope
    let body ← body.elaborate scope
    let result ← iteration test (.ofCode body)
    return result.code
  | .ret none => return [.ret none]
  | .ret (some value) => do
    let value ← value.elaborate scope
    return value.code ++ [.ret (some value.place)]

/-- The attributes of the brackets behind a declared name. -/
def Attributes.ofLength : Option String → Attributes
  | none => {}
  | some text => { lexeme := text, length := Numeral.unsigned? text, isArray := true }

def Declaration.elaborate (scope : Scope) (declaration : Declaration) : Action Unit :=
  declareVariable scope declaration.declarator (.ofLength declaration.length)

def Form.elaborate (declarator : Option Declarator) : Form → Action (List Instruction)
  | .datum length => do
    match declarator with
    | some declarator => declareVariable .global declarator (.ofLength length)
    | none => pure ()
    return []
  | .function params locals body => do
    let scope ← enterFunction declarator params
    locals.forM (Declaration.elaborate scope)
    let code ← body.elaborate scope
    return declarator.toList.map (fun declarator => .label declarator.subject.name) ++ code

def Program.elaborate : Program → Action (List Instruction)
  | [] => return []
  | definition :: rest => do
    let first ← definition.form.elaborate (some definition.declarator)
    let rest ← Program.elaborate rest
    return first ++ rest

def Access.elaborate (scope : Scope) : Access → Action Attributes
  | .plain => return {}
  | .element index => do
    let index ← index.elaborate scope
    return { suffix := some (.index index.place index.constant), code := index.code }
  | .call arguments => do
    let arguments ← arguments.elaborate scope
    return { suffix := some (.call arguments.args), code := arguments.code }

/-- The attributes of a relational operator and its right operand, where there are any. -/
def Expression.elaborateRelation (scope : Scope) : Option (Operator × Expression) → Action Attributes
  | none => return {}
  | some (operator, right) => do
    let right ← right.elaborate scope
    return { operator := some operator, place := right.place, code := right.code }

def Effect.elaborate (inherited : Inherited) : Effect → Action Attributes
  | .assign index value => do
    let index ← (index.elim Access.plain Access.element).elaborate inherited.scope
    let value ← value.elaborate inherited.scope
    assignment inherited index value
  | .call arguments => do
    let arguments ← arguments.elaborate inherited.scope
    match inherited.target with
    | none => return {}
    | some target => Action.call target arguments.args arguments.code

namespace Phrase

/-- The attributes that a phrase stands for below a non-terminal. -/
def attributesOf (phrase : Phrase) (inherited : Inherited) : NonTerminal → Action Attributes
  | .program | .defineList => do
    let code ← phrase.program.elaborate
    return .ofCode code
  | .define => do
    let code ← phrase.definition.form.elaborate (some phrase.definition.declarator)
    return .ofCode code
  | .defineType | .funDefineFollow => do
    let code ← phrase.form.elaborate inherited.declarator
    return .ofCode code
  | .varDefineFollow => return .ofLength phrase.length
  | .type => return { type := some phrase.type }
  | .params | .paramList | .paramFollow | .param => return { params := phrase.params }
  | .arraySubscript => return { isArray := phrase.isArray }
  | .codeBlock => do
    phrase.locals.forM (Declaration.elaborate inherited.scope)
    let code ← phrase.statement.elaborate inherited.scope
    return .ofCode code
  | .localDefineList => do
    phrase.locals.forM (Declaration.elaborate inherited.scope)
    return {}
  | .localVarDefine => do
    phrase.declaration.elaborate inherited.scope
    return {}
  | .codeList | .code | .normalStatement | .selectionStatement | .selectionFollow | .iterationStatement
  | .iterationFollow | .returnStatement | .returnFollow => do
    let code ← phrase.statement.elaborate inherited.scope
    return .ofCode code
  | .normalStatementFollow => phrase.effect.elaborate inherited
  | .callFollow | .args | .argList | .argListFollow => phrase.arguments.elaborate inherited.scope
  | .varFollow => (phrase.index.elim Access.plain Access.element).elaborate inherited.scope
  | .expression | .additiveExpr | .term | .factor => phrase.expression.elaborate inherited.scope
  | .expressionFollow => Expression.elaborateRelation inherited.scope phrase.relation
  | .relOp | .addOp | .mulOp => return .ofOperator phrase.operator
  | .additiveExprFollow | .termFollow => phrase.links.elaborate inherited.scope
  | .idFactorFollow => phrase.access.elaborate inherited.scope

/-- The attributes that a phrase stands for below a sign. -/
def attributes (phrase : Phrase) (inherited : Inherited) : Sign Terminal NonTerminal → Action Attributes
  | .terminal _ => return .leaf phrase.lexeme phrase.line
  | .nonTerminal kind => phrase.attributesOf inherited kind
  | _ => return {}

/-- The attributes of the phrases below the signs of a right-hand side. -/
def attributesFrom (rule : Rule) (inherited : Inherited) :
    List (Sign Terminal NonTerminal) → List Phrase → List Attributes → Action (List Attributes)
  | sign :: signs, phrase :: phrases, done => do
    let given ← inherit rule inherited done
    let found ← phrase.attributes given sign
    attributesFrom rule inherited signs phrases (done ++ [found])
  | _, _, done => return done

end Phrase

theorem Expression.elaborate_ofLinks (scope : Scope) (head : Expression) (links : Links) :
    (Expression.ofLinks head links).elaborate scope = (do
      let head ← head.elaborate scope
      let links ← links.elaborate scope
      foldChain head links.code links.chain) := by
  cases links <;> rfl

theorem Expression.elaborate_ofRelation (scope : Scope) (head : Expression)
    (relation : Option (Operator × Expression)) :
    (Expression.ofRelation head relation).elaborate scope = (do
      let head ← head.elaborate scope
      let follow ← elaborateRelation scope relation
      foldChain head follow.code (follow.operator.toList.map (·, follow.place))) := by
  cases relation with
  | none => rfl
  | some pair =>
    change (do
      let head ← head.elaborate scope
      let right ← pair.2.elaborate scope
      foldChain head (right.code ++ []) [(pair.1, right.place)]) = _
    simp only [List.append_nil]
    rfl

theorem Access.elaborate_expression (scope : Scope) (use : Occurrence) (access : Access) :
    (access.expression use).elaborate scope = (do
      let follow ← access.elaborate scope
      identifier scope use follow) := by
  cases access <;> rfl

theorem Effect.elaborate_statement (scope : Scope) (target : Occurrence) (effect : Effect) :
    (effect.statement target).elaborate scope = (do
      let result ← effect.elaborate { scope := scope, target := some target }
      return result.code) := by
  rcases effect with ⟨_ | index, value⟩ | arguments <;> rfl

namespace Phrase

theorem bind_ofCode (action : Action (List Instruction)) :
    (action >>= fun code => pure (Attributes.ofCode (code ++ []))) = action >>= fun code => pure (.ofCode code) := by
  simp only [List.append_nil]

theorem bind_bind_ofCode (first rest : Action (List Instruction)) :
    (first >>= fun code => rest >>= fun more => pure (Attributes.ofCode (code ++ (more ++ [])))) =
      first >>= fun code => rest >>= fun more => pure (.ofCode (code ++ more)) := by
  simp only [List.append_nil]

/-- The attributes of a node are those of its phrase, rule by rule. A node that joins the code of its children joins
it with nothing at the end. -/
theorem attributes_ofRule (rule : Rule) (inherited : Inherited) (child : Nat → Phrase) :
    let children := (List.range rule.production.right.length).map child
    (attributesFrom rule inherited rule.production.right children [] >>= synthesize rule inherited) =
      (ofRule rule children).attributesOf inherited rule.production.left := by
  cases rule
  case program => exact bind_ofCode (child 0).program.elaborate
  case define =>
    exact bind_ofCode ((child 2).form.elaborate (some ⟨(child 1).occurrence, (child 0).type⟩))
  case defineList =>
    exact bind_bind_ofCode ((child 0).definition.form.elaborate (some (child 0).definition.declarator))
      (child 1).program.elaborate
  case codeBlock =>
    exact bind_ofCode (do
      (child 1).locals.forM (Declaration.elaborate inherited.scope)
      (child 2).statement.elaborate inherited.scope)
  case codeList =>
    exact bind_bind_ofCode ((child 0).statement.elaborate inherited.scope)
      ((child 1).statement.elaborate inherited.scope)
  case returnStatement => exact bind_ofCode ((child 1).statement.elaborate inherited.scope)
  case normalStatementId =>
    have joined := bind_ofCode (do
      let result ← (child 1).effect.elaborate { scope := inherited.scope, target := some (child 0).occurrence }
      return result.code)
    have whole := Effect.elaborate_statement inherited.scope (child 0).occurrence (child 1).effect
    exact joined.trans (congrArg (· >>= fun code => pure (Attributes.ofCode code)) whole.symm)
  case defineTypeVar => obtain ⟨_, _ | declarator, _⟩ := inherited <;> rfl
  case expression =>
    exact (Expression.elaborate_ofRelation inherited.scope (child 0).expression (child 1).relation).symm
  case additiveExpr | term =>
    exact (Expression.elaborate_ofLinks inherited.scope (child 0).expression (child 1).links).symm
  case factorId =>
    exact (Access.elaborate_expression inherited.scope (child 0).occurrence (child 1).access).symm
  all_goals rfl

theorem eq_map_range (list : List Phrase) :
    list = (List.range list.length).map fun index => list.getD index {} := by
  apply List.ext_getElem
  · simp
  · intro index inside _
    simp [List.getD_eq_getElem?_getD, inside]

theorem ofTrees_eq_map (trees : List ParseTree) : ofTrees trees = trees.map ofTree := by
  induction trees with
  | nil => rfl
  | cons tree rest ih => rw [ofTrees, ih, List.map_cons]

theorem ofTree_terminal {label : Label Terminal NonTerminal} {kind : Terminal} (signed : label.sign = .terminal kind)
    (children : List ParseTree) :
    ofTree (.node label children) = { lexeme := label.lexeme.getD "", line := label.line } := by
  rw [ofTree, signed]

theorem ofTree_rule {label : Label Terminal NonTerminal} {kind : NonTerminal} {rule : Rule}
    (signed : label.sign = .nonTerminal kind) (known : label.production.bind Rule.ofIndex? = some rule)
    (children : List ParseTree) : ofTree (.node label children) = ofRule rule (children.map ofTree) := by
  rw [ofTree, signed, known, ofTrees_eq_map]

theorem attributesFrom_ofTrees (rule : Rule) (inherited : Inherited) {trees : List ParseTree}
    (each : ∀ tree ∈ trees, ∀ given,
      Evaluation.attributes tree given = (ofTree tree).attributes given tree.sign) (done : List Attributes) :
    Evaluation.attributesFrom trees rule inherited done =
      attributesFrom rule inherited (trees.map Tree.sign) (trees.map ofTree) done := by
  induction trees generalizing done with
  | nil => rfl
  | cons tree rest ih =>
    have here := each tree (List.mem_cons_self ..)
    have later := ih fun other member => each other (List.mem_cons_of_mem _ member)
    rw [Evaluation.attributesFrom, List.map_cons, List.map_cons, attributesFrom]
    simp only [here, later]

/-- A conforming tree is evaluated as its phrase is elaborated. -/
theorem attributes_ofTree (tree : ParseTree) (conforming : tree.conforms Language.grammar = true)
    (inherited : Inherited) :
    Evaluation.attributes tree inherited = (ofTree tree).attributes inherited tree.sign := by
  induction tree using Tree.by_children generalizing inherited with
  | node label children ih =>
    change _ = (ofTree (.node label children)).attributes inherited label.sign
    rcases Language.conforms_cases conforming with ⟨kind, signed, _⟩ | ⟨rule, signed, known, right, below⟩
    · rw [ofTree_terminal signed, Evaluation.attributes, signed]
      rfl
    · have each := fun tree member => ih tree member (below tree member)
      have list := eq_map_range (children.map ofTree)
      rw [List.length_map, ← List.length_map Tree.sign, ← right] at list
      rw [Evaluation.attributes_of_rule signed known, attributesFrom_ofTrees rule inherited each,
        ofTree_rule signed known,
        ← right, list, attributes_ofRule, signed]
      rfl

end Phrase

end Minuscule
