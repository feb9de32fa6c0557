import Minuscule.Attribute
import Minuscule.Language.Rule

/-!
The abstract syntax of C-minus, and the phrase that a parse tree stands for. Operators of one precedence form a
chain that is read from the left; parentheses and chains without an operator leave no trace. A phrase has a part
for every sort of node, and a rule fills in the part that its left-hand side has.
-/

namespace Minuscule

mutual

inductive Expression where
  | number (literal : String)
  | scalar (use : Occurrence)
  | element (use : Occurrence) (index : Expression)
  | call (callee : Occurrence) (arguments : Arguments)
  /-- Operators of one precedence, each applied to all that stands to its left. -/
  | chain (head : Expression) (links : Links)

/-- Operators with their right operands, the leftmost first. -/
inductive Links where
  | nil
  | cons (operator : Operator) (operand : Expression) (rest : Links)

inductive Arguments where
  | nil
  | cons (first : Expression) (rest : Arguments)

end

inductive Statement where
  | skip
  | seq (first rest : Statement)
  | assign (target : Occurrence) (value : Expression)
  | store (target : Occurrence) (index value : Expression)
  | call (callee : Occurrence) (arguments : Arguments)
  | select (test : Expression) (consequent alternative : Statement)
  | loop (test : Expression) (body : Statement)
  | ret (value : Option Expression)

/-- A variable, or an array with the text of its length. -/
structure Declaration where
  declarator : Declarator
  length : Option String

/-- What a definition makes of its declarator. -/
inductive Form where
  | datum (length : Option String)
  | function (params : List Parameter) (locals : List Declaration) (body : Statement)

structure Definition where
  declarator : Declarator
  form : Form

abbrev Program := List Definition

/-- What stands behind an identifier in an expression. -/
inductive Access where
  | plain
  | element (index : Expression)
  | call (arguments : Arguments)

/-- What a statement does with the identifier in front of it. -/
inductive Effect where
  | assign (index : Option Expression) (value : Expression)
  | call (arguments : Arguments)

namespace Expression

def ofLinks (head : Expression) : Links → Expression
  | .nil => head
  | links => .chain head links

def ofRelation (head : Expression) : Option (Operator × Expression) → Expression
  | none => head
  | some (operator, right) => .chain head (.cons operator right .nil)

end Expression

def Access.expression (use : Occurrence) : Access → Expression
  | plain => .scalar use
  | element index => .element use index
  | call arguments => .call use arguments

def Effect.statement (target : Occurrence) : Effect → Statement
  | assign none value => .assign target value
  | assign (some index) value => .store target index value
  | call arguments => .call target arguments

structure Phrase where
  lexeme : String := ""
  line : Nat := 0
  type : BaseType := .int
  operator : Operator := .add
  expression : Expression := .number ""
  relation : Option (Operator × Expression) := none
  links : Links := .nil
  arguments : Arguments := .nil
  index : Option Expression := none
  access : Access := .plain
  effect : Effect := .call .nil
  statement : Statement := .skip
  length : Option String := none
  isArray : Bool := false
  params : List Parameter := []
  declaration : Declaration := ⟨⟨⟨"", 0⟩, .int⟩, none⟩
  locals : List Declaration := []
  form : Form := .datum none
  definition : Definition := ⟨⟨⟨"", 0⟩, .int⟩, .datum none⟩
  program : Program := []

namespace Phrase

def occurrence (phrase : Phrase) : Occurrence :=
  ⟨phrase.lexeme, phrase.line⟩

/-- The phrase of a node from the phrases of its children. -/
def ofRule (rule : Rule) (children : List Phrase) : Phrase :=
  let child (index : Nat) : Phrase := children.getD index {}
  match rule with
  | .program => { program := (child 0).program }
  | .defineList => { program := (child 0).definition :: (child 1).program }
  | .define => { definition := ⟨⟨(child 1).occurrence, (child 0).type⟩, (child 2).form⟩ }
  | .defineTypeVar => { form := .datum (child 0).length }
  | .defineTypeFun => { form := (child 0).form }
  | .varDefineArray => { length := some (child 1).lexeme }
  | .typeInt => { type := .int }
  | .typeVoid => { type := .void }
  | .funDefineFollow => { form := .function (child 1).params (child 3).locals (child 3).statement }
  | .paramsList => { params := (child 0).params }
  | .paramList => { params := (child 0).params ++ (child 1).params }
  | .paramFollow => { params := (child 1).params ++ (child 2).params }
  | .param => { params := [⟨(child 1).occurrence, (child 2).isArray⟩] }
  | .arraySubscript => { isArray := true }
  | .codeBlock => { locals := (child 1).locals, statement := (child 2).statement }
  | .localDefineList => { locals := (child 0).declaration :: (child 1).locals }
  | .localVarDefine => { declaration := ⟨⟨(child 1).occurrence, (child 0).type⟩, (child 2).length⟩ }
  | .codeList => { statement := .seq (child 0).statement (child 1).statement }
  | .codeNormal | .codeSelection | .codeIteration | .codeReturn | .iterationCode =>
    { statement := (child 0).statement }
  | .normalStatementId => { statement := (child 1).effect.statement (child 0).occurrence }
  | .normalFollowAssign => { effect := .assign (child 0).index (child 2).expression }
  | .normalFollowCall => { effect := .call (child 0).arguments }
  | .callFollow => { arguments := (child 1).arguments }
  | .selection => { statement := .select (child 2).expression (child 5).statement (child 7).statement }
  | .selectionElse => { statement := (child 2).statement }
  | .iteration => { statement := .loop (child 2).expression (child 4).statement }
  | .iterationBlock | .returnStatement => { statement := (child 1).statement }
  | .returnVoid => { statement := .ret none }
  | .returnValue => { statement := .ret (some (child 0).expression) }
  | .varFollowIndex => { index := some (child 1).expression }
  | .expression => { expression := .ofRelation (child 0).expression (child 1).relation }
  | .expressionFollow => { relation := some ((child 0).operator, (child 1).expression) }
  | .additiveExpr | .term => { expression := .ofLinks (child 0).expression (child 1).links }
  | .additiveFollow | .termFollow =>
    { links := .cons (child 0).operator (child 1).expression (child 2).links }
  | .relOpLe => { operator := .le }
  | .relOpLt => { operator := .lt }
  | .relOpGt => { operator := .gt }
  | .relOpGe => { operator := .ge }
  | .relOpEq => { operator := .eq }
  | .relOpNe => { operator := .ne }
  | .addOpPlus => { operator := .add }
  | .addOpMinus => { operator := .sub }
  | .mulOpStar => { operator := .mul }
  | .mulOpSlash => { operator := .div }
  | .factorParen => { expression := (child 1).expression }
  | .factorId => { expression := (child 1).access.expression (child 0).occurrence }
  | .factorNum => { expression := .number (child 0).lexeme }
  | .idFactorVar => { access := (child 0).index.elim .plain .element }
  | .idFactorCall => { access := .call (child 1).arguments }
  | .args => { arguments := (child 0).arguments }
  | .argList => { arguments := .cons (child 0).expression (child 1).arguments }
  | .argListFollow => { arguments := .cons (child 1).expression (child 2).arguments }
  | .defineListEmpty | .varDefineScalar | .paramsVoid | .paramsEmpty | .paramFollowEmpty
  | .arraySubscriptEmpty | .localDefineListEmpty | .codeListEmpty | .normalStatementEmpty
  | .selectionEmpty | .varFollowEmpty | .expressionFollowEmpty | .additiveFollowEmpty
  | .termFollowEmpty | .argsEmpty | .argListFollowEmpty => {}

mutual

def ofTree : ParseTree → Phrase
  | .node label children =>
    match label.sign with
    | .terminal _ => { lexeme := label.lexeme.getD "", line := label.line }
    | _ =>
      match label.production.bind Rule.ofIndex? with
      | some rule => ofRule rule (ofTrees children)
      | none => {}

def ofTrees : List ParseTree → List Phrase
  | [] => []
  | tree :: rest => ofTree tree :: ofTrees rest

end

end Phrase

/-- The program that a tree stands for. -/
def Program.ofTree (tree : ParseTree) : Program :=
  (Phrase.ofTree tree).program

end Minuscule
