import Minuscule.Attribute.Check
import Minuscule.Attribute.Declare
import Minuscule.Attribute.Layout
import Minuscule.Language.Rule
import Minuscule.Numeral

/-!
How attributes flow through a production. `inherit` is asked for the attributes of a child right before
the child is evaluated, with the attributes of the children in front of it; `synthesize` combines the
attributes of all children once they are done.
-/

namespace Minuscule.Action

/-- The inherited attributes of the next child. The scope is that of the node, except that a function
body has a scope of its own. -/
def inherit (rule : Rule) (inherited : Inherited) (done : List Attributes) : Action Inherited :=
  match rule, done with
  | .define, [type, name] =>
    return { scope := inherited.scope, declarator := some (.ofAttributes type name) }
  | .defineTypeVar, [] | .defineTypeFun, [] =>
    return { scope := inherited.scope, declarator := inherited.declarator }
  | .funDefineFollow, [_, params, _] =>
    return { scope := ← enterFunction inherited.declarator params.params }
  | .normalStatementId, [name] =>
    return { scope := inherited.scope, target := some name.occurrence }
  | _, _ => return { scope := inherited.scope }

/-- Checks a call and lays it out behind the code of its arguments. -/
def call (callee : Occurrence) (args : List String) (code : List Instruction) :
    Action Attributes := do
  checkCall callee args.length
  let target ← newTemporary
  return .ofValue (code ++ Layout.call callee.name args target) target

/-- An operator chain folds its operands from the left; an operand alone passes through as it is. -/
def foldChain (head : Attributes) (code : List Instruction) (links : List (Operator × String)) :
    Action Attributes :=
  if links.isEmpty then return head
  else modifyGet fun progress =>
    let next := progress.names.temporaries
    let names := { progress.names with temporaries := next + links.length }
    (.ofValue (head.code ++ code ++ Layout.chain next head.place links)
      (Layout.chainPlace next head.place links), { progress with names := names })

def assignment (inherited : Inherited) (subscript value : Attributes) : Action Attributes :=
  match inherited.target with
  | none => return {}
  | some target => do
    let code := subscript.code ++ value.code
    match subscript.suffix with
    | some (.index place constant) =>
      checkElement inherited.scope target constant
      return .ofCode (code ++ [.store target.name place value.place])
    | _ =>
      checkVariable inherited.scope target
      return .ofCode (code ++ [.assign target.name value.place])

def selection (test consequent alternative : Attributes) : Action Attributes := do
  let consequentLabel ← newLabel
  let alternativeLabel ← newLabel
  let joinLabel ← newLabel
  return .ofCode (Layout.selection test.code test.place consequent.code alternative.code
    consequentLabel alternativeLabel joinLabel)

def iteration (test body : Attributes) : Action Attributes := do
  let testLabel ← newLabel
  let bodyLabel ← newLabel
  let endLabel ← newLabel
  return .ofCode (Layout.iteration test.code test.place body.code testLabel bodyLabel endLabel)

/-- An identifier in an expression: a variable, an element or a call, as its suffix says. -/
def identifier (scope : Scope) (use : Occurrence) (follow : Attributes) : Action Attributes := do
  match follow.suffix with
  | none =>
    checkVariable scope use
    return { place := use.name }
  | some (.index place constant) =>
    checkElement scope use constant
    let target ← newTemporary
    return .ofValue (follow.code ++ [.load target use.name place]) target
  | some (.call args) => call use args follow.code

def synthesize (rule : Rule) (inherited : Inherited) (children : List Attributes) :
    Action Attributes :=
  let child (index : Nat) : Attributes := children.getD index {}
  match rule with
  | .program | .defineList | .define | .codeBlock | .localDefineList | .codeList
  | .normalStatementId | .returnStatement => return .concat children
  | .defineListEmpty | .varDefineScalar | .paramsVoid | .paramsEmpty | .paramFollowEmpty
  | .arraySubscriptEmpty | .localDefineListEmpty | .codeListEmpty | .normalStatementEmpty
  | .selectionEmpty | .varFollowEmpty | .expressionFollowEmpty | .additiveFollowEmpty
  | .termFollowEmpty | .argsEmpty | .argListFollowEmpty => return {}
  | .defineTypeFun | .paramsList | .codeNormal | .codeSelection | .codeIteration | .codeReturn
  | .iterationCode | .idFactorVar | .args => return child 0
  | .callFollow | .iterationBlock | .factorParen => return child 1
  | .selectionElse => return child 2
  | .defineTypeVar => do
    match inherited.declarator, children with
    | some declarator, follow :: _ => declareVariable .global declarator follow
    | _, _ => pure ()
    return {}
  | .localVarDefine => do
    match children with
    | [type, name, follow] => declareVariable inherited.scope (.ofAttributes type name) follow
    | _ => pure ()
    return {}
  | .varDefineArray =>
    let lexeme := (child 1).lexeme
    return { lexeme := lexeme, length := Numeral.unsigned? lexeme, isArray := true }
  | .typeInt => return { type := some .int }
  | .typeVoid => return { type := some .void }
  | .funDefineFollow =>
    let entry := inherited.declarator.toList.map fun declarator => .label declarator.subject.name
    return .ofCode (entry ++ (child 3).code)
  | .paramList => return { params := (child 0).params ++ (child 1).params }
  | .paramFollow => return { params := (child 1).params ++ (child 2).params }
  | .param =>
    match children with
    | [_, name, subscript] => return { params := [⟨name.occurrence, subscript.isArray⟩] }
    | _ => return {}
  | .arraySubscript => return { isArray := true }
  | .normalFollowAssign => assignment inherited (child 0) (child 2)
  | .normalFollowCall =>
    match inherited.target with
    | none => return {}
    | some target => call target (child 0).args (child 0).code
  | .selection => selection (child 2) (child 5) (child 7)
  | .iteration => iteration (child 2) (child 4)
  | .returnVoid => return .ofCode [.ret none]
  | .returnValue => return .ofCode ((child 0).code ++ [.ret (some (child 0).place)])
  | .varFollowIndex =>
    let index := child 1
    return { suffix := some (.index index.place index.constant), code := index.code }
  | .expression =>
    let follow := child 1
    foldChain (child 0) follow.code (follow.operator.toList.map (·, follow.place))
  | .expressionFollow =>
    return { operator := (child 0).operator, place := (child 1).place, code := (child 1).code }
  | .additiveExpr | .term => foldChain (child 0) (child 1).code (child 1).chain
  | .additiveFollow | .termFollow =>
    let links := (child 0).operator.toList.map (·, (child 1).place)
    return { code := (child 1).code ++ (child 2).code, chain := links ++ (child 2).chain }
  | .relOpLe => return .ofOperator .le
  | .relOpLt => return .ofOperator .lt
  | .relOpGt => return .ofOperator .gt
  | .relOpGe => return .ofOperator .ge
  | .relOpEq => return .ofOperator .eq
  | .relOpNe => return .ofOperator .ne
  | .addOpPlus => return .ofOperator .add
  | .addOpMinus => return .ofOperator .sub
  | .mulOpStar => return .ofOperator .mul
  | .mulOpSlash => return .ofOperator .div
  | .factorId => identifier inherited.scope (child 0).occurrence (child 1)
  | .factorNum =>
    let literal := (child 0).lexeme
    return { constant := Numeral.signed? literal, place := literal }
  | .idFactorCall => return { suffix := some (.call (child 1).args), code := (child 1).code }
  | .argList =>
    return { code := (child 0).code ++ (child 1).code, args := (child 0).place :: (child 1).args }
  | .argListFollow =>
    return { code := (child 1).code ++ (child 2).code, args := (child 1).place :: (child 2).args }

end Minuscule.Action
