import Minuscule.Attribute.Walk

/-!
An evaluation that takes nothing for granted. The actions of the productions fill in what they do not find: a child
that is not there has empty attributes, a declaration without a type is an `int`, a statement without a target has no
code, a scope without a table takes no declaration. The strict evaluation goes through a tree by the same walk and
stops wherever one of these would be filled in, and also where a child has another sign than the action takes it for.
The text of a leaf is not among them: it is no part of what makes a tree conform to the grammar, and a leaf without one
has the empty text in both evaluations.
-/

namespace Minuscule

/-- An action that stops when something is missing. -/
abbrev StrictAction := StateT Progress Option

namespace Strict
variable {α : Type}

/-- An action that needs nothing more than it is given. -/
def lift (action : Action α) : StrictAction α :=
  fun progress => some (action.run progress)

/-- A value that has to be there. -/
def present (value : Option α) : StrictAction α :=
  fun progress => value.map (·, progress)

/-- The scope has to have a table. -/
def tabled (scope : Scope) : StrictAction Unit :=
  fun progress => if (progress.symbols.table? scope).isSome then some ((), progress) else none

/-- A child that has been evaluated. -/
structure Child where
  sign : Sign Terminal NonTerminal
  attributes : Attributes

/-- The child has to have the sign. -/
def Child.as (child : Child) (sign : Sign Terminal NonTerminal) : StrictAction Attributes :=
  present (if child.sign = sign then some child.attributes else none)

/-- The child at an index, which has to be there and to have the sign. -/
def child (children : List Child) (index : Nat) (sign : Sign Terminal NonTerminal) : StrictAction Attributes := do
  let found ← present children[index]?
  found.as sign

/-- The type has to be given. -/
def declarator (type name : Attributes) : StrictAction Declarator := do
  let type ← present type.type
  return ⟨name.occurrence, type⟩

def declareVariable (scope : Scope) (declarator : Declarator) (follow : Attributes) : StrictAction Unit := do
  tabled scope
  lift (Action.declareVariable scope declarator follow)

def enterParameter (scope : Scope) (parameter : Parameter) : StrictAction Unit := do
  tabled scope
  lift (Action.enterParameter scope parameter)

def enterFunction (declarator : Option Declarator) (params : List Parameter) : StrictAction Scope := do
  let declarator ← present declarator
  let locals ← lift (modifyGet fun progress =>
    let (number, symbols) := progress.symbols.newLocals
    (number, { progress with symbols := symbols }))
  lift (Action.defineFunction declarator params locals)
  params.forM (enterParameter (.local locals))
  return .local locals

/-- The inherited attributes of the next child, by the number of children in front of it. -/
def inherit (rule : Rule) (inherited : Inherited) (done : List Child) : StrictAction Inherited :=
  match rule, done.length with
  | .define, 2 =>
    match done with
    | [type, name] => do
      let declarator ← declarator (← type.as (.nonTerminal .type)) (← name.as (.terminal .ident))
      return { scope := inherited.scope, declarator := some declarator }
    | _ => failure
  | .defineTypeVar, 0 | .defineTypeFun, 0 => do
    let declarator ← present inherited.declarator
    return { scope := inherited.scope, declarator := some declarator }
  | .funDefineFollow, 3 => do
    let params ← child done 1 (.nonTerminal .params)
    return { scope := ← enterFunction inherited.declarator params.params }
  | .normalStatementId, 1 => do
    let name ← child done 0 (.terminal .ident)
    return { scope := inherited.scope, target := some name.occurrence }
  | _, _ => return { scope := inherited.scope }

def assignment (inherited : Inherited) (subscript value : Attributes) : StrictAction Attributes := do
  let target ← present inherited.target
  tabled inherited.scope
  lift (Action.assignment { inherited with target := some target } subscript value)

def identifier (scope : Scope) (use : Occurrence) (follow : Attributes) : StrictAction Attributes := do
  tabled scope
  lift (Action.identifier scope use follow)

/-- The operator has to be there, and the operand goes with it. -/
def link (operator operand : Attributes) : StrictAction (Operator × String) := do
  let operator ← present operator.operator
  return (operator, operand.place)

def synthesize (rule : Rule) (inherited : Inherited) (children : List Child) : StrictAction Attributes :=
  let word (index : Nat) (kind : Terminal) := child children index (.terminal kind)
  let part (index : Nat) (kind : NonTerminal) := child children index (.nonTerminal kind)
  match rule with
  | .program | .defineList | .define | .codeBlock | .localDefineList | .codeList
  | .normalStatementId | .returnStatement => return .concat (children.map Child.attributes)
  | .defineListEmpty | .varDefineScalar | .paramsVoid | .paramsEmpty | .paramFollowEmpty
  | .arraySubscriptEmpty | .localDefineListEmpty | .codeListEmpty | .normalStatementEmpty
  | .selectionEmpty | .varFollowEmpty | .expressionFollowEmpty | .additiveFollowEmpty
  | .termFollowEmpty | .argsEmpty | .argListFollowEmpty => return {}
  | .defineTypeFun => part 0 .funDefineFollow
  | .paramsList => part 0 .paramList
  | .codeNormal => part 0 .normalStatement
  | .codeSelection => part 0 .selectionStatement
  | .codeIteration => part 0 .iterationStatement
  | .codeReturn => part 0 .returnStatement
  | .iterationCode => part 0 .code
  | .idFactorVar => part 0 .varFollow
  | .args => part 0 .argList
  | .callFollow => part 1 .args
  | .iterationBlock => part 1 .codeList
  | .factorParen => part 1 .expression
  | .selectionElse => part 2 .codeList
  | .defineTypeVar => do
    let declarator ← present inherited.declarator
    let follow ← part 0 .varDefineFollow
    declareVariable .global declarator follow
    return {}
  | .localVarDefine =>
    match children with
    | [type, name, follow] => do
      let declarator ← declarator (← type.as (.nonTerminal .type)) (← name.as (.terminal .ident))
      declareVariable inherited.scope declarator (← follow.as (.nonTerminal .varDefineFollow))
      return {}
    | _ => failure
  | .varDefineArray => do
    let lexeme := (← word 1 .num).lexeme
    return { lexeme := lexeme, length := Numeral.unsigned? lexeme, isArray := true }
  | .typeInt => return { type := some .int }
  | .typeVoid => return { type := some .void }
  | .funDefineFollow => do
    let declarator ← present inherited.declarator
    let body ← part 3 .codeBlock
    return .ofCode (.label declarator.subject.name :: body.code)
  | .paramList => do
    let first ← part 0 .param
    let rest ← part 1 .paramFollow
    return { params := first.params ++ rest.params }
  | .paramFollow => do
    let first ← part 1 .param
    let rest ← part 2 .paramFollow
    return { params := first.params ++ rest.params }
  | .param =>
    match children with
    | [_, name, subscript] => do
      let name ← name.as (.terminal .ident)
      let subscript ← subscript.as (.nonTerminal .arraySubscript)
      return { params := [⟨name.occurrence, subscript.isArray⟩] }
    | _ => failure
  | .arraySubscript => return { isArray := true }
  | .normalFollowAssign => do assignment inherited (← part 0 .varFollow) (← part 2 .expression)
  | .normalFollowCall => do
    let target ← present inherited.target
    let follow ← part 0 .callFollow
    lift (Action.call target follow.args follow.code)
  | .selection => do
    lift (Action.selection (← part 2 .expression) (← part 5 .codeList) (← part 7 .selectionFollow))
  | .iteration => do lift (Action.iteration (← part 2 .expression) (← part 4 .iterationFollow))
  | .returnVoid => return .ofCode [.ret none]
  | .returnValue => do
    let value ← part 0 .expression
    return .ofCode (value.code ++ [.ret (some value.place)])
  | .varFollowIndex => do
    let index ← part 1 .expression
    return { suffix := some (.index index.place index.constant), code := index.code }
  | .expression => do
    let head ← part 0 .additiveExpr
    let follow ← part 1 .expressionFollow
    lift (Action.foldChain head follow.code (follow.operator.toList.map (·, follow.place)))
  | .expressionFollow => do
    let operand ← part 1 .additiveExpr
    let link ← link (← part 0 .relOp) operand
    return { operator := some link.1, place := link.2, code := operand.code }
  | .additiveExpr => do
    let head ← part 0 .term
    let follow ← part 1 .additiveExprFollow
    lift (Action.foldChain head follow.code follow.chain)
  | .term => do
    let head ← part 0 .factor
    let follow ← part 1 .termFollow
    lift (Action.foldChain head follow.code follow.chain)
  | .additiveFollow => do
    let operand ← part 1 .term
    let link ← link (← part 0 .addOp) operand
    let rest ← part 2 .additiveExprFollow
    return { code := operand.code ++ rest.code, chain := link :: rest.chain }
  | .termFollow => do
    let operand ← part 1 .factor
    let link ← link (← part 0 .mulOp) operand
    let rest ← part 2 .termFollow
    return { code := operand.code ++ rest.code, chain := link :: rest.chain }
  | .relOpLe => return .ofOperator .le
  | .relOpLt => return .ofOperator .lt
  | .relOpGt => return .ofOperator .gt
  | .relOpGe => return .ofOperator .ge
  | .relOpEq => return .ofOperator .eq
  | .relOpNe => return .ofOperator .ne
  | .addOpPlus => return .ofOperator .add
  | .addOpMinus => return .ofOperator .sub
  | .mulOpStar => return .ofOperator .mul
  | .mulOpSlash => return .ofOperator .div
  | .factorId => do
    let name ← word 0 .ident
    identifier inherited.scope name.occurrence (← part 1 .idFactorFollow)
  | .factorNum => do
    let literal := (← word 0 .num).lexeme
    return { constant := Numeral.signed? literal, place := literal }
  | .idFactorCall => do
    let args ← part 1 .args
    return { suffix := some (.call args.args), code := args.code }
  | .argList => do
    let first ← part 0 .expression
    let rest ← part 1 .argListFollow
    return { code := first.code ++ rest.code, args := first.place :: rest.args }
  | .argListFollow => do
    let first ← part 1 .expression
    let rest ← part 2 .argListFollow
    return { code := first.code ++ rest.code, args := first.place :: rest.args }

end Strict

/-! The walk. -/

namespace Strict

/-- A frame that knows the signs of its children that are done. -/
structure Frame extends Minuscule.Frame where
  signs : List (Sign Terminal NonTerminal)

namespace Frame

def children (frame : Frame) : List Child :=
  List.zipWith Child.mk frame.signs frame.done

def receive (frame : Frame) (child : Child) : Frame :=
  ⟨frame.toFrame.receive child.attributes, frame.signs ++ [child.sign]⟩

end Frame

/-- A terminal, or a node that a production of the language expands. -/
def isExpanded (tree : ParseTree) : Bool :=
  match tree.sign with
  | .terminal _ => true
  | .nonTerminal _ => (tree.label.production.bind Rule.ofIndex?).isSome
  | _ => false

def visit (tree : ParseTree) (inherited : Inherited) : Option Visit :=
  if isExpanded tree then some (Minuscule.Frame.visit tree inherited) else none

theorem visit_eq_some {tree : ParseTree} {inherited : Inherited} {visited : Visit}
    (found : visit tree inherited = some visited) : Minuscule.Frame.visit tree inherited = visited := by
  rw [visit] at found
  split at found
  · exact Option.some.inj found
  · cases found

structure Walk where
  frames : List Frame
  progress : Progress

namespace Walk

inductive Step where
  | next (walk : Walk)
  | finished (attributes : Attributes) (progress : Progress)

def proceed (frame : Frame) (rest : List Frame) (sign : Sign Terminal NonTerminal) : Visit → List Frame
  | .closed attributes => frame.receive ⟨sign, attributes⟩ :: rest
  | .opened child =>
    if frame.continues child then ⟨frame.continueWith child, []⟩ :: rest else ⟨child, []⟩ :: frame :: rest

/-- A stack without a frame has nothing to give. -/
def step (walk : Walk) : Option Step :=
  match walk.frames with
  | [] => none
  | frame :: rest =>
    match frame.waiting with
    | child :: waiting =>
      ((inherit frame.rule frame.inherited frame.children).run walk.progress).bind fun given =>
        (visit child given.1).map fun visited =>
          .next ⟨proceed { frame with waiting := waiting } rest child.sign visited, given.2⟩
    | [] =>
      ((synthesize frame.rule frame.inherited frame.children).run walk.progress).map fun found =>
        match rest with
        | [] => .finished (frame.finish found.1) found.2
        | parent :: rest => .next ⟨parent.receive ⟨frame.sign, frame.finish found.1⟩ :: rest, found.2⟩

/-- The walk that does not look at signs. -/
def erase (walk : Walk) : Minuscule.Walk :=
  ⟨walk.frames.map Frame.toFrame, walk.progress⟩

theorem erase_proceed (frame : Frame) (rest : List Frame) (sign : Sign Terminal NonTerminal) (visited : Visit) :
    (proceed frame rest sign visited).map Frame.toFrame =
      Minuscule.Walk.proceed frame.toFrame (rest.map Frame.toFrame) visited := by
  cases visited with
  | closed attributes => rfl
  | opened child =>
    rw [proceed, Minuscule.Walk.proceed]
    split <;> rfl

theorem step_next {walk next : Walk} (moved : walk.step = some (.next next)) :
    Minuscule.Walk.work next.erase.frames < Minuscule.Walk.work walk.erase.frames := by
  obtain ⟨frames, progress⟩ := walk
  rcases frames with _ | ⟨frame, rest⟩
  · cases moved
  · rw [step] at moved
    dsimp only at moved
    split at moved
    · next child waiting front =>
      obtain ⟨given, _, moved⟩ := Option.bind_eq_some_iff.mp moved
      obtain ⟨visited, entered, same⟩ := Option.map_eq_some_iff.mp moved
      cases same
      have less := Minuscule.Walk.work_proceed { frame.toFrame with waiting := waiting } (rest.map Frame.toFrame)
        child given.1
      rw [visit_eq_some entered] at less
      simp only [erase, erase_proceed, List.map_cons, Minuscule.Walk.work, sumOf_cons, front, Tree.countAll] at less ⊢
      omega
    · obtain ⟨found, _, same⟩ := Option.map_eq_some_iff.mp moved
      split at same
      · cases same
      · cases same
        simp only [erase, List.map_cons, Minuscule.Walk.work, Frame.receive, Minuscule.Frame.receive, sumOf_cons]
        omega

def run (walk : Walk) : Option (Attributes × Progress) :=
  match _moved : walk.step with
  | none => none
  | some (.next walk) => run walk
  | some (.finished attributes progress) => some (attributes, progress)
termination_by Minuscule.Walk.work walk.erase.frames
decreasing_by exact step_next _moved

end Walk

/-- The evaluation of a tree, if nothing is missing on the way. -/
def evaluate (tree : ParseTree) : Option Evaluation := do
  let visited ← visit tree {}
  let (attributes, progress) ← match visited with
    | .closed attributes => some (attributes, Progress.start)
    | .opened frame => Walk.run ⟨[⟨frame, []⟩], .start⟩
  return ⟨attributes.code, progress.errors.toList, progress.symbols, progress.names⟩

end Strict

end Minuscule
