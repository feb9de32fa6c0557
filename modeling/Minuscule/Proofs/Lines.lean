import Minuscule.Compile
import Minuscule.Proofs.Declaring
import Minuscule.Proofs.Renumbering

/-!
Lines decide nothing. They come in with the tokens and go out with the errors, and on the way they are handed on by
trees, names, declarations and parameters. With all lines taken away every action does the same as before, except that
its errors have no lines; so does every step of a walk, and so does the parser. Tokens that differ in their lines only
therefore compile to the same code, or fail for the same reasons.
-/

namespace Minuscule

open Minuscule.Action

/-- Every line becomes line zero, which no source has. -/
def Renumbering.zeroLines : Renumbering :=
  ⟨fun _ => 0, id⟩

def Occurrence.unlined (use : Occurrence) : Occurrence :=
  ⟨use.name, 0⟩

def Declarator.unlined (declarator : Declarator) : Declarator :=
  { declarator with subject := declarator.subject.unlined }

def Parameter.unlined (parameter : Parameter) : Parameter :=
  { parameter with subject := parameter.subject.unlined }

def Inherited.unlined (inherited : Inherited) : Inherited :=
  { inherited with
    declarator := inherited.declarator.map Declarator.unlined
    target := inherited.target.map Occurrence.unlined }

def Attributes.unlined (attributes : Attributes) : Attributes :=
  { attributes with line := 0, params := attributes.params.map Parameter.unlined }

def SemanticError.unlined (error : SemanticError) : SemanticError :=
  { error with line := 0 }

def Progress.unlined (progress : Progress) : Progress :=
  { progress with errors := progress.errors.map SemanticError.unlined }

def Evaluation.unlined (evaluation : Evaluation) : Evaluation :=
  { evaluation with errors := evaluation.errors.map SemanticError.unlined }

namespace Tree

def unlined (tree : ParseTree) : ParseTree :=
  Renumbering.zeroLines.tree tree

theorem unlined_node (label : Label Terminal NonTerminal) (children : List ParseTree) :
    unlined (.node label children) = .node { label with line := 0 } (children.map unlined) := by
  rw [unlined, Renumbering.tree, Renumbering.trees_eq_map, Renumbering.label]
  congr 2
  exact Option.map_id_apply

end Tree

def CompileError.unlined : CompileError → CompileError
  | .lexical error => .lexical { error with position := ⟨0, error.position.column⟩ }
  | .syntactic error => .syntactic (Renumbering.zeroLines.error error)
  | .semantic errors => .semantic (errors.map SemanticError.unlined)

namespace Progress

theorem unlined_advance (progress : Progress) (temporaries labels : Nat) (faults : List SemanticError) :
    (progress.advance temporaries labels faults).unlined =
      progress.unlined.advance temporaries labels (faults.map SemanticError.unlined) := by
  simp [unlined, advance]

theorem unlined_declare (progress : Progress) (symbols : Symbols) (faults : List SemanticError) :
    (progress.declare symbols faults).unlined =
      progress.unlined.declare symbols (faults.map SemanticError.unlined) := by
  simp [unlined, declare]

end Progress

/-! Actions. -/

namespace Action
variable {α β γ δ : Type}

/-- The second action does to what has no lines what the first one does, and what it gives back has none. -/
def Unlines (erase : α → β) (action : Action α) (action' : Action β) : Prop :=
  ∀ progress : Progress,
    action'.run progress.unlined = (erase (action.run progress).1, (action.run progress).2.unlined)

theorem unlines_pure {erase : α → β} {value : α} {value' : β} (same : value' = erase value) :
    Unlines erase (pure value) (pure value') := by
  intro progress
  rw [same]
  rfl

theorem Unlines.bind {erase : α → β} {erase' : γ → δ} {action : Action α} {action' : Action β}
    {next : α → Action γ} {next' : β → Action δ} (first : Unlines erase action action')
    (later : ∀ value, Unlines erase' (next value) (next' (erase value))) :
    Unlines erase' (action >>= next) (action' >>= next') := by
  intro progress
  rw [run_bind, run_bind, first progress]
  exact later _ _

theorem unlines_report (cause : Cause) (line : Nat) : Unlines id (report cause line) (report cause 0) := by
  intro progress
  rw [run_report, run_report, Progress.unlined_advance]
  rfl

theorem unlines_newTemporary : Unlines id newTemporary newTemporary :=
  fun _ => rfl

theorem unlines_checkVariable (scope : Scope) (use : Occurrence) :
    Unlines id (checkVariable scope use) (checkVariable scope use.unlined) := by
  intro progress
  have faults : progress.symbols.variableFaults scope use.unlined =
      (progress.symbols.variableFaults scope use).map SemanticError.unlined := by
    have named : use.unlined.name = use.name := rfl
    unfold Symbols.variableFaults
    rw [named]
    cases progress.symbols.resolve? scope use.name <;> rfl
  rw [run_checkVariable, run_checkVariable, Progress.unlined_advance, ← faults]
  rfl

theorem unlines_checkElement (scope : Scope) (use : Occurrence) (constant : Option Int) :
    Unlines id (checkElement scope use constant) (checkElement scope use.unlined constant) := by
  intro progress
  have faults : progress.symbols.elementFaults scope use.unlined constant =
      (progress.symbols.elementFaults scope use constant).map SemanticError.unlined := by
    have named : use.unlined.name = use.name := rfl
    unfold Symbols.elementFaults
    rw [named]
    rcases progress.symbols.resolve? scope use.name with _ | found
    · rfl
    · dsimp only
      split
      · rcases constant with _ | index <;> rcases found.kind.length? with _ | length
        · rfl
        · rfl
        · rfl
        · dsimp only
          split <;> rfl
      · rfl
  rw [run_checkElement, run_checkElement, Progress.unlined_advance, ← faults]
  rfl

theorem unlines_call (callee : Occurrence) (args : List String) (code : List Instruction) :
    Unlines Attributes.unlined (call callee args code) (call callee.unlined args code) := by
  intro progress
  have faults : progress.symbols.callFaults callee.unlined args.length =
      (progress.symbols.callFaults callee args.length).map SemanticError.unlined := by
    have named : callee.unlined.name = callee.name := rfl
    unfold Symbols.callFaults
    rw [named]
    rcases progress.symbols.function? callee.name with _ | function
    · rfl
    · dsimp only
      split <;> rfl
  rw [run_call, run_call, Progress.unlined_advance, ← faults]
  rfl

theorem unlines_foldChain (head : Attributes) (code : List Instruction) (links : List (Operator × String)) :
    Unlines Attributes.unlined (foldChain head code links) (foldChain head.unlined code links) := by
  intro progress
  rw [run_foldChain, run_foldChain, Progress.unlined_advance]
  cases links <;> rfl

theorem unlines_selection (test consequent alternative : Attributes) :
    Unlines Attributes.unlined (selection test consequent alternative)
      (selection test.unlined consequent.unlined alternative.unlined) := by
  intro progress
  rw [run_selection, run_selection, Progress.unlined_advance]
  rfl

theorem unlines_iteration (test body : Attributes) :
    Unlines Attributes.unlined (iteration test body) (iteration test.unlined body.unlined) := by
  intro progress
  rw [run_iteration, run_iteration, Progress.unlined_advance]
  rfl

theorem unlines_assignment (inherited : Inherited) (subscript value : Attributes) :
    Unlines Attributes.unlined (assignment inherited subscript value)
      (assignment inherited.unlined subscript.unlined value.unlined) := by
  obtain ⟨scope, declarator, _ | target⟩ := inherited
  · exact unlines_pure rfl
  · rcases kept : subscript.suffix with _ | ⟨place, constant⟩ | args
    all_goals
      have kept' : subscript.unlined.suffix = _ := kept
      simp only [assignment, Inherited.unlined, Option.map_some, kept, kept']
    · exact (unlines_checkVariable scope target).bind fun _ => unlines_pure rfl
    · exact (unlines_checkElement scope target constant).bind fun _ => unlines_pure rfl
    · exact (unlines_checkVariable scope target).bind fun _ => unlines_pure rfl

theorem unlines_identifier (scope : Scope) (use : Occurrence) (follow : Attributes) :
    Unlines Attributes.unlined (identifier scope use follow) (identifier scope use.unlined follow.unlined) := by
  rcases kept : follow.suffix with _ | ⟨place, constant⟩ | args
  all_goals
    have kept' : follow.unlined.suffix = _ := kept
    simp only [identifier, kept, kept']
  · exact (unlines_checkVariable scope use).bind fun _ => unlines_pure rfl
  · exact (unlines_checkElement scope use constant).bind fun _ => unlines_newTemporary.bind fun _ => unlines_pure rfl
  · exact unlines_call use args follow.code

/-! Declarations. -/

theorem unlines_enter (scope : Scope) (subject : Occurrence) (kind : VariableKind) :
    Unlines id (enter scope subject kind) (enter scope subject.unlined kind) := by
  intro progress
  have faults : progress.symbols.entryFaults scope subject.unlined kind =
      (progress.symbols.entryFaults scope subject kind).map SemanticError.unlined := by
    have named : subject.unlined.name = subject.name := rfl
    unfold Symbols.entryFaults
    rw [named]
    rcases progress.symbols.declare? scope subject.name kind with _ | ⟨_ | _⟩ | _ <;> rfl
  rw [run_enter, run_enter, Progress.unlined_declare, ← faults]
  rfl

theorem unlines_declareVariable (scope : Scope) (declarator : Declarator) (follow : Attributes) :
    Unlines id (declareVariable scope declarator follow)
      (declareVariable scope declarator.unlined follow.unlined) := by
  have type : declarator.unlined.type = declarator.type := rfl
  have array : follow.unlined.isArray = follow.isArray := rfl
  have length : follow.unlined.length = follow.length := rfl
  unfold declareVariable
  rw [type, array, length]
  split
  · exact unlines_report _ _
  · split
    · split
      · exact unlines_enter _ _ _
      · exact unlines_report _ _
    · exact unlines_enter _ _ _

theorem functionOf_unlined (symbols : Symbols) (declarator : Declarator) (params : List Parameter) :
    symbols.functionOf declarator.unlined (params.map Parameter.unlined) = symbols.functionOf declarator params := by
  unfold Symbols.functionOf
  rw [List.map_map]
  rfl

theorem functionFaults_unlined (symbols : Symbols) (declarator : Declarator) (params : List Parameter) :
    symbols.functionFaults declarator.unlined (params.map Parameter.unlined) =
      (symbols.functionFaults declarator params).map SemanticError.unlined := by
  unfold Symbols.functionFaults
  rw [functionOf_unlined]
  rcases symbols.newLocals.2.define (symbols.functionOf declarator params) with ⟨_ | _, _⟩ <;> rfl

theorem parameterFaults_unlined (scope : Scope) (params : List Parameter) (symbols : Symbols) :
    faultsAll (Parameter.after scope) (Parameter.faults scope) symbols (params.map Parameter.unlined) =
      (faultsAll (Parameter.after scope) (Parameter.faults scope) symbols params).map SemanticError.unlined := by
  induction params generalizing symbols with
  | nil => rfl
  | cons parameter rest ih =>
    have after : parameter.unlined.after scope symbols = parameter.after scope symbols := rfl
    have faults : parameter.unlined.faults scope symbols =
        (parameter.faults scope symbols).map SemanticError.unlined := by
      have named : parameter.unlined.subject.name = parameter.subject.name := rfl
      have kind : parameter.unlined.kind = parameter.kind := rfl
      unfold Parameter.faults
      rw [named, kind]
      rcases symbols.declare? scope parameter.subject.name parameter.kind with _ | _ | _ <;> rfl
    rw [List.map_cons, faultsAll, faultsAll, after, ih, faults, List.map_append]

theorem unlines_enterFunction (declarator : Option Declarator) (params : List Parameter) :
    Unlines id (enterFunction declarator params)
      (enterFunction (declarator.map Declarator.unlined) (params.map Parameter.unlined)) := by
  intro progress
  cases declarator with
  | none => rfl
  | some declarator =>
    have opened : progress.symbols.openFunction declarator.unlined (params.map Parameter.unlined) =
        progress.symbols.openFunction declarator params := by
      unfold Symbols.openFunction
      rw [functionOf_unlined]
    have symbols : progress.unlined.symbols = progress.symbols := rfl
    rw [Option.map_some, run_enterFunction, run_enterFunction, symbols]
    dsimp only
    rw [opened, functionFaults_unlined, parameterFaults_unlined, List.foldl_map, Progress.unlined_declare,
      List.map_append]
    rfl

/-! Rules. -/

theorem getD_unlined (children : List Attributes) (place : Nat) :
    (children.map Attributes.unlined).getD place {} = (children.getD place {}).unlined := by
  rw [List.getD_eq_getElem?_getD, List.getD_eq_getElem?_getD, List.getElem?_map]
  cases children[place]? <;> rfl

theorem concat_unlined (children : List Attributes) :
    Attributes.concat (children.map Attributes.unlined) = (Attributes.concat children).unlined := by
  rw [Attributes.concat, Attributes.concat, List.flatMap_map]
  rfl

theorem unlines_inherit (rule : Rule) (inherited : Inherited) (done : List Attributes) :
    Unlines Inherited.unlined (inherit rule inherited done)
      (inherit rule inherited.unlined (done.map Attributes.unlined)) := by
  cases rule
  case define => rcases done with _ | ⟨type, _ | ⟨name, _ | ⟨more, rest⟩⟩⟩ <;> exact unlines_pure rfl
  case defineTypeVar | defineTypeFun => cases done <;> exact unlines_pure rfl
  case funDefineFollow =>
    rcases done with _ | ⟨first, _ | ⟨params, _ | ⟨last, _ | ⟨more, rest⟩⟩⟩⟩
    case cons.cons.cons.nil =>
      exact (unlines_enterFunction inherited.declarator params.params).bind fun _ => unlines_pure rfl
    all_goals exact unlines_pure rfl
  case normalStatementId => rcases done with _ | ⟨name, _ | ⟨more, rest⟩⟩ <;> exact unlines_pure rfl
  all_goals exact unlines_pure rfl

theorem unlines_synthesize (rule : Rule) (inherited : Inherited) (children : List Attributes) :
    Unlines Attributes.unlined (synthesize rule inherited children)
      (synthesize rule inherited.unlined (children.map Attributes.unlined)) := by
  cases rule
  case program | defineList | define | codeBlock | localDefineList | codeList | normalStatementId | returnStatement =>
    exact unlines_pure (concat_unlined children)
  case defineTypeVar =>
    obtain ⟨scope, _ | declarator, target⟩ := inherited
    · exact unlines_pure rfl
    · rcases children with _ | ⟨follow, rest⟩
      · exact unlines_pure rfl
      · exact (unlines_declareVariable .global declarator follow).bind fun _ => unlines_pure rfl
  case localVarDefine =>
    rcases children with _ | ⟨type, _ | ⟨name, _ | ⟨follow, _ | ⟨more, rest⟩⟩⟩⟩
    case cons.cons.cons.nil =>
      exact (unlines_declareVariable inherited.scope (.ofAttributes type name) follow).bind fun _ => unlines_pure rfl
    all_goals exact unlines_pure rfl
  case param =>
    rcases children with _ | ⟨type, _ | ⟨name, _ | ⟨subscript, _ | ⟨more, rest⟩⟩⟩⟩ <;> exact unlines_pure rfl
  all_goals simp only [synthesize, getD_unlined]
  case funDefineFollow => obtain ⟨scope, _ | declarator, target⟩ := inherited <;> exact unlines_pure rfl
  case paramList | paramFollow => exact unlines_pure (by simp only [Attributes.unlined, List.map_append])
  case normalFollowAssign => exact unlines_assignment _ _ _
  case normalFollowCall =>
    obtain ⟨scope, declarator, _ | target⟩ := inherited
    · exact unlines_pure rfl
    · exact unlines_call target _ _
  case selection => exact unlines_selection _ _ _
  case iteration => exact unlines_iteration _ _
  case expression | additiveExpr | term => exact unlines_foldChain _ _ _
  case factorId => exact unlines_identifier _ _ _
  all_goals exact unlines_pure rfl

end Action

/-! Walks. -/

def Frame.unlined (frame : Frame) : Frame :=
  { frame with
    inherited := frame.inherited.unlined
    done := frame.done.map Attributes.unlined
    waiting := frame.waiting.map Tree.unlined }

def Visit.unlined : Visit → Visit
  | .closed attributes => .closed attributes.unlined
  | .opened frame => .opened frame.unlined

def Walk.unlined (walk : Walk) : Walk :=
  ⟨walk.frames.map Frame.unlined, walk.progress.unlined⟩

def Walk.Step.unlined : Walk.Step → Walk.Step
  | .next walk => .next walk.unlined
  | .finished attributes progress => .finished attributes.unlined progress.unlined

namespace Frame

theorem visit_unlined (tree : ParseTree) (inherited : Inherited) :
    visit tree.unlined inherited.unlined = (visit tree inherited).unlined := by
  obtain ⟨label, children⟩ := tree
  rw [Tree.unlined_node]
  unfold visit
  dsimp only [Tree.sign, Tree.label, Tree.lexeme, Tree.children]
  cases label.sign with
  | nonTerminal kind =>
    dsimp only
    cases label.production.bind Rule.ofIndex? <;> rfl
  | _ => rfl

theorem receive_unlined (frame : Frame) (attributes : Attributes) :
    frame.unlined.receive attributes.unlined = (frame.receive attributes).unlined := by
  simp [receive, unlined]

theorem finish_unlined (frame : Frame) (attributes : Attributes) :
    frame.unlined.finish attributes.unlined = (frame.finish attributes).unlined := by
  have earlier : frame.unlined.earlier = frame.earlier := rfl
  unfold finish
  rw [earlier]
  split <;> rfl

theorem continueWith_unlined (frame tail : Frame) :
    frame.unlined.continueWith tail.unlined = (frame.continueWith tail).unlined := by
  have code : (frame.done.map Attributes.unlined).flatMap Attributes.code = frame.done.flatMap Attributes.code := by
    rw [List.flatMap_map]
    rfl
  simp only [continueWith, unlined, code]

end Frame

namespace Walk

theorem proceed_unlined (frame : Frame) (rest : List Frame) (visit : Visit) :
    proceed frame.unlined (rest.map Frame.unlined) visit.unlined = (proceed frame rest visit).map Frame.unlined := by
  cases visit with
  | closed attributes => simp only [Visit.unlined, proceed, Frame.receive_unlined, List.map_cons]
  | opened child =>
    have continues : frame.unlined.continues child.unlined = frame.continues child := rfl
    simp only [Visit.unlined, proceed, continues, Frame.continueWith_unlined]
    split <;> rfl

theorem step_unlined (walk : Walk) : walk.unlined.step = walk.step.unlined := by
  obtain ⟨_ | ⟨frame, rest⟩, progress⟩ := walk
  · rfl
  · cases waiting : frame.waiting with
    | cons child others =>
      have waiting' : frame.unlined.waiting = child.unlined :: others.map Tree.unlined := by
        rw [Frame.unlined, waiting, List.map_cons]
      have given : (inherit frame.unlined.rule frame.unlined.inherited frame.unlined.done).run progress.unlined = _ :=
        unlines_inherit frame.rule frame.inherited frame.done progress
      have proceeds := proceed_unlined { frame with waiting := others } rest
      simp only [Walk.unlined, List.map_cons, step, waiting, waiting', given, Frame.visit_unlined, Step.unlined,
        ← proceeds]
      rfl
    | nil =>
      have waiting' : frame.unlined.waiting = [] := by
        rw [Frame.unlined, waiting, List.map_nil]
      have found : (synthesize frame.unlined.rule frame.unlined.inherited frame.unlined.done).run progress.unlined = _ :=
        unlines_synthesize frame.rule frame.inherited frame.done progress
      cases rest <;>
        simp only [Walk.unlined, List.map_cons, List.map_nil, step, waiting, waiting', found, Frame.finish_unlined,
          Frame.receive_unlined, Step.unlined]

theorem run_unlined (walk : Walk) : walk.unlined.run = (walk.run.1.unlined, walk.run.2.unlined) := by
  induction walk using run.induct with
  | case1 walk next moved ih =>
    rw [run_eq, run_eq walk, step_unlined, moved]
    exact ih
  | case2 walk attributes progress moved =>
    rw [run_eq, run_eq walk, step_unlined, moved]
    rfl

end Walk

/-- A tree without lines is evaluated as the tree is, up to the lines of the errors. -/
theorem Evaluation.ofTree_unlined (tree : ParseTree) : ofTree tree.unlined = (ofTree tree).unlined := by
  have visited : Frame.visit tree.unlined {} = (Frame.visit tree {}).unlined := Frame.visit_unlined tree {}
  unfold ofTree
  rw [visited]
  cases Frame.visit tree {} with
  | closed attributes => rfl
  | opened frame =>
    have start : Progress.start.unlined = .start := by simp [Progress.unlined, Progress.start]
    have walked := Walk.run_unlined ⟨[frame], .start⟩
    simp only [Walk.unlined, List.map_singleton, start] at walked
    simp only [Visit.unlined, walked]
    simp [unlined, Attributes.unlined, Progress.unlined]

/-! Tokens. -/

theorem result_unlined (evaluation : Evaluation) :
    evaluation.unlined.result = evaluation.result.mapError CompileError.unlined := by
  have same : evaluation.unlined.isOk = evaluation.isOk := by simp [Evaluation.isOk, Evaluation.unlined]
  rw [Evaluation.result, Evaluation.result, same]
  split <;> rfl

section Tokens
variable {tokens : List (Token Terminal)} (given : tokens ≠ [])
include given

theorem parseTokens_unlined :
    parseTokens (tokens.map Renumbering.zeroLines.token) =
      ((parseTokens tokens).map Tree.unlined).mapError CompileError.unlined := by
  have follows : Renumbering.zeroLines.Follows Language.parser Language.parser := by
    refine ⟨rfl, rfl, fun kind lookahead => ?_⟩
    cases Language.parser.choose? kind lookahead <;> rfl
  rw [parseTokens, parseTokens, follows.parse fun none => absurd none given]
  cases Language.parser.parse tokens <;> rfl

theorem compileTokens_unlined :
    compileTokens (tokens.map Renumbering.zeroLines.token) =
      (compileTokens tokens).mapError CompileError.unlined := by
  rw [compileTokens, compileTokens, parseTokens_unlined given]
  cases parseTokens tokens with
  | error error => rfl
  | ok tree =>
    change (Evaluation.ofTree tree.unlined).result = (Evaluation.ofTree tree).result.mapError CompileError.unlined
    rw [Evaluation.ofTree_unlined, result_unlined]

theorem symbols_unlined :
    (parseTokens (tokens.map Renumbering.zeroLines.token)).map (fun tree => (Evaluation.ofTree tree).symbols) =
      ((parseTokens tokens).map fun tree => (Evaluation.ofTree tree).symbols).mapError CompileError.unlined := by
  rw [parseTokens_unlined given]
  cases parseTokens tokens with
  | error error => rfl
  | ok tree =>
    change Except.ok (Evaluation.ofTree tree.unlined).symbols = Except.ok (Evaluation.ofTree tree).symbols
    rw [Evaluation.ofTree_unlined]
    rfl

end Tokens

/-- Tokens that agree in their kinds and texts, whatever their lines, compile to the same code; or they fail with the
same syntax error or the same row of semantic errors, up to lines. The symbols of their trees are the same. -/
theorem lines_only_in_errors {tokens tokens' : List (Token Terminal)}
    (alike : tokens.map (fun token => (token.kind, token.lexeme)) =
      tokens'.map fun token => (token.kind, token.lexeme)) :
    (compileTokens tokens).mapError CompileError.unlined = (compileTokens tokens').mapError CompileError.unlined ∧
      ((parseTokens tokens).map fun tree => (Evaluation.ofTree tree).symbols).mapError CompileError.unlined =
        ((parseTokens tokens').map fun tree => (Evaluation.ofTree tree).symbols).mapError CompileError.unlined := by
  have erased : tokens.map Renumbering.zeroLines.token = tokens'.map Renumbering.zeroLines.token := by
    have placed := congrArg (List.map fun pair => (⟨pair.1, pair.2, 0⟩ : Token Terminal)) alike
    rw [List.map_map, List.map_map] at placed
    exact placed
  by_cases none : tokens = []
  · have none' : tokens' = [] := by simpa [none] using alike
    rw [none, none']
    exact ⟨rfl, rfl⟩
  · have given' : tokens' ≠ [] := by
      rintro rfl
      exact none (by simpa using alike)
    rw [← compileTokens_unlined none, ← compileTokens_unlined given', ← symbols_unlined none,
      ← symbols_unlined given', erased]
    exact ⟨rfl, rfl⟩

/-- One variable declared twice, with each token on the line its place is given. -/
def declaredTwice (line : Nat → Nat) : List (Token Terminal) :=
  [⟨.intWord, "int", line 0⟩, ⟨.ident, "x", line 1⟩, ⟨.semicolon, ";", line 2⟩,
    ⟨.intWord, "int", line 3⟩, ⟨.ident, "x", line 4⟩, ⟨.semicolon, ";", line 5⟩]

theorem declaredTwice_lines_only_in_errors :
    declaredTwice (fun _ => 1) ≠ declaredTwice (fun place => 9 - place) ∧
      (compileTokens (declaredTwice fun _ => 1)).mapError CompileError.unlined =
        (compileTokens (declaredTwice fun place => 9 - place)).mapError CompileError.unlined :=
  ⟨by decide, (@lines_only_in_errors (declaredTwice fun _ => 1) (declaredTwice fun place => 9 - place) rfl).1⟩

end Minuscule
