import Minuscule.Proofs.ControlFlow
import Minuscule.Proofs.Growth
import Minuscule.Proofs.StrictEvaluator

/-!
Nothing is missing on the tree of a program. The rules say which sign each child has, a few signs say which attributes
are always there, and tables are never taken away; a walk keeps all this up, from step to step. So the strict
evaluation does not stop short, and it leaves what the evaluation leaves.
-/

namespace Minuscule

namespace Strict

/-! What is there. -/

/-- The attributes that every node of this sign gives. -/
def Filled (sign : Sign Terminal NonTerminal) (attributes : Attributes) : Prop :=
  match sign with
  | .nonTerminal .type => attributes.type.isSome = true
  | .nonTerminal .relOp | .nonTerminal .addOp | .nonTerminal .mulOp => attributes.operator.isSome = true
  | _ => True

/-- The attributes that every node of this sign is given. -/
def Given (sign : Sign Terminal NonTerminal) (inherited : Inherited) : Prop :=
  match sign with
  | .nonTerminal .defineType | .nonTerminal .funDefineFollow => inherited.declarator.isSome = true
  | .nonTerminal .normalStatementFollow => inherited.target.isSome = true
  | _ => True

def childrenOf (rule : Rule) (child : Nat → Attributes) : List Child :=
  List.zipWith Child.mk rule.production.right ((List.range rule.production.right.length).map child)

theorem run_link {operator operand : Attributes} {found : Operator} (known : operator.operator = some found)
    (progress : Progress) : (link operator operand).run progress = some ((found, operand.place), progress) := by
  change (operator.operator.map (·, progress)).bind _ = _
  rw [known]
  rfl

theorem run_declarator {type : Attributes} (known : type.type.isSome = true) (name : Attributes) (progress : Progress) :
    (declarator type name).run progress = some (.ofAttributes type name, progress) := by
  obtain ⟨found, known⟩ := Option.isSome_iff_exists.mp known
  change (type.type.map (·, progress)).bind _ = _
  rw [Declarator.ofAttributes, known]
  rfl

theorem run_tabled {scope : Scope} {progress : Progress} (known : (progress.symbols.table? scope).isSome = true) :
    (tabled scope).run progress = some ((), progress) :=
  if_pos known

theorem run_declareVariable {scope : Scope} {progress : Progress}
    (known : (progress.symbols.table? scope).isSome = true) (declarator : Declarator) (follow : Attributes) :
    (declareVariable scope declarator follow).run progress =
      some ((Action.declareVariable scope declarator follow).run progress) := by
  rw [declareVariable, StateT.run_bind, run_tabled known]
  rfl

theorem run_synthesize {rule : Rule} {inherited : Inherited} {child : Nat → Attributes} {progress : Progress}
    (each : ∀ index sign, rule.production.right[index]? = some sign → Filled sign (child index))
    (given : Given (.nonTerminal rule.production.left) inherited)
    (known : (progress.symbols.table? inherited.scope).isSome = true) :
    (synthesize rule inherited (childrenOf rule child)).run progress =
      some ((Action.synthesize rule inherited ((List.range rule.production.right.length).map child)).run progress) := by
  cases rule
  case expressionFollow =>
    obtain ⟨operator, found⟩ := Option.isSome_iff_exists.mp (each 0 _ rfl)
    change ((link (child 0) (child 1)).run progress).bind _ =
      some (({ operator := (child 0).operator, place := (child 1).place, code := (child 1).code } : Attributes), progress)
    rw [run_link found, found]
    rfl
  case additiveFollow | termFollow =>
    obtain ⟨operator, found⟩ := Option.isSome_iff_exists.mp (each 0 _ rfl)
    change ((link (child 0) (child 1)).run progress).bind _ =
      some (({
        code := (child 1).code ++ (child 2).code
        chain := (child 0).operator.toList.map (·, (child 1).place) ++ (child 2).chain } : Attributes), progress)
    rw [run_link found, found]
    rfl
  case localVarDefine =>
    change ((declarator (child 0) (child 1)).run progress).bind _ = _
    rw [run_declarator (each 0 _ rfl)]
    change ((declareVariable inherited.scope _ _).run progress).bind _ = _
    rw [run_declareVariable known]
    rfl
  case defineTypeVar | funDefineFollow | normalFollowCall =>
    obtain ⟨scope, _ | declarator, _ | target⟩ := inherited <;> first | rfl | cases given
  case normalFollowAssign =>
    obtain ⟨scope, declarator, _ | target⟩ := inherited
    · cases given
    · change ((tabled scope).run progress).bind _ = _
      rw [run_tabled known]
      rfl
  case factorId =>
    change ((tabled inherited.scope).run progress).bind _ = _
    rw [run_tabled known]
    rfl
  all_goals rfl

theorem filled_synthesize (rule : Rule) (inherited : Inherited) (children : List Attributes) (progress : Progress) :
    Filled (.nonTerminal rule.production.left) ((Action.synthesize rule inherited children).run progress).1 := by
  cases rule <;> trivial

/-! Tables are not taken away. -/

theorem size_le_of_grows {symbols after : Symbols} (grown : symbols.Grows after) :
    symbols.locals.size ≤ after.locals.size := by
  induction grown with
  | refl => exact Nat.le_refl _
  | @tail middle last _ changed ih =>
    apply Nat.le_trans ih
    cases changed with
    | enter scope name kind => exact Nat.le_of_eq (middle.sameBut_enter scope name kind).size.symm
    | newLocals => simp [Symbols.newLocals]
    | openFunction declarator params => simp [Symbols.openFunction_eq_mk]

theorem table_of_grows {symbols after : Symbols} (grown : symbols.Grows after) {scope : Scope}
    (known : (symbols.table? scope).isSome = true) : (after.table? scope).isSome = true := by
  rcases scope with _ | number
  · rfl
  · have inside : number < symbols.locals.size := by simpa [Symbols.table?] using known
    simpa [Symbols.table?] using Nat.lt_of_lt_of_le inside (size_le_of_grows grown)

theorem run_forM_enterParameter {scope : Scope} (params : List Parameter) {progress : Progress}
    (known : (progress.symbols.table? scope).isSome = true) :
    (params.forM (enterParameter scope)).run progress =
      some ((params.forM (Action.enterParameter scope)).run progress) := by
  induction params generalizing progress with
  | nil => rfl
  | cons parameter rest ih =>
    have after := Minuscule.run_enterParameter scope parameter progress
    change (((tabled scope).run progress).bind fun found =>
      some ((Action.enterParameter scope parameter).run found.2)).bind _ = _
    rw [run_tabled known, Option.bind_some, Option.bind_some, after]
    change (rest.forM (enterParameter scope)).run _ = _
    rw [ih (table_of_grows (.single (.enter ..)) known)]
    change _ = some ((Action.enterParameter scope parameter >>= fun _ => rest.forM (Action.enterParameter scope)).run _)
    rw [Action.run_bind, after]

theorem table_openFunction (symbols : Symbols) (declarator : Declarator) (params : List Parameter) :
    ((symbols.openFunction declarator params).table? (.local symbols.locals.size)).isSome = true := by
  simp [Symbols.openFunction_eq_mk, Symbols.table?]

theorem run_enterFunction (declarator : Declarator) (params : List Parameter) (progress : Progress) :
    (enterFunction (some declarator) params).run progress =
      some ((Action.enterFunction (some declarator) params).run progress) := by
  let opened := (Action.defineFunction declarator params progress.symbols.locals.size).run
    { progress with symbols := progress.symbols.newLocals.2 }
  have known : (opened.2.symbols.table? (.local progress.symbols.locals.size)).isSome = true := by
    have after : opened = _ := run_defineFunction declarator params progress.symbols progress
    rw [after]
    exact table_openFunction progress.symbols declarator params
  change ((params.forM (enterParameter _)).run opened.2).bind _ = _
  rw [run_forM_enterParameter params known]
  rfl

/-- The scope of a function body has a table. -/
theorem table_enterFunction (declarator : Declarator) (params : List Parameter) (progress : Progress) :
    (((Action.enterFunction (some declarator) params).run progress).2.symbols.table?
      ((Action.enterFunction (some declarator) params).run progress).1).isSome = true := by
  rw [Minuscule.run_enterFunction]
  exact table_of_grows (Symbols.grows_foldl _ params _) (table_openFunction progress.symbols declarator params)

/-! Inherited attributes. -/

/-- Nodes of this sign are given something. -/
def demands : Sign Terminal NonTerminal → Bool
  | .nonTerminal .defineType | .nonTerminal .funDefineFollow | .nonTerminal .normalStatementFollow => true
  | _ => false

theorem given_of_mem {signs : List (Sign Terminal NonTerminal)} (plain : signs.all (!demands ·) = true)
    {sign : Sign Terminal NonTerminal} (member : sign ∈ signs) (inherited : Inherited) : Given sign inherited := by
  have free := List.all_eq_true.mp plain sign member
  rcases sign with kind | kind | _ | _
  case nonTerminal => cases kind <;> trivial
  all_goals trivial

section Inherit
variable {rule : Rule} {inherited : Inherited} {done : List Attributes} {sign : Sign Terminal NonTerminal}
  {progress : Progress}

theorem run_inherit (filled : List.Forall₂ Filled (rule.production.right.take done.length) done)
    (next : rule.production.right[done.length]? = some sign)
    (given : Given (.nonTerminal rule.production.left) inherited)
    (known : (progress.symbols.table? inherited.scope).isSome = true) :
    (inherit rule inherited (List.zipWith Child.mk (rule.production.right.take done.length) done)).run progress =
        some ((Action.inherit rule inherited done).run progress) ∧
      Given sign ((Action.inherit rule inherited done).run progress).1 ∧
      ((((Action.inherit rule inherited done).run progress).2.symbols.table?
        ((Action.inherit rule inherited done).run progress).1.scope).isSome = true) := by
  cases rule
  case define =>
    rcases done with _ | ⟨type, _ | ⟨name, _ | ⟨_, _⟩⟩⟩
    · cases next
      exact ⟨rfl, trivial, known⟩
    · cases next
      exact ⟨rfl, trivial, known⟩
    · cases next
      obtain ⟨typed, _⟩ := List.forall₂_cons.mp filled
      refine ⟨?_, rfl, known⟩
      change ((declarator type name).run progress).bind _ = _
      rw [run_declarator typed]
      rfl
    · cases next
  case defineTypeVar | defineTypeFun =>
    obtain ⟨scope, _ | declarator, target⟩ := inherited
    · cases given
    · rcases done with _ | ⟨_, _⟩ <;> cases next
      exact ⟨rfl, by trivial, known⟩
  case funDefineFollow =>
    obtain ⟨scope, _ | declarator, target⟩ := inherited
    · cases given
    · rcases done with _ | ⟨_, _ | ⟨params, _ | ⟨_, _ | ⟨_, _⟩⟩⟩⟩ <;> cases next
      · exact ⟨rfl, trivial, known⟩
      · exact ⟨rfl, trivial, known⟩
      · exact ⟨rfl, trivial, known⟩
      · refine ⟨?_, trivial, ?_⟩
        · change ((enterFunction (some declarator) params.params).run progress).bind _ = _
          rw [run_enterFunction]
          rfl
        · exact table_enterFunction declarator params.params progress
  case normalStatementId =>
    rcases done with _ | ⟨name, _ | ⟨_, _⟩⟩ <;> cases next
    · exact ⟨rfl, trivial, known⟩
    · exact ⟨rfl, rfl, known⟩
  all_goals exact ⟨rfl, given_of_mem rfl (List.mem_of_getElem? next) _, known⟩

end Inherit

/-! Frames. -/

theorem filled_getD {signs : List (Sign Terminal NonTerminal)} {done : List Attributes}
    (filled : List.Forall₂ Filled signs done) {index : Nat} {sign : Sign Terminal NonTerminal}
    (found : signs[index]? = some sign) : Filled sign (done.getD index {}) := by
  induction filled generalizing index with
  | nil => cases found
  | cons here _ ih =>
    cases index with
    | zero =>
      cases found
      exact here
    | succ index => exact ih found

/-- The children that are done are the first ones of the rule, and all that has to be there is there. -/
structure Frame.Sound (frame : Frame) : Prop where
  base : frame.toFrame.Sound
  signs : frame.signs = frame.rule.production.right.take frame.done.length
  filled : List.Forall₂ Filled frame.signs frame.done
  given : Given frame.sign frame.inherited

namespace Frame
variable {frame : Frame}

theorem Sound.next (sound : frame.Sound) {child : ParseTree} {rest : List ParseTree}
    (waiting : frame.waiting = child :: rest) :
    frame.rule.production.right[frame.done.length]? = some child.sign := by
  have right := sound.base.right
  rw [waiting, List.map_cons] at right
  rw [← List.head?_drop, ← right]
  rfl

theorem Sound.receive (sound : frame.Sound) {child : ParseTree} {rest : List ParseTree}
    (waiting : frame.waiting = child :: rest) {attributes : Attributes} (filled : Filled child.sign attributes) :
    (Frame.receive { frame with waiting := rest } ⟨child.sign, attributes⟩).Sound where
  base := sound.base.receive waiting attributes
  signs := by
    change frame.signs ++ [child.sign] = frame.rule.production.right.take (frame.done ++ [attributes]).length
    rw [List.length_append, List.length_singleton, List.take_add_one, sound.next waiting, sound.signs]
    rfl
  filled := List.rel_append sound.filled (.cons filled .nil)
  given := sound.given

/-- All children are done, and none has another sign than the rule says. -/
theorem Sound.children_eq (sound : frame.Sound) (done : frame.waiting = []) :
    ∃ child : Nat → Attributes, frame.done = (List.range frame.rule.production.right.length).map child ∧
      frame.children = childrenOf frame.rule child ∧
      ∀ index sign, frame.rule.production.right[index]? = some sign → Filled sign (child index) := by
  have ended := sound.base.right
  rw [done, List.map_nil, eq_comm, List.drop_eq_nil_iff] at ended
  have whole : frame.signs = frame.rule.production.right := by rw [sound.signs, List.take_of_length_le ended]
  have length : frame.done.length = frame.rule.production.right.length := by
    rw [← whole, sound.filled.length_eq]
  have list : frame.done = (List.range frame.rule.production.right.length).map (frame.done.getD · {}) := by
    rw [← length]
    apply List.ext_getElem (by simp)
    intro index inside _
    simp [inside]
  refine ⟨_, list, ?_, ?_⟩
  · rw [children, childrenOf, whole, ← list]
  · intro index sign found
    exact filled_getD sound.filled (whole ▸ found)

end Frame

theorem visit_conforming {tree : ParseTree} (conforming : tree.conforms Language.grammar = true) {inherited : Inherited}
    (given : Given tree.sign inherited) :
    (∃ kind attributes, tree.sign = .terminal kind ∧ visit tree inherited = some (.closed attributes)) ∨
      ∃ frame, visit tree inherited = some (.opened frame) ∧ Frame.Sound ⟨frame, []⟩ ∧ frame.sign = tree.sign ∧
        frame.inherited = inherited := by
  obtain ⟨label, children⟩ := tree
  rcases Language.conforms_cases conforming with ⟨kind, signed, _⟩ | ⟨rule, signed, known, right, below⟩
  · refine .inl ⟨kind, .leaf (label.lexeme.getD "") label.line, signed, ?_⟩
    simp only [visit, isExpanded, Minuscule.Frame.visit, Tree.sign, Tree.label, Tree.lexeme, signed, if_true]
  · refine .inr ⟨⟨label.sign, rule, inherited, [], children, []⟩, ?_, ?_, rfl, rfl⟩
    · simp only [visit, isExpanded, Minuscule.Frame.visit, Tree.sign, Tree.label, Tree.children, signed, known,
        Option.isSome_some, if_true]
    · exact ⟨⟨signed, right.symm, below⟩, rfl, .nil, given⟩

/-! Walks. -/

/-- Each frame waits for the attributes of the frame above it. -/
def Awaiting (sign : Sign Terminal NonTerminal) : List Frame → Prop
  | [] => True
  | parent :: rest =>
    (∀ attributes, Filled sign attributes → (parent.receive ⟨sign, attributes⟩).Sound) ∧ Awaiting parent.sign rest

namespace Walk

/-- The top frame is sound, the frames below it become sound with what they wait for, and all scopes have tables. -/
def Sound (walk : Walk) : Prop :=
  match walk.frames with
  | [] => False
  | frame :: rest =>
    frame.Sound ∧ Awaiting frame.sign rest ∧ (walk.progress.symbols.table? frame.inherited.scope).isSome = true ∧
      ∀ parent ∈ rest, (walk.progress.symbols.table? parent.inherited.scope).isSome = true

def Step.erase : Step → Minuscule.Walk.Step
  | .next walk => .next walk.erase
  | .finished attributes progress => .finished attributes progress

def Step.Sound : Step → Prop
  | .next walk => walk.Sound
  | .finished _ _ => True

theorem filled_finish {frame : Minuscule.Frame} {sign : Sign Terminal NonTerminal} {attributes : Attributes}
    (filled : Filled sign attributes) : Filled sign (frame.finish attributes) := by
  unfold Minuscule.Frame.finish
  split <;> exact filled

section Step
variable {frame : Frame} {rest : List Frame} {progress : Progress} (top : frame.Sound)
  (below : Awaiting frame.sign rest)
  (table : (progress.symbols.table? frame.inherited.scope).isSome = true)
  (tables : ∀ parent ∈ rest, (progress.symbols.table? parent.inherited.scope).isSome = true)
include top below table tables

/-- A frame all of whose children are done gives its attributes to the frame below. -/
theorem step_done (waiting : frame.waiting = []) :
    ∃ step, Walk.step ⟨frame :: rest, progress⟩ = some step ∧ step.erase = (erase ⟨frame :: rest, progress⟩).step ∧
      step.Sound := by
  obtain ⟨child, done, children, each⟩ := top.children_eq waiting
  have given := top.given
  rw [top.base.signed] at given
  have ran := run_synthesize each given table
  rw [← done, ← children] at ran
  have grown := Action.grows_synthesize frame.rule frame.inherited frame.done progress
  have filled := filled_synthesize frame.rule frame.inherited frame.done progress
  rw [← top.base.signed] at filled
  generalize found : (Action.synthesize frame.rule frame.inherited frame.done).run progress = answer at ran grown filled
  obtain ⟨attributes, after⟩ := answer
  cases rest with
  | nil =>
    refine ⟨.finished (frame.finish attributes) after, ?_, ?_, trivial⟩
    · simp only [step, waiting, ran, Option.map_some]
    · simp only [Step.erase, erase, List.map_cons, List.map_nil, Minuscule.Walk.step, waiting, found]
  | cons parent rest =>
    obtain ⟨here, later⟩ := List.forall_mem_cons.mp tables
    have received := below.1 (frame.finish attributes) (filled_finish filled)
    refine ⟨.next ⟨parent.receive ⟨frame.sign, frame.finish attributes⟩ :: rest, after⟩, ?_, ?_, received, below.2,
      table_of_grows grown here, fun other member => table_of_grows grown (later other member)⟩
    · simp only [step, waiting, ran, Option.map_some]
    · simp only [Step.erase, erase, List.map_cons, Minuscule.Walk.step, waiting, found, Frame.receive]

/-- The next child of a frame is given its attributes, and is done or becomes the top frame. The tail of a list has
the sign of the list, for which the frame below waits. -/
theorem step_child {child : ParseTree} {others : List ParseTree} (waiting : frame.waiting = child :: others) :
    ∃ step, Walk.step ⟨frame :: rest, progress⟩ = some step ∧ step.erase = (erase ⟨frame :: rest, progress⟩).step ∧
      step.Sound := by
  have signs := top.signs
  have given := top.given
  have filled := top.filled
  rw [top.base.signed] at given
  rw [signs] at filled
  obtain ⟨ran, supplied, scope⟩ := run_inherit filled (top.next waiting) given table
  rw [← signs] at ran
  have grown := Action.grows_inherit frame.rule frame.inherited frame.done progress
  generalize found : (Action.inherit frame.rule frame.inherited frame.done).run progress = answer
    at ran supplied scope grown
  obtain ⟨inherited, after⟩ := answer
  have kept := table_of_grows grown table
  have others' : ∀ parent ∈ rest, (after.symbols.table? parent.inherited.scope).isSome = true :=
    fun parent member => table_of_grows grown (tables parent member)
  have conforming := top.base.conforms child (waiting ▸ List.mem_cons_self ..)
  let left : Frame := { frame with waiting := others }
  have moved {visited : Visit} (entered : visit child inherited = some visited) :
      Walk.step ⟨frame :: rest, progress⟩ = some (.next ⟨proceed left rest child.sign visited, after⟩) ∧
        (Step.next ⟨proceed left rest child.sign visited, after⟩).erase = (erase ⟨frame :: rest, progress⟩).step := by
    constructor
    · simp only [step, waiting, Frame.children, ran, Option.bind_some, entered, Option.map_some]
      rfl
    · simp only [Step.erase, erase, List.map_cons, Minuscule.Walk.step, waiting, found, erase_proceed,
        visit_eq_some entered]
      rfl
  rcases visit_conforming conforming supplied with
    ⟨kind, attributes, signed, entered⟩ | ⟨opened, entered, sound, signed, own⟩
  · obtain ⟨stepped, erased⟩ := moved entered
    have filled : Filled child.sign attributes := by
      rw [signed]
      trivial
    exact ⟨_, stepped, erased, top.receive waiting filled, below, kept, others'⟩
  · obtain ⟨stepped, erased⟩ := moved entered
    refine ⟨_, stepped, erased, ?_⟩
    have entering : (after.symbols.table? opened.inherited.scope).isSome = true := own ▸ scope
    change Sound ⟨if _ then _ else _, after⟩
    split
    · next continued =>
      have same : opened.sign = frame.sign := by
        simp only [Minuscule.Frame.continues, Bool.and_eq_true, decide_eq_true_eq] at continued
        exact continued.2
      have tail : Frame.Sound ⟨frame.continueWith opened, []⟩ :=
        ⟨⟨sound.base.signed, sound.base.right, sound.base.conforms⟩, sound.signs, sound.filled, sound.given⟩
      exact ⟨tail, same ▸ below, entering, others'⟩
    · have received : ∀ attributes, Filled opened.sign attributes → (left.receive ⟨opened.sign, attributes⟩).Sound := by
        rw [signed]
        intro attributes filled
        exact top.receive waiting filled
      exact ⟨sound, ⟨received, below⟩, entering, List.forall_mem_cons.mpr ⟨kept, others'⟩⟩

end Step

/-- A sound walk does not stop short: it takes the step that the evaluation takes, and is sound again. -/
theorem step_sound {walk : Walk} (sound : walk.Sound) :
    ∃ step, walk.step = some step ∧ step.erase = walk.erase.step ∧ step.Sound := by
  obtain ⟨frames, progress⟩ := walk
  rcases frames with _ | ⟨frame, rest⟩
  · exact sound.elim
  obtain ⟨top, below, table, tables⟩ := sound
  cases waiting : frame.waiting with
  | nil => exact step_done top below table tables waiting
  | cons child others => exact step_child top below table tables waiting

/-- A sound walk comes to the end of the evaluation's own walk. -/
theorem run_sound {walk : Walk} (sound : walk.Sound) : walk.run = some walk.erase.run := by
  fun_induction run walk with
  | case1 walk stopped =>
    obtain ⟨step, found, _⟩ := step_sound sound
    rw [stopped] at found
    cases found
  | case2 walk next moved ih =>
    obtain ⟨step, found, erased, kept⟩ := step_sound sound
    rw [moved] at found
    cases found
    rw [ih kept, Minuscule.Walk.run_eq walk.erase, ← erased]
    rfl
  | case3 walk attributes progress moved =>
    obtain ⟨step, found, erased, _⟩ := step_sound sound
    rw [moved] at found
    cases found
    rw [Minuscule.Walk.run_eq walk.erase, ← erased]
    rfl

end Walk

end Strict

/-- On the tree of a program nothing is ever filled in: the strict evaluation comes to an end, with the result of the
evaluation. -/
theorem strict_evaluation_succeeds {tree : ParseTree} (conforming : tree.conforms Language.grammar = true)
    (rooted : tree.sign = .nonTerminal .program) : Strict.evaluate tree = some (Evaluation.ofTree tree) := by
  have given : Strict.Given tree.sign {} := by
    rw [rooted]
    trivial
  rcases Strict.visit_conforming conforming given with ⟨_, _, signed, _⟩ | ⟨frame, entered, sound, _, own⟩
  · rw [rooted] at signed
    cases signed
  · have start : Strict.Walk.Sound ⟨[⟨frame, []⟩], .start⟩ := by
      refine ⟨sound, trivial, ?_, List.forall_mem_nil _⟩
      change (Symbols.empty.table? frame.inherited.scope).isSome = true
      rw [own]
      rfl
    rw [Strict.evaluate, entered, Evaluation.ofTree, Strict.visit_eq_some entered]
    change (Strict.Walk.run ⟨[⟨frame, []⟩], .start⟩).bind _ = _
    rw [Strict.Walk.run_sound start]
    rfl

theorem strict_evaluation_branching :
    ∃ tree, parseSource branching = .ok tree ∧ tree.conforms Language.grammar = true ∧
      tree.sign = .nonTerminal .program ∧ Strict.evaluate tree = some (Evaluation.ofTree tree) ∧
      (Evaluation.ofTree tree).symbols.functions.entries =
        [⟨"f", .int, [.param false, .param true], 0⟩, ⟨"h", .void, [], 1⟩] := by
  obtain ⟨_, tree, _, parsed, _, _, functions, _⟩ := branching_parses
  obtain ⟨conforming, rooted⟩ := parseSource_conforms parsed
  exact ⟨tree, parsed, conforming, rooted, strict_evaluation_succeeds conforming rooted, functions⟩

/-- What follows a name, without the name: there is no declarator for it. -/
example :
    Strict.evaluate (.node ⟨.nonTerminal .defineType, some Rule.defineTypeVar.index, none, 1⟩
      [.node ⟨.nonTerminal .varDefineFollow, some Rule.varDefineScalar.index, none, 1⟩
        [.node ⟨.terminal .semicolon, none, some ";", 1⟩ []]]) = none := by
  decide +kernel

end Minuscule
