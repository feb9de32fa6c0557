import Minuscule.Proofs.Temporaries

/-!
Where temporaries are read. An expression leaves its value in a temporary and goes on in straight code to where the
value is read, so between the two there is no label and no jump. Names of the source must not look like temporaries
for that, since then what is read need not be what an expression has left.
-/

namespace Minuscule

/-- The place holds a result that the code has left there, with no label and no jump since. -/
def Held (code : List Instruction) (place : String) : Prop :=
  ∃ before instruction after, code = before ++ instruction :: after ∧ instruction.destination? = some place ∧
    ∀ other ∈ after, other.isBoundary = false

/-- If it is a temporary, the place holds a result. -/
def Ready (code : List Instruction) (place : String) : Prop :=
  isTemporary place = true → Held code place

/-- All that the code reads is ready for it when it stands behind this front. -/
def Supplied (front code : List Instruction) : Prop :=
  ∀ before instruction after, code = before ++ instruction :: after →
    ∀ place ∈ instruction.operands, Ready (front ++ before) place

theorem Held.append {code : List Instruction} {place : String} (held : Held code place) {more : List Instruction}
    (straight : ∀ instruction ∈ more, instruction.isBoundary = false) : Held (code ++ more) place := by
  obtain ⟨before, instruction, after, rfl, left, quiet⟩ := held
  refine ⟨before, instruction, after ++ more, by simp, left, ?_⟩
  exact List.forall_mem_append.mpr ⟨quiet, straight⟩

theorem held_concat {instruction : Instruction} {place : String} (left : instruction.destination? = some place)
    (code : List Instruction) : Held (code ++ [instruction]) place :=
  ⟨code, instruction, [], rfl, left, by simp⟩

theorem Ready.append {code : List Instruction} {place : String} (ready : Ready code place) {more : List Instruction}
    (straight : ∀ instruction ∈ more, instruction.isBoundary = false) : Ready (code ++ more) place :=
  fun temporary => (ready temporary).append straight

theorem supplied_of_idle {code : List Instruction} (idle : ∀ instruction ∈ code, instruction.operands = [])
    (front : List Instruction) : Supplied front code := by
  rintro before instruction after rfl place member
  rw [idle instruction (by simp)] at member
  cases member

theorem supplied_singleton {front : List Instruction} {instruction : Instruction}
    (each : ∀ place ∈ instruction.operands, Ready front place) : Supplied front [instruction] := by
  intro before other after split place member
  cases before with
  | nil =>
    cases split
    rw [List.append_nil]
    exact each place member
  | cons => simp at split

theorem Supplied.append {front code more : List Instruction} (early : Supplied front code)
    (late : Supplied (front ++ code) more) : Supplied front (code ++ more) := by
  intro before instruction after whole place member
  rcases List.append_eq_append_iff.mp whole with ⟨middle, front', split⟩ | ⟨middle, front', split⟩
  · rw [front', ← List.append_assoc]
    exact late middle instruction after split place member
  · cases middle with
    | nil =>
      rw [List.append_nil] at front'
      have ready := late [] instruction after split.symm place member
      rw [List.append_nil, front'] at ready
      exact ready
    | cons first middle =>
      cases split
      exact early before instruction middle front' place member

theorem supplied_cons {front rest : List Instruction} {instruction : Instruction}
    (each : ∀ place ∈ instruction.operands, Ready front place) (later : Supplied (front ++ [instruction]) rest) :
    Supplied front (instruction :: rest) :=
  (supplied_singleton each).append later

theorem Scratch.inside {next : Nat} {instruction : Instruction} (scratch : Scratch next instruction) :
    instruction.isBoundary = false := by
  cases instruction
  case label | goto | ifGoto => exact scratch.elim
  all_goals rfl

/-- No name and no literal has the form of a temporary. -/
def Vocabulary.plain : Vocabulary where
  name text := isTemporary text = false
  literal text := isTemporary text = false

theorem ready_of_plain {text : String} (plain : isTemporary text = false) (code : List Instruction) :
    Ready code text := by
  intro temporary
  rw [plain] at temporary
  cases temporary

/-! Calls and chains. -/

theorem supplied_call {front : List Instruction} {args : List String} (each : ∀ place ∈ args, Ready front place)
    (function target : String) : Supplied front (Layout.call function args target) := by
  refine Supplied.append ?_ (supplied_of_idle (by simp [Instruction.operands]) _)
  induction args generalizing front with
  | nil => exact supplied_of_idle (by simp) front
  | cons first rest ih =>
    obtain ⟨here, later⟩ := List.forall_mem_cons.mp each
    have first : Supplied front [.param first] := supplied_singleton (List.forall_mem_singleton.mpr here)
    exact first.append (ih fun place member => (later place member).append (List.forall_mem_singleton.mpr rfl))

theorem held_call (front : List Instruction) (function : String) (args : List String) (target : String) :
    Held (front ++ Layout.call function args target) target := by
  have last : front ++ Layout.call function args target =
      (front ++ args.map .param ++ [.call function args.length]) ++ [.result target] := by
    simp [Layout.call]
  rw [last]
  exact held_concat rfl _

/-- An operator of a chain finds its left operand in the temporary that was written just before. -/
theorem supplied_chain {front : List Instruction} {place : String} (ready : Ready front place)
    {operands : List (Operator × String)} (each : ∀ operand ∈ operands, Ready front operand.2) (next : Nat) :
    Supplied front (Layout.chain next place operands) ∧
      Ready (front ++ Layout.chain next place operands) (Layout.chainPlace next place operands) := by
  induction operands generalizing front place next with
  | nil =>
    refine ⟨supplied_of_idle (by simp [Layout.chain]) front, ?_⟩
    rw [Layout.chain, List.append_nil]
    exact ready
  | cons operand rest ih =>
    obtain ⟨operator, right⟩ := operand
    obtain ⟨here, later⟩ := List.forall_mem_cons.mp each
    let step : Instruction := .binary (temporary next) place operator right
    have straight : ∀ instruction ∈ [step], instruction.isBoundary = false := List.forall_mem_singleton.mpr rfl
    have first : Supplied front [step] := supplied_singleton (by
      intro read member
      rcases List.mem_cons.mp member with rfl | member
      · exact ready
      · rw [List.mem_singleton.mp member]
        exact here)
    have left : Ready (front ++ [step]) (temporary next) := fun _ => held_concat rfl front
    obtain ⟨supplied, last⟩ := ih left (fun operand member => (later operand member).append straight) (next + 1)
    refine ⟨first.append supplied, ?_⟩
    rw [List.append_assoc] at last
    exact last

/-! Branches. What stands behind a label has to be supplied behind any front. -/

theorem supplied_selection {front test consequent alternative : List Instruction} {condition : String}
    (inTest : Supplied front test) (ready : Ready (front ++ test) condition)
    (inConsequent : ∀ front, Supplied front consequent) (inAlternative : ∀ front, Supplied front alternative)
    (consequentLabel alternativeLabel joinLabel : String) :
    Supplied front
      (Layout.selection test condition consequent alternative consequentLabel alternativeLabel joinLabel) := by
  have branch : Supplied (front ++ test) [.ifGoto condition consequentLabel, .label alternativeLabel] :=
    supplied_cons (List.forall_mem_singleton.mpr ready) (supplied_of_idle (List.forall_mem_singleton.mpr rfl) _)
  have jump (front : List Instruction) (label : String) : Supplied front [.goto joinLabel, .label label] :=
    supplied_of_idle (by simp [Instruction.operands]) front
  rw [Layout.selection]
  exact ((((inTest.append branch).append (inAlternative _)).append (jump _ _)).append (inConsequent _)).append
    (jump _ _)

theorem supplied_iteration {test body : List Instruction} {condition : String}
    (inTest : ∀ front, Supplied front test ∧ Ready (front ++ test) condition) (inBody : ∀ front, Supplied front body)
    (front : List Instruction) (testLabel bodyLabel endLabel : String) :
    Supplied front (Layout.iteration test condition body testLabel bodyLabel endLabel) := by
  have entry : Supplied front [.label testLabel] := supplied_of_idle (List.forall_mem_singleton.mpr rfl) front
  obtain ⟨supplied, ready⟩ := inTest (front ++ [.label testLabel])
  rw [List.append_assoc] at ready
  have branch : Supplied (front ++ ([.label testLabel] ++ test))
      [.ifGoto condition bodyLabel, .goto endLabel, .label bodyLabel] :=
    supplied_cons (List.forall_mem_singleton.mpr ready) (supplied_of_idle (by simp [Instruction.operands]) _)
  have back (front : List Instruction) : Supplied front [.goto testLabel, .label endLabel] :=
    supplied_of_idle (by simp [Instruction.operands]) front
  rw [Layout.iteration]
  exact (((entry.append supplied).append branch).append (inBody _)).append (back _)

/-! Expressions. -/

mutual

/-- The code of an expression is supplied, and leaves its value ready. -/
theorem Expression.supplied_code : ∀ {expression : Expression}, expression.Spelled .plain →
    ∀ (front : List Instruction) (next : Nat), Supplied front (expression.code next) ∧
      Ready (front ++ expression.code next) (expression.place next)
  | .number _, plain, front, _ => ⟨supplied_of_idle (by simp [Expression.code]) front, ready_of_plain plain _⟩
  | .scalar _, plain, front, _ => ⟨supplied_of_idle (by simp [Expression.code]) front, ready_of_plain plain _⟩
  | .element use index, ⟨named, inside⟩, front, next => by
    obtain ⟨supplied, ready⟩ := Expression.supplied_code inside front next
    rw [Expression.code, ← List.append_assoc]
    refine ⟨supplied.append (supplied_singleton ?_), fun _ => held_concat rfl _⟩
    intro place member
    rcases List.mem_cons.mp member with rfl | member
    · exact ready_of_plain named _
    · rw [List.mem_singleton.mp member]
      exact ready
  | .call callee arguments, ⟨_, inside⟩, front, next => by
    obtain ⟨supplied, ready⟩ := Arguments.supplied_code inside front next
    rw [Expression.code, ← List.append_assoc]
    exact ⟨supplied.append (supplied_call ready _ _), fun _ => held_call ..⟩
  | .chain head links, ⟨first, others⟩, front, next => by
    obtain ⟨headSupplied, headReady⟩ := Expression.supplied_code first front next
    obtain ⟨linksSupplied, linksReady⟩ := Links.supplied_code others (front ++ head.code next) (next + head.temporaries)
    have straight : ∀ instruction ∈ links.code (next + head.temporaries), instruction.isBoundary = false :=
      fun instruction member => (Links.scratch_code (Nat.le_refl _) links instruction member).inside
    obtain ⟨chainSupplied, chainReady⟩ := supplied_chain (headReady.append straight) linksReady
      (next + head.temporaries + links.temporaries)
    rw [Expression.code]
    refine ⟨(headSupplied.append linksSupplied).append ?_, ?_⟩
    · rw [← List.append_assoc]
      exact chainSupplied
    · simp only [← List.append_assoc]
      exact chainReady

theorem Links.supplied_code : ∀ {links : Links}, links.Spelled .plain →
    ∀ (front : List Instruction) (next : Nat), Supplied front (links.code next) ∧
      ∀ operand ∈ links.operands next, Ready (front ++ links.code next) operand.2
  | .nil, _, front, _ => ⟨supplied_of_idle (by simp [Links.code]) front, by simp [Links.operands]⟩
  | .cons operator operand rest, ⟨first, others⟩, front, next => by
    obtain ⟨supplied, ready⟩ := Expression.supplied_code first front next
    obtain ⟨laterSupplied, laterReady⟩ := Links.supplied_code others (front ++ operand.code next)
      (next + operand.temporaries)
    have straight : ∀ instruction ∈ rest.code (next + operand.temporaries), instruction.isBoundary = false :=
      fun instruction member => (Links.scratch_code (Nat.le_refl _) rest instruction member).inside
    rw [Links.code, Links.operands, ← List.append_assoc, List.forall_mem_cons]
    exact ⟨supplied.append laterSupplied, ready.append straight, laterReady⟩

theorem Arguments.supplied_code : ∀ {arguments : Arguments}, arguments.Spelled .plain →
    ∀ (front : List Instruction) (next : Nat), Supplied front (arguments.code next) ∧
      ∀ place ∈ arguments.places next, Ready (front ++ arguments.code next) place
  | .nil, _, front, _ => ⟨supplied_of_idle (by simp [Arguments.code]) front, by simp [Arguments.places]⟩
  | .cons first rest, ⟨here, others⟩, front, next => by
    obtain ⟨supplied, ready⟩ := Expression.supplied_code here front next
    obtain ⟨laterSupplied, laterReady⟩ := Arguments.supplied_code others (front ++ first.code next)
      (next + first.temporaries)
    have straight : ∀ instruction ∈ rest.code (next + first.temporaries), instruction.isBoundary = false :=
      fun instruction member => (Arguments.scratch_code (Nat.le_refl _) rest instruction member).inside
    rw [Arguments.code, Arguments.places, ← List.append_assoc, List.forall_mem_cons]
    exact ⟨supplied.append laterSupplied, ready.append straight, laterReady⟩

end

mutual

theorem Expression.plain_leaves : ∀ {expression : Expression}, expression.Spelled .plain →
    ∀ text ∈ expression.leaves, isTemporary text = false
  | .number _, plain => List.forall_mem_singleton.mpr plain
  | .scalar _, plain => List.forall_mem_singleton.mpr plain
  | .element _ _, ⟨named, inside⟩ => List.forall_mem_cons.mpr ⟨named, Expression.plain_leaves inside⟩
  | .call _ _, ⟨_, inside⟩ => Arguments.plain_leaves inside
  | .chain _ _, ⟨first, others⟩ => List.forall_mem_append.mpr ⟨Expression.plain_leaves first, Links.plain_leaves others⟩

theorem Links.plain_leaves : ∀ {links : Links}, links.Spelled .plain → ∀ text ∈ links.leaves, isTemporary text = false
  | .nil, _ => by simp [Links.leaves]
  | .cons _ _ _, ⟨first, others⟩ =>
    List.forall_mem_append.mpr ⟨Expression.plain_leaves first, Links.plain_leaves others⟩

theorem Arguments.plain_leaves : ∀ {arguments : Arguments}, arguments.Spelled .plain →
    ∀ text ∈ arguments.leaves, isTemporary text = false
  | .nil, _ => by simp [Arguments.leaves]
  | .cons _ _, ⟨first, others⟩ =>
    List.forall_mem_append.mpr ⟨Expression.plain_leaves first, Arguments.plain_leaves others⟩

end

/-! Statements. -/

namespace Statement

theorem plain_leaves {statement : Statement} (plain : statement.Spelled .plain) :
    ∀ text ∈ statement.leaves, isTemporary text = false := by
  induction statement with
  | skip => simp [leaves]
  | seq first rest ihFirst ihRest => exact List.forall_mem_append.mpr ⟨ihFirst plain.1, ihRest plain.2⟩
  | assign target value => exact Expression.plain_leaves plain.2
  | store target index value =>
    obtain ⟨named, inside, other⟩ := plain
    rw [leaves, List.forall_mem_append, List.forall_mem_append, List.forall_mem_singleton]
    exact ⟨⟨named, Expression.plain_leaves inside⟩, Expression.plain_leaves other⟩
  | call callee arguments => exact Arguments.plain_leaves plain.2
  | select test consequent alternative ihConsequent ihAlternative =>
    obtain ⟨inTest, inConsequent, inAlternative⟩ := plain
    rw [leaves, List.forall_mem_append, List.forall_mem_append]
    exact ⟨⟨Expression.plain_leaves inTest, ihConsequent inConsequent⟩, ihAlternative inAlternative⟩
  | loop test body ih => exact List.forall_mem_append.mpr ⟨Expression.plain_leaves plain.1, ih plain.2⟩
  | ret value =>
    cases value with
    | none => simp [leaves]
    | some value => exact Expression.plain_leaves plain

/-- The code of a statement is supplied behind any front: it reads no temporary from in front of it. -/
theorem supplied_code {statement : Statement} (plain : statement.Spelled .plain) (front : List Instruction)
    (names : Names) : Supplied front (statement.code names) := by
  induction statement generalizing front names with
  | skip => exact supplied_of_idle (by simp [code]) front
  | seq first rest ihFirst ihRest => exact (ihFirst plain.1 front names).append (ihRest plain.2 _ _)
  | assign target value =>
    obtain ⟨supplied, ready⟩ := Expression.supplied_code plain.2 front names.temporaries
    exact supplied.append (supplied_singleton (List.forall_mem_singleton.mpr ready))
  | store target index value =>
    obtain ⟨named, inside, other⟩ := plain
    obtain ⟨indexSupplied, indexReady⟩ := Expression.supplied_code inside front names.temporaries
    obtain ⟨valueSupplied, valueReady⟩ := Expression.supplied_code other (front ++ index.code names.temporaries)
      (names.temporaries + index.temporaries)
    have straight : ∀ instruction ∈ value.code (names.temporaries + index.temporaries),
        instruction.isBoundary = false :=
      fun instruction member => (value.scratch_code (Nat.le_refl _) instruction member).inside
    refine (indexSupplied.append valueSupplied).append (supplied_singleton ?_)
    rw [← List.append_assoc, Instruction.operands, List.forall_mem_cons, List.forall_mem_cons,
      List.forall_mem_singleton]
    exact ⟨ready_of_plain named _, indexReady.append straight, valueReady⟩
  | call callee arguments =>
    obtain ⟨supplied, ready⟩ := Arguments.supplied_code plain.2 front names.temporaries
    exact supplied.append (supplied_call ready _ _)
  | select test consequent alternative ihConsequent ihAlternative =>
    obtain ⟨inTest, inConsequent, inAlternative⟩ := plain
    obtain ⟨supplied, ready⟩ := Expression.supplied_code inTest front names.temporaries
    exact supplied_selection supplied ready (fun front => ihConsequent inConsequent front _)
      (fun front => ihAlternative inAlternative front _) _ _ _
  | loop test body ih =>
    exact supplied_iteration (fun front => Expression.supplied_code plain.1 front _) (fun front => ih plain.2 front _)
      front _ _ _
  | ret value =>
    cases value with
    | none => exact supplied_singleton (by simp [Instruction.operands])
    | some value =>
      obtain ⟨supplied, ready⟩ := Expression.supplied_code plain front names.temporaries
      exact supplied.append (supplied_singleton (List.forall_mem_singleton.mpr ready))

end Statement

/-- The phrase of a tree whose leaves have no text of the form of a temporary. -/
theorem Phrase.spelled_plain {tree : ParseTree} (conforming : tree.conforms Language.grammar = true)
    (plain : ∀ label ∈ tree.leafLabels, ∀ lexeme ∈ label.lexeme, isTemporary lexeme = false) :
    (ofTree tree).Spelled .plain tree.sign := by
  apply spelled_ofTree tree conforming
  intro label member
  have text : isTemporary (label.lexeme.getD "") = false := by
    rcases found : label.lexeme with _ | lexeme
    · rfl
    · exact plain label member lexeme found
  obtain ⟨_, terminal⟩ := List.mem_filter.mp member
  rcases sort : label.sign with kind | kind | _ | _ <;> rw [sort] at terminal
  case terminal => cases kind <;> first | exact text | trivial
  all_goals cases terminal

/-! Programs. -/

namespace Program

theorem plain_leaves {program : Program} (plain : program.Spelled .plain) :
    ∀ text ∈ program.leaves, isTemporary text = false := by
  intro text member
  obtain ⟨definition, listed, inside⟩ := List.mem_flatMap.mp member
  obtain ⟨declarator, length | ⟨params, locals, body⟩⟩ := definition
  · cases inside
  · obtain ⟨_, _, _, spelled⟩ := plain _ listed
    exact Statement.plain_leaves spelled text inside

theorem supplied_code {program : Program} (plain : program.Spelled .plain) (front : List Instruction) (names : Names) :
    Supplied front (program.code names) := by
  induction program generalizing front names with
  | nil => exact supplied_of_idle (by simp [code]) front
  | cons definition rest ih =>
    obtain ⟨here, later⟩ := List.forall_mem_cons.mp plain
    refine Supplied.append ?_ (ih later _ _)
    obtain ⟨declarator, length | ⟨params, locals, body⟩⟩ := definition
    · exact supplied_of_idle (by simp [Definition.code]) front
    · obtain ⟨_, _, _, spelled⟩ := here
      exact supplied_cons (by simp [Instruction.operands]) (Statement.supplied_code spelled _ names)

theorem spelled_plain {tree : ParseTree} (conforming : tree.conforms Language.grammar = true)
    (rooted : tree.sign = .nonTerminal .program)
    (plain : ∀ label ∈ tree.leafLabels, ∀ lexeme ∈ label.lexeme, isTemporary lexeme = false) :
    (Program.ofTree tree).Spelled .plain := by
  have spelled := Phrase.spelled_plain conforming plain
  rw [rooted] at spelled
  exact spelled

/-- A temporary is read once, or it is the result of a call statement. -/
theorem count_reads {program : Program} (plain : program.Spelled .plain) (names : Names) {place : String}
    (form : isTemporary place = true) :
    (reads (program.code names)).count place +
        ((program.callSites names.temporaries).map CallSite.result).count place =
      (temporariesFrom names.temporaries program.temporaries).count place := by
  have absent : program.leaves.count place = 0 := by
    apply List.count_eq_zero.mpr
    intro member
    rw [plain_leaves plain place member] at form
    cases form
  have all := (program.perm_reads names).count_eq place
  rw [List.count_append, List.count_append, absent, Nat.zero_add] at all
  exact all

theorem not_mem_reads_iff {program : Program} (plain : program.Spelled .plain) {names : Names} {place : String}
    (member : place ∈ written (program.code names)) :
    place ∉ reads (program.code names) ↔ ∃ site ∈ program.callSites names.temporaries, site.result = place := by
  have handed := (program.perm_written names).mem_iff.mp member
  have balance := count_reads plain names (isTemporary_of_mem handed)
  rw [List.count_eq_one_of_mem (nodup_temporariesFrom ..) handed] at balance
  rw [← List.mem_map, ← List.count_eq_zero, ← List.count_pos_iff]
  omega

end Program

/-- The life of temporaries. Each of those handed out is the destination of one instruction. If no text of the source
looks like one, then what is read of them was left before in the same straight code, none is read twice, and the
ones that nobody reads are the results of call statements. -/
theorem temporaries_linear {tree : ParseTree} (conforming : tree.conforms Language.grammar = true)
    (rooted : tree.sign = .nonTerminal .program) :
    List.Perm (written (Evaluation.ofTree tree).code)
        (temporariesFrom 0 (Evaluation.ofTree tree).names.temporaries) ∧
      ((∀ label ∈ tree.leafLabels, ∀ lexeme ∈ label.lexeme, isTemporary lexeme = false) →
        (∀ before instruction after, (Evaluation.ofTree tree).code = before ++ instruction :: after →
          ∀ place ∈ instruction.operands, isTemporary place = true → Held before place) ∧
        (∀ place, isTemporary place = true → (reads (Evaluation.ofTree tree).code).count place ≤ 1) ∧
        ∀ place ∈ written (Evaluation.ofTree tree).code, place ∉ reads (Evaluation.ofTree tree).code ↔
          ∃ site ∈ (Program.ofTree tree).callSites 0,
            site.result = place ∧ site.code <:+: (Evaluation.ofTree tree).code) := by
  have count : ((Program.ofTree tree).names .fresh).temporaries = (Program.ofTree tree).temporaries := by
    rw [Program.temporaries_names]
    exact Nat.zero_add _
  rw [Evaluation.ofTree_eq_program conforming rooted]
  dsimp only
  rw [count]
  refine ⟨(Program.ofTree tree).perm_written .fresh, fun free => ?_⟩
  have plain := Program.spelled_plain conforming rooted free
  refine ⟨?_, ?_, ?_⟩
  · exact Program.supplied_code plain [] .fresh
  · intro place form
    have balance := Program.count_reads plain .fresh form
    have once := List.nodup_iff_count_le_one.mp
      (nodup_temporariesFrom Names.fresh.temporaries (Program.ofTree tree).temporaries) place
    omega
  · intro place member
    rw [Program.not_mem_reads_iff plain member]
    have placed := (Program.ofTree tree).infix_code .fresh
    exact ⟨fun ⟨site, listed, same⟩ => ⟨site, listed, same, placed site listed⟩,
      fun ⟨site, listed, same, _⟩ => ⟨site, listed, same⟩⟩

theorem temporaries_linear_branching :
    ∃ tree, parseSource branching = .ok tree ∧ tree.conforms Language.grammar = true ∧
      tree.sign = .nonTerminal .program ∧
      (∀ label ∈ tree.leafLabels, ∀ lexeme ∈ label.lexeme, isTemporary lexeme = false) ∧
      List.Perm (written (Evaluation.ofTree tree).code) ["_v0", "_v1", "_v2"] ∧
      (∀ before instruction after, (Evaluation.ofTree tree).code = before ++ instruction :: after →
        ∀ place ∈ instruction.operands, isTemporary place = true → Held before place) ∧
      (reads (Evaluation.ofTree tree).code).count "_v0" ≤ 1 ∧
      ("_v2" ∉ reads (Evaluation.ofTree tree).code ↔
        ∃ site ∈ (Program.ofTree tree).callSites 0,
          site.result = "_v2" ∧ site.code <:+: (Evaluation.ofTree tree).code) := by
  obtain ⟨tokens, tree, read, parsed, plain, _, _, count, _⟩ := branching_parses
  obtain ⟨conforming, rooted⟩ := parseSource_conforms parsed
  have free : ∀ label ∈ tree.leafLabels, ∀ lexeme ∈ label.lexeme, isTemporary lexeme = false := by
    obtain ⟨tokens', read', found⟩ := parseSource_ok parsed
    obtain ⟨_, _, labels⟩ := Language.parse_tree found
    cases read.symm.trans read'
    rw [labels, List.forall_mem_map]
    rintro token member _ ⟨⟩
    exact isTemporary_eq_false (plain token member)
  obtain ⟨destinations, linear⟩ := temporaries_linear conforming rooted
  obtain ⟨supplied, once, unread⟩ := linear free
  rw [count] at destinations
  have third : "_v2" ∈ written (Evaluation.ofTree tree).code := destinations.mem_iff.mpr (by decide)
  exact ⟨tree, parsed, conforming, rooted, free, destinations, supplied, once "_v0" (by decide), unread "_v2" third⟩

end Minuscule
