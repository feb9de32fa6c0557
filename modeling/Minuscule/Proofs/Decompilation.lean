import Minuscule.Proofs.Calculation
import Minuscule.Proofs.Chains
import Minuscule.Proofs.Lists
import Minuscule.Proofs.Supply
import Minuscule.Proofs.Unambiguity

/-!
The code of an expression is read back. Starting from the place of the value, each temporary is replaced by the right
side of the instruction that leaves it, and the result of a call by the call with its arguments. What comes out is the
formula of the expression, and on the way each instruction is used once. The operators of a chain come behind the code
of all its operands.
-/

namespace Minuscule

/-! Reading back. -/

def Instruction.param? : Instruction → Option String
  | param value => some value
  | _ => none

/-- The function that is called last, with the parameters in front of the call. The last instruction comes first. -/
def called? : List Instruction → Option (String × List String)
  | .call function count :: earlier =>
    ((earlier.take count).reverse.mapM Instruction.param?).bind fun values =>
      if values.length = count then some (function, values) else none
  | _ => none

/-- The right side of an instruction behind some code, where it is known what the places in it stand for; together with
the indices of the instructions that are used. -/
def Instruction.rightSide? (earlier : List Instruction) (meaning : String → Option (Formula × List Nat)) :
    Instruction → Option (Formula × List Nat)
  | binary _ left operator right =>
    (meaning left).bind fun left => (meaning right).map fun right =>
      (.binary operator left.1 right.1, left.2 ++ right.2 ++ [earlier.length])
  | load _ array index =>
    (meaning index).map fun index => (.element array index.1, index.2 ++ [earlier.length])
  | result _ =>
    (called? earlier).bind fun call => (call.2.mapM meaning).map fun arguments =>
      (.call call.1 (arguments.map Prod.fst),
        arguments.flatMap Prod.snd ++ List.range' (earlier.length - (call.2.length + 1)) (call.2.length + 2))
  | _ => none

/-- What a place stands for behind some code: itself, or the right side of the instruction that leaves it if it is a
temporary. The last instruction comes first. -/
def expand? : List Instruction → String → Option (Formula × List Nat)
  | [], place => if isTemporary place then none else some (.leaf place, [])
  | last :: earlier, place =>
    if isTemporary place = false then some (.leaf place, [])
    else if last.destination? = some place then last.rightSide? earlier (expand? earlier)
    else expand? earlier place

/-- What a place stands for behind a piece of code. -/
def decompile (code : List Instruction) (place : String) : Option (Formula × List Nat) :=
  expand? code.reverse place

theorem expand?_leaf {text : String} (plain : isTemporary text = false) (code : List Instruction) :
    expand? code text = some (.leaf text, []) := by
  cases code with
  | nil => simp [expand?, plain]
  | cons last earlier => simp [expand?, plain]

theorem expand?_append {place : String} {later : List Instruction}
    (apart : ∀ instruction ∈ later, instruction.destination? ≠ some place) (earlier : List Instruction) :
    expand? (later ++ earlier) place = expand? earlier place := by
  by_cases plain : isTemporary place = false
  · rw [expand?_leaf plain, expand?_leaf plain]
  · induction later with
    | nil => rfl
    | cons last later ih =>
      obtain ⟨here, rest⟩ := List.forall_mem_cons.mp apart
      rw [List.cons_append, expand?, if_neg plain, if_neg here, ih rest]

section Steps
variable {code : List Instruction} {place target : String} {formula : Formula} {used : List Nat}

theorem decompile_leaf (plain : isTemporary place = false) (code : List Instruction) :
    decompile code place = some (.leaf place, []) :=
  expand?_leaf plain _

/-- Code that does not leave anything at a place leaves what the place stands for. -/
theorem decompile_append (found : decompile code place = some (formula, used)) {more : List Instruction}
    (apart : place ∉ written more) : decompile (code ++ more) place = some (formula, used) := by
  rw [decompile, List.reverse_append, expand?_append, ← decompile, found]
  intro instruction member same
  exact apart (List.mem_filterMap.mpr ⟨instruction, List.mem_reverse.mp member, same⟩)

theorem decompile_binary (form : isTemporary target = true) {left right : String} (operator : Operator)
    {second : Formula} {others : List Nat} (first : decompile code left = some (formula, used))
    (rest : decompile code right = some (second, others)) :
    decompile (code ++ [.binary target left operator right]) target =
      some (.binary operator formula second, used ++ others ++ [code.length]) := by
  rw [decompile] at first rest
  rw [decompile, List.reverse_append, List.reverse_singleton, List.singleton_append, expand?]
  simp [form, Instruction.destination?, Instruction.rightSide?, first, rest]

theorem decompile_load (form : isTemporary target = true) (array : String)
    (first : decompile code place = some (formula, used)) :
    decompile (code ++ [.load target array place]) target =
      some (.element array formula, used ++ [code.length]) := by
  rw [decompile] at first
  rw [decompile, List.reverse_append, List.reverse_singleton, List.singleton_append, expand?]
  simp [form, Instruction.destination?, Instruction.rightSide?, first]

end Steps

/-- Places that stand for formulas behind a piece of code, with all indices used for them. -/
inductive DecompilesAll (code : List Instruction) : List String → List Formula → List Nat → Prop
  | nil : DecompilesAll code [] [] []
  | cons {place : String} {places : List String} {formula : Formula} {formulas : List Formula} {used others : List Nat}
    (here : decompile code place = some (formula, used)) (later : DecompilesAll code places formulas others) :
    DecompilesAll code (place :: places) (formula :: formulas) (used ++ others)

namespace DecompilesAll
variable {code : List Instruction} {places : List String} {formulas : List Formula} {used : List Nat}

theorem append (all : DecompilesAll code places formulas used) {more : List Instruction}
    (apart : ∀ place ∈ places, place ∉ written more) : DecompilesAll (code ++ more) places formulas used := by
  induction all with
  | nil => exact .nil
  | cons here _ ih =>
    obtain ⟨first, rest⟩ := List.forall_mem_cons.mp apart
    exact .cons (decompile_append here first) (ih rest)

theorem mapM (all : DecompilesAll code places formulas used) :
    ∃ pairs, places.mapM (decompile code) = some pairs ∧ pairs.map Prod.fst = formulas ∧
      pairs.flatMap Prod.snd = used := by
  induction all with
  | nil => exact ⟨[], rfl, rfl, rfl⟩
  | @cons _ _ formula _ used _ here _ ih =>
    obtain ⟨pairs, found, rfl, rfl⟩ := ih
    refine ⟨(formula, used) :: pairs, ?_, rfl, rfl⟩
    rw [List.mapM_cons, here, found]
    rfl

end DecompilesAll

theorem mapM_param? (args : List String) : (args.map Instruction.param).mapM Instruction.param? = some args := by
  induction args with
  | nil => rfl
  | cons arg rest ih =>
    rw [List.map_cons, List.mapM_cons, ih]
    rfl

theorem decompile_call {code : List Instruction} {args : List String} {formulas : List Formula} {used : List Nat}
    (all : DecompilesAll code args formulas used) {target : String} (form : isTemporary target = true)
    (function : String) :
    decompile (code ++ Layout.call function args target) target =
      some (.call function formulas, used ++ List.range' code.length (args.length + 2)) := by
  obtain ⟨pairs, found, rfl, rfl⟩ := all.mapM
  let silent : List Instruction := .call function args.length :: (args.map .param).reverse
  have back : (code ++ Layout.call function args target).reverse = .result target :: (silent ++ code.reverse) := by
    simp [Layout.call, silent]
  have meaning : expand? (silent ++ code.reverse) = decompile code := by
    funext place
    apply expand?_append
    intro instruction member
    rcases List.mem_cons.mp member with rfl | param
    · simp [Instruction.destination?]
    · obtain ⟨value, _, rfl⟩ := List.mem_map.mp (List.mem_reverse.mp param)
      simp [Instruction.destination?]
  have call : called? (silent ++ code.reverse) = some (function, args) := by
    change ((((args.map Instruction.param).reverse ++ code.reverse).take args.length).reverse.mapM
      Instruction.param?).bind _ = _
    rw [List.take_left' (by simp), List.reverse_reverse, mapM_param?, Option.bind_some, if_pos rfl]
  have length : (silent ++ code.reverse).length = code.length + (args.length + 1) := by
    simp [silent]
    omega
  have left : (Instruction.result target).destination? = some target := rfl
  rw [decompile, back, expand?, if_neg (by simp [form]), if_pos left, Instruction.rightSide?, call, Option.bind_some,
    meaning, found, length, Nat.add_sub_cancel]
  rfl

/-- Each operator of a chain takes what the one in front of it has left. -/
theorem decompile_chain {operands : List (Operator × String)} {next : Nat}
    (settled : ∀ operand ∈ operands, Settled next operand.2) {code : List Instruction} {place : String}
    {formula : Formula} {used : List Nat} (first : decompile code place = some (formula, used))
    {formulas : List Formula} {others : List Nat} (rest : DecompilesAll code (operands.map Prod.snd) formulas others) :
    ∃ all, decompile (code ++ Layout.chain next place operands) (Layout.chainPlace next place operands) =
        some (.group formula (operands.map Prod.fst) formulas, all) ∧
      List.Perm all (used ++ others ++ List.range' code.length operands.length) := by
  induction operands generalizing next code place formula used formulas others with
  | nil =>
    cases rest
    refine ⟨used, ?_, by simp⟩
    rw [Layout.chain, List.append_nil]
    exact first
  | cons operand operands ih =>
    obtain ⟨operator, right⟩ := operand
    obtain ⟨own, later⟩ := List.forall_mem_cons.mp settled
    cases rest with
    | @cons _ _ second formulas more others here rest =>
      have step := decompile_binary (isTemporary_temporary next) operator first here
      have apart : ∀ other ∈ operands.map Prod.snd,
          other ∉ written [.binary (temporary next) place operator right] := by
        intro other member
        obtain ⟨operand, present, rfl⟩ := List.mem_map.mp member
        exact List.mem_singleton.not.mpr (later operand present next (Nat.le_refl next))
      obtain ⟨all, found, perm⟩ := ih (fun operand member => (later operand member).mono (Nat.le_succ next)) step
        (rest.append apart)
      refine ⟨all, ?_, perm.trans ?_⟩
      · rw [List.append_assoc] at found
        exact found
      · rw [List.length_append, List.length_singleton, List.length_cons, List.range'_succ]
        apply List.perm_iff_count.mpr
        intro index
        simp only [List.count_append, List.count_cons, List.count_nil]
        omega

/-! Expressions. -/

theorem Settled.not_mem_temporariesFrom {first : Nat} {place : String} (settled : Settled first place) (count : Nat) :
    place ∉ temporariesFrom first count := by
  intro member
  obtain ⟨number, inside, rfl⟩ := List.mem_map.mp member
  exact settled number (List.mem_range'_1.mp inside).1 rfl

theorem Vocabulary.settles_plain : Vocabulary.plain.Settles := by
  rintro text word number _ rfl
  have form : isTemporary (temporary number) = false := word.elim id id
  rw [isTemporary_temporary] at form
  cases form

/-- The code behind an expression uses other temporaries. -/
theorem Expression.decompile_append {expression : Expression} (plain : expression.Spelled .plain)
    {code more : List Instruction} {next count : Nat} {formula : Formula} {used : List Nat}
    (found : decompile code (expression.place next) = some (formula, used))
    (behind : written more = temporariesFrom (next + expression.temporaries) count) :
    decompile (code ++ more) (expression.place next) = some (formula, used) := by
  apply Minuscule.decompile_append found
  rw [behind]
  exact (Expression.settled_place Vocabulary.settles_plain plain).not_mem_temporariesFrom count

mutual

/-- Behind the code of an expression, in front of which other code may stand, its place stands for its formula. The
head of a chain is read back over the code of the operands, and the chain over both. -/
theorem Expression.decompile_code : ∀ {expression : Expression}, expression.Spelled .plain →
    ∀ (before : List Instruction) (next : Nat), ∃ used,
      decompile (before ++ expression.code next) (expression.place next) = some (expression.formula, used) ∧
        used.Perm (List.range' before.length (expression.code next).length)
  | .number literal, plain, before, next => ⟨[], decompile_leaf plain _, .refl _⟩
  | .scalar use, plain, before, next => ⟨[], decompile_leaf plain _, .refl _⟩
  | .element use index, ⟨_, inside⟩, before, next => by
    obtain ⟨used, found, perm⟩ := Expression.decompile_code inside before next
    have step := decompile_load (isTemporary_temporary (next + index.temporaries)) use.name found
    rw [List.append_assoc, List.length_append] at step
    refine ⟨_, step, ?_⟩
    rw [Expression.code, List.length_append]
    exact perm_range' perm (.refl _)
  | .call callee arguments, ⟨_, inside⟩, before, next => by
    obtain ⟨used, found, perm⟩ := Arguments.decompile_code inside before next
    have step := decompile_call found (isTemporary_temporary (next + arguments.temporaries)) callee.name
    rw [List.append_assoc, List.length_append] at step
    refine ⟨_, step, ?_⟩
    have length : (Layout.call callee.name (arguments.places next) (temporary (next + arguments.temporaries))).length =
        (arguments.places next).length + 2 := by
      simp [Layout.call]
    rw [Expression.code, List.length_append, length]
    exact perm_range' perm (.refl _)
  | .chain head links, ⟨first, others⟩, before, next => by
    obtain ⟨used, found, perm⟩ := Expression.decompile_code first before next
    obtain ⟨more, rest, perms⟩ := Links.decompile_code others (before ++ head.code next) (next + head.temporaries)
    have early := Expression.decompile_append first found (Links.written_code links _)
    obtain ⟨all, whole, perm'⟩ := decompile_chain
      (Links.settled_operands Vocabulary.settles_plain others) early rest
    rw [Links.map_fst_operands, List.append_assoc, List.append_assoc, ← List.append_assoc (head.code next)] at whole
    refine ⟨all, whole, perm'.trans ?_⟩
    rw [List.length_append] at perms
    rw [Expression.code, List.length_append, List.length_append, List.length_append, List.length_append, length_chain]
    apply perm_range' (perm_range' perm perms)
    rw [Nat.add_assoc]

theorem Links.decompile_code : ∀ {links : Links}, links.Spelled .plain →
    ∀ (before : List Instruction) (next : Nat), ∃ used,
      DecompilesAll (before ++ links.code next) ((links.operands next).map Prod.snd) links.formulas used ∧
        used.Perm (List.range' before.length (links.code next).length)
  | .nil, _, before, next => ⟨[], .nil, .refl _⟩
  | .cons operator operand rest, ⟨first, others⟩, before, next => by
    obtain ⟨used, found, perm⟩ := Expression.decompile_code first before next
    obtain ⟨more, later, perms⟩ :=
      Links.decompile_code others (before ++ operand.code next) (next + operand.temporaries)
    have whole := DecompilesAll.cons (Expression.decompile_append first found (Links.written_code rest _)) later
    rw [List.append_assoc] at whole
    refine ⟨_, whole, ?_⟩
    rw [List.length_append] at perms
    rw [Links.code, List.length_append]
    exact perm_range' perm perms

theorem Arguments.decompile_code : ∀ {arguments : Arguments}, arguments.Spelled .plain →
    ∀ (before : List Instruction) (next : Nat), ∃ used,
      DecompilesAll (before ++ arguments.code next) (arguments.places next) arguments.formulas used ∧
        used.Perm (List.range' before.length (arguments.code next).length)
  | .nil, _, before, next => ⟨[], .nil, .refl _⟩
  | .cons first rest, ⟨here, others⟩, before, next => by
    obtain ⟨used, found, perm⟩ := Expression.decompile_code here before next
    obtain ⟨more, later, perms⟩ :=
      Arguments.decompile_code others (before ++ first.code next) (next + first.temporaries)
    have whole := DecompilesAll.cons (Expression.decompile_append here found (Arguments.written_code rest _)) later
    rw [List.append_assoc] at whole
    refine ⟨_, whole, ?_⟩
    rw [List.length_append] at perms
    rw [Arguments.code, List.length_append]
    exact perm_range' perm perms

end

/-- The code of an expression is read back as the one formula that its words stand for. Each instruction is used once,
each temporary has one instruction, and each operator chain has the code of its operands in front of its own. -/
theorem expression_code_decompiles {tree : ParseTree} (conforming : tree.conforms Language.grammar = true)
    (signed : tree.sign = .nonTerminal .expression)
    (plain : ∀ label ∈ tree.leafLabels, ∀ lexeme ∈ label.lexeme, isTemporary lexeme = false)
    (inherited : Inherited) (progress : Progress) :
    let found := (Walk.ofTree tree inherited progress).1
    (∃ formula used, decompile found.code found.place = some (formula, used) ∧
      (∀ other, Reads .comparison tree.words other ↔ other = formula) ∧
      List.Perm used (List.range found.code.length)) ∧
    (written found.code).Nodup ∧
    ∀ chain ∈ tree.subtrees, chain.IsChain → ∃ start own,
      (Walk.ofTree chain inherited start).1.code = (Walk.codes inherited chain.operands start).flatten ++ own ∧
      own.map Instruction.operator? = chain.operators.map some ∧
      (Walk.ofTree chain inherited start).1.code <:+: found.code := by
  intro found
  have valued : tree.HasValue := ⟨conforming, .inl (.inl signed)⟩
  have synthesized : found = _ := congrArg Prod.fst (valued.ofTree inherited progress)
  refine ⟨?_, ?_, fun chain member chained => valued.code_chain inherited progress member chained⟩
  · have spelled := Phrase.spelled_plain conforming plain
    have reading := Phrase.reads_ofTree tree conforming
    rw [signed] at spelled reading
    obtain ⟨used, whole, perm⟩ := Expression.decompile_code spelled [] progress.names.temporaries
    rw [synthesized]
    refine ⟨_, used, whole, ?_, ?_⟩
    · exact fun other => ⟨fun reading' => reading'.unique reading, fun same => same ▸ reading⟩
    · rw [List.range_eq_range']
      exact perm
  · rw [synthesized, Expression.written_code]
    exact nodup_temporariesFrom _ _

/-- The tree of `a - b * f(c, 2) - (d + x[1]) < 3`. -/
def Language.nestedChains : ParseTree :=
  let name (text : String) (follow : ParseTree) : ParseTree := .ofRule .factorId [.ofWord (.ident, text), follow]
  let plain : ParseTree := .ofRule .idFactorVar [.ofRule .varFollowEmpty []]
  let number (text : String) : ParseTree := .ofRule .factorNum [.ofWord (.num, text)]
  let product (factor : ParseTree) : ParseTree := .ofRule .term [factor, .ofRule .termFollowEmpty []]
  let sum (term : ParseTree) : ParseTree := .ofRule .additiveExpr [term, .ofRule .additiveFollowEmpty []]
  let alone (factor : ParseTree) : ParseTree :=
    .ofRule .expression [sum (product factor), .ofRule .expressionFollowEmpty []]
  let call : ParseTree := .ofRule .idFactorCall
    [.ofWord (.lparen, "("), .ofRule .args [.ofRule .argList [alone (name "c" plain),
      .ofRule .argListFollow [.ofWord (.comma, ","), alone (number "2"), .ofRule .argListFollowEmpty []]]],
      .ofWord (.rparen, ")")]
  let element : ParseTree := .ofRule .idFactorVar
    [.ofRule .varFollowIndex [.ofWord (.lbracket, "["), alone (number "1"), .ofWord (.rbracket, "]")]]
  let times : ParseTree := .ofRule .term [name "b" plain, .ofRule .termFollow
    [Operator.tree .mul (.star, "*"), name "f" call, .ofRule .termFollowEmpty []]]
  let inner : ParseTree := .ofRule .additiveExpr [product (name "d" plain), .ofRule .additiveFollow
    [Operator.tree .add (.plus, "+"), product (name "x" element), .ofRule .additiveFollowEmpty []]]
  let group : ParseTree := .ofRule .factorParen [.ofWord (.lparen, "("),
    .ofRule .expression [inner, .ofRule .expressionFollowEmpty []], .ofWord (.rparen, ")")]
  let difference : ParseTree := .ofRule .additiveExpr [product (name "a" plain), .ofRule .additiveFollow
    [Operator.tree .sub (.minus, "-"), times, .ofRule .additiveFollow
      [Operator.tree .sub (.minus, "-"), product group, .ofRule .additiveFollowEmpty []]]]
  .ofRule .expression [difference, .ofRule .expressionFollow [Operator.tree .lt (.lt, "<"), sum (product (number "3"))]]

def Language.nestedChainsCode : List Instruction :=
  [.param "c", .param "2", .call "f" 2, .result "_v0", .binary "_v1" "b" .mul "_v0", .load "_v2" "x" "1",
    .binary "_v3" "d" .add "_v2", .binary "_v4" "a" .sub "_v1", .binary "_v5" "_v4" .sub "_v3",
    .binary "_v6" "_v5" .lt "3"]

theorem expression_code_decompiles_nestedChains :
    Language.nestedChains.conforms Language.grammar = true ∧
      (Walk.ofTree Language.nestedChains {} .start).1.code = Language.nestedChainsCode ∧
      ∃ formula used, decompile Language.nestedChainsCode "_v6" = some (formula, used) ∧
        (∀ other, Reads .comparison Language.nestedChains.words other ↔ other = formula) ∧
        List.Perm used (List.range 10) := by
  have conforming : Language.nestedChains.conforms Language.grammar = true := by
    rw [Tree.conforms_iff]
    decide +kernel
  have valued : Language.nestedChains.HasValue := ⟨conforming, .inl (.inl rfl)⟩
  have plain : ∀ label ∈ Language.nestedChains.leafLabels, ∀ lexeme ∈ label.lexeme, isTemporary lexeme = false := by
    decide +kernel
  have code : (Walk.ofTree Language.nestedChains {} .start).1.code = Language.nestedChainsCode := by
    rw [valued.ofTree]
    decide +kernel
  have place : (Walk.ofTree Language.nestedChains {} .start).1.place = "_v6" := by
    rw [valued.ofTree]
    decide +kernel
  obtain ⟨⟨formula, used, found, reading, perm⟩, _⟩ := expression_code_decompiles conforming rfl plain {} .start
  rw [code, place] at found
  rw [code] at perm
  exact ⟨conforming, code, formula, used, found, reading, perm⟩

end Minuscule
