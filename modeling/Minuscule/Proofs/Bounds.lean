import Minuscule.Proofs.Deletion
import Minuscule.Proofs.Uses

/-!
Literal subscripts. A subscript is a literal if its words are a number in any number of parentheses; then the number
travels through all nodes of the subscript to the check. The errors about bounds are those of the accesses to elements,
one after the other. An access has one if its name stands for an array with a length, its subscript is a literal, and
the value is at least the length and still a signed number of 64 bits: a larger literal is not checked.
-/

namespace Minuscule

/-! Literals. -/

/-- A number in any number of parentheses. -/
inductive Literal (text : String) : List Word → Prop
  | number : Literal text [(.num, text)]
  | parens {opening closing : String} {inner : List Word} (inside : Literal text inner) :
    Literal text ((.lparen, opening) :: inner ++ [(.rparen, closing)])

namespace Literal
variable {text : String} {words : List Word}

theorem plain (literal : Literal text words) :
    ∀ word ∈ words, word.1 = .num ∨ word.1 = .lparen ∨ word.1 = .rparen := by
  induction literal with
  | number => simp
  | parens inside ih =>
    rw [List.cons_append, List.forall_mem_cons, List.forall_mem_append, List.forall_mem_singleton]
    exact ⟨.inr (.inl rfl), ih, .inr (.inr rfl)⟩

theorem mem (literal : Literal text words) : (.num, text) ∈ words := by
  induction literal with
  | number => exact List.mem_singleton_self _
  | parens inside ih => exact List.mem_cons_of_mem _ (List.mem_append_left _ ih)

theorem number_iff {other : String} : Literal text [(.num, other)] ↔ other = text := by
  refine ⟨fun literal => ?_, fun same => same ▸ .number⟩
  cases List.mem_singleton.mp literal.mem
  rfl

theorem parens_iff {opening closing : String} :
    Literal text ((.lparen, opening) :: words ++ [(.rparen, closing)]) ↔ Literal text words := by
  refine ⟨fun literal => ?_, .parens⟩
  generalize same : (Terminal.lparen, opening) :: words ++ [(Terminal.rparen, closing)] = whole at literal
  cases literal with
  | number => cases same
  | parens inside =>
    rw [List.cons_append, List.cons_append] at same
    injection same with _ rest
    obtain ⟨rfl, _⟩ := List.append_inj' rest rfl
    exact inside

end Literal

/-- A chain with an operator in it is no literal. -/
theorem Expression.literal?_ofLinks (head : Expression) {links : Links} (some : links ≠ .nil) :
    (ofLinks head links).literal? = none := by
  cases links with
  | nil => exact absurd rfl some
  | cons => rfl

theorem Tree.exists_operator {label : Label Terminal NonTerminal} {children : List ParseTree} {child : ParseTree}
    {operator : Operator} (known : child.operator? = some operator) (member : child ∈ children) :
    ∃ word ∈ words (node label children), word.1.operator? ≠ none := by
  obtain ⟨word, first, found⟩ := Option.bind_eq_some_iff.mp known
  refine ⟨word, ?_, by simp [found]⟩
  rw [words_node]
  exact List.mem_append_right _ (List.mem_flatMap.mpr ⟨child, member, List.mem_of_head? first⟩)

theorem Tree.words_of_sign {label : Label Terminal NonTerminal} {kind : NonTerminal}
    (signed : label.sign = .nonTerminal kind) (children : List ParseTree) :
    words (node label children) = children.flatMap words := by
  rw [words_node, Label.word?, signed]
  rfl

theorem Tree.words_terminal {tree : ParseTree} {kind : Terminal} (conforming : tree.conforms Language.grammar = true)
    (signed : tree.sign = .terminal kind) : tree.words = [(kind, (Phrase.ofTree tree).lexeme)] := by
  have reading := Phrase.reads_ofTree tree conforming
  rw [signed] at reading
  exact reading

namespace Phrase

/-- What follows the first operand of a chain is empty, or there is an operator among its words. -/
theorem follow_cases {tree : ParseTree} {kind : NonTerminal} (conforming : tree.conforms Language.grammar = true)
    (signed : tree.sign = .nonTerminal kind)
    (follows : kind = .expressionFollow ∨ kind = .additiveExprFollow ∨ kind = .termFollow) :
    (tree.words = [] ∧ (ofTree tree).follow kind = .nil) ∨
      ((∃ word ∈ tree.words, word.1.operator? ≠ none) ∧ (ofTree tree).follow kind ≠ .nil) := by
  obtain ⟨label, children⟩ := tree
  obtain ⟨rule, rfl, _, phrase, right, below⟩ := Language.expansion conforming signed
  rw [phrase]
  cases rule
  case additiveFollow | termFollow | expressionFollow =>
    obtain ⟨operator, _, rfl, first, _⟩ := List.map_eq_cons_iff.mp right
    have known := operator?_ofTree (below operator (by simp)) (by simp [first])
    exact .inr ⟨Tree.exists_operator known (by simp), fun same => by cases same⟩
  case additiveFollowEmpty | termFollowEmpty | expressionFollowEmpty =>
    cases List.map_eq_nil_iff.mp right
    exact .inl ⟨Tree.words_of_sign signed [], rfl⟩
  all_goals simp [Rule.production] at follows

end Phrase

theorem Literal.operator?_eq_none {text : String} {words : List Word} (literal : Literal text words) {word : Word}
    (member : word ∈ words) : word.1.operator? = none := by
  rcases literal.plain word member with kind | kind | kind <;> rw [kind] <;> rfl

/-- The words of a tree with a value are a literal if and only if its expression is one. -/
theorem Tree.HasValue.literal_iff {tree : ParseTree} (valued : tree.HasValue) (text : String) :
    Literal text tree.words ↔ (Expression.ofTree tree).literal? = some text := by
  induction tree using Tree.by_children with
  | node label children ih =>
    obtain ⟨kind, signed, sort⟩ : ∃ kind, label.sign = .nonTerminal kind ∧
        (kind = .expression ∨ kind = .additiveExpr ∨ kind = .term ∨ kind = .factor) := by
      rcases valued.signed with (signed | signed | signed) | signed <;> exact ⟨_, signed, by simp⟩
    obtain ⟨rule, rfl, _, phrase, right, below⟩ := Language.expansion valued.conforming signed
    rw [words_of_sign signed, Expression.ofTree, phrase]
    cases rule
    case expression | additiveExpr | term =>
      obtain ⟨first, rest, rfl, front, back⟩ := map_eq_pair right
      have head := ih first (by simp) ⟨below first (by simp), by simp [IsChain, front]⟩
      have cases := Phrase.follow_cases (below rest (by simp)) back (by simp)
      simp only [Phrase.ofRule, List.map_cons, List.map_nil, List.getD_cons_zero, List.getD_cons_succ,
        Expression.ofRelation_eq, List.flatMap_cons, List.flatMap_nil, List.append_nil]
      rcases cases with ⟨words, links⟩ | ⟨⟨word, member, known⟩, links⟩
      · simp only [Phrase.follow] at links
        rw [words, List.append_nil, links]
        exact head
      · simp only [Phrase.follow] at links
        rw [Expression.literal?_ofLinks _ links]
        refine ⟨fun literal => ?_, fun same => by cases same⟩
        exact absurd (literal.operator?_eq_none (List.mem_append_right _ member)) known
    case factorParen =>
      obtain ⟨opening, value, closing, rfl, first, second, third⟩ := map_eq_triple right
      have inside := ih value (by simp) ⟨below value (by simp), by simp [IsChain, second]⟩
      rw [List.flatMap_cons, List.flatMap_cons, List.flatMap_singleton, words_terminal (below opening (by simp)) first,
        words_terminal (below closing (by simp)) third]
      exact Literal.parens_iff.trans inside
    case factorId =>
      obtain ⟨name, _, rfl, first, right⟩ := List.map_eq_cons_iff.mp right
      have plain : ∀ access : Access, (access.expression (Phrase.ofTree name).occurrence).literal? = none := by
        intro access
        cases access <;> rfl
      refine ⟨fun literal => ?_, fun same => by cases (plain _).symm.trans same⟩
      rw [List.flatMap_cons, words_terminal (below name (by simp)) first] at literal
      rcases literal.plain _ (List.mem_cons_self ..) with other | other | other <;> cases other
    case factorNum =>
      obtain ⟨number, _, rfl, first, right⟩ := List.map_eq_cons_iff.mp right
      cases List.map_eq_nil_iff.mp right
      rw [List.flatMap_singleton, words_terminal (below number (by simp)) first]
      exact Literal.number_iff.trans Option.some_inj.symm
    all_goals simp [Rule.production] at sort

/-! Errors about bounds. -/

def SemanticError.isAboutBounds (error : SemanticError) : Bool :=
  match error.cause with
  | .indexOutOfBounds .. => true
  | _ => false

def boundsErrors (errors : List SemanticError) : List SemanticError :=
  errors.filter SemanticError.isAboutBounds

theorem boundsErrors_append (errors more : List SemanticError) :
    boundsErrors (errors ++ more) = boundsErrors errors ++ boundsErrors more :=
  List.filter_append errors more

theorem boundsErrors_faultsAll {A : Type} {after : Symbols → A → Symbols}
    {faults : Symbols → A → List SemanticError} (none : ∀ symbols item, boundsErrors (faults symbols item) = [])
    (symbols : Symbols) (items : List A) : boundsErrors (faultsAll after faults symbols items) = [] := by
  induction items generalizing symbols with
  | nil => rfl
  | cons item rest ih => rw [faultsAll, boundsErrors_append, none, ih, List.append_nil]

theorem Symbols.boundsErrors_functionFaults (symbols : Symbols) (declarator : Declarator) (params : List Parameter) :
    boundsErrors (symbols.functionFaults declarator params) = [] := by
  unfold functionFaults
  split <;> rfl

theorem Parameter.boundsErrors_faults (scope : Scope) (symbols : Symbols) (parameter : Parameter) :
    boundsErrors (parameter.faults scope symbols) = [] := by
  unfold faults
  split <;> rfl

theorem Symbols.boundsErrors_entryFaults (symbols : Symbols) (scope : Scope) (subject : Occurrence)
    (kind : VariableKind) : boundsErrors (symbols.entryFaults scope subject kind) = [] := by
  unfold entryFaults
  split <;> rfl

theorem Declaration.boundsErrors_faults (scope : Scope) (symbols : Symbols) (declaration : Declaration) :
    boundsErrors (declaration.faults scope symbols) = [] := by
  unfold faults
  split
  · rfl
  · split
    · exact symbols.boundsErrors_entryFaults _ _ _
    · rfl

/-- The error of an access to an element with the given value of the subscript, if there is one. -/
def boundsReport (entry : Option Variable) (use : Occurrence) (constant : Option Int) : List SemanticError :=
  match entry.bind (·.kind.length?), constant with
  | some length, some index =>
    if Action.outOfBounds index length then [⟨.indexOutOfBounds use.name index length, use.line⟩] else []
  | _, _ => []

theorem Symbols.boundsErrors_elementFaults (symbols : Symbols) (scope : Scope) (use : Occurrence)
    (constant : Option Int) :
    boundsErrors (symbols.elementFaults scope use constant) =
      boundsReport (symbols.resolve? scope use.name) use constant := by
  unfold elementFaults boundsReport
  rcases symbols.resolve? scope use.name with _ | ⟨name, _ | length | isArray, width, offset⟩
  · rfl
  · rfl
  · cases constant with
    | none => rfl
    | some index =>
      by_cases outside : Action.outOfBounds index length = true
      · simp [VariableKind.isArray, VariableKind.length?, outside, boundsErrors, SemanticError.isAboutBounds]
      · simp [VariableKind.isArray, VariableKind.length?, outside, boundsErrors]
  · cases isArray <;> cases constant <;> rfl

/-! Accesses. -/

/-- The name and the subscript of an access to an element. -/
def Use.element? {E : Type} (use : Use E) : Option (Occurrence × E) :=
  match use.usage with
  | .element subscript => some (use.subject, subscript)
  | _ => none

def accessesOf {E : Type} (uses : List (Use E)) : List (Occurrence × E) :=
  uses.filterMap Use.element?

theorem accessesOf_map {E F : Type} (value : E → F) (uses : List (Use E)) :
    accessesOf (uses.map (Use.map value)) = (accessesOf uses).map (Prod.map id value) := by
  rw [accessesOf, accessesOf, List.filterMap_map, List.map_filterMap]
  congr 1
  funext use
  obtain ⟨subject, _ | _ | _⟩ := use <;> rfl

/-- The error of an access where names stand for what they are resolved to. -/
def reportOf (resolve : String → Option Variable) (access : Occurrence × Expression) : List SemanticError :=
  boundsReport (resolve access.1.name) access.1 access.2.constant?

theorem boundsErrors_uses (symbols : Symbols) (scope : Scope) (uses : List (Use Expression)) :
    boundsErrors (uses.flatMap (Use.faults symbols scope)) =
      (accessesOf uses).flatMap (reportOf (symbols.resolve? scope)) := by
  induction uses with
  | nil => rfl
  | cons use rest ih =>
    rw [List.flatMap_cons, boundsErrors_append, ih]
    obtain ⟨subject, _ | index | arguments⟩ := use
    · have none : boundsErrors (symbols.variableFaults scope subject) = [] := by
        unfold Symbols.variableFaults
        split <;> rfl
      exact congrArg (· ++ _) none
    · exact congrArg (· ++ _) (symbols.boundsErrors_elementFaults scope subject index.constant?)
    · have none : boundsErrors (symbols.callFaults subject arguments.length) = [] := by
        unfold Symbols.callFaults
        split
        · rfl
        · split <;> rfl
      exact congrArg (· ++ _) none

/-- What a name stands for in the body of a function. -/
def Definition.resolve? (symbols : Symbols) : Definition → String → Option Variable
  | ⟨_, .datum _⟩, _ => none
  | ⟨declarator, .function params locals _⟩, name =>
    (bodySymbols symbols declarator params locals).resolve? (.local symbols.locals.size) name

theorem Definition.boundsErrors_faults (definition : Definition) (symbols : Symbols) :
    boundsErrors (definition.faults symbols) =
      (accessesOf definition.form.uses).flatMap (reportOf (definition.resolve? symbols)) := by
  obtain ⟨declarator, length | ⟨params, locals, body⟩⟩ := definition
  · exact Declaration.boundsErrors_faults _ _ _
  · rw [faults, boundsErrors_append, boundsErrors_append, boundsErrors_append, symbols.boundsErrors_functionFaults,
      boundsErrors_faultsAll (Parameter.boundsErrors_faults _),
      boundsErrors_faultsAll (Declaration.boundsErrors_faults _), body.faults_eq_flatMap, boundsErrors_uses]
    rfl

/-! Accesses in trees. -/

namespace Tree

/-- The accesses to elements in a tree, those in the subscript of an access in front of it. -/
def accesses (tree : ParseTree) : List (Occurrence × ParseTree) :=
  accessesOf tree.uses

/-- The accesses of a program, each with the place of the definition in which it stands. -/
def accessPoints (tree : ParseTree) : List (Nat × Occurrence × ParseTree) :=
  tree.definitions.zipIdx.flatMap fun definition => definition.1.accesses.map (definition.2, ·)

theorem Defines.accesses {tree : ParseTree} (defines : tree.Defines) :
    tree.accesses.map (Prod.map id Expression.ofTree) = accessesOf (Definition.ofTree tree).form.uses := by
  rw [Tree.accesses, ← accessesOf_map, Phrase.uses_ofTree tree defines.conforming, defines.signed]
  rfl

end Tree

/-- The rules above the definitions add no uses. -/
theorem Rule.ownUses_of_isOuter {rule : Rule} (outer : rule.production.left.isOuter = true)
    (other : rule.production.left ≠ .define) :
    (∀ children, Phrase.ownUses rule children = []) ∧ ∀ sign ∈ rule.production.right, sign.isOuter = true := by
  cases rule
  case define => exact absurd rfl other
  case program | defineList | defineListEmpty => exact ⟨fun _ => rfl, by decide⟩
  all_goals cases outer

namespace Tree

/-- The uses in a program are those in its definitions. -/
theorem uses_eq_flatMap {tree : ParseTree} (conforming : tree.conforms Language.grammar = true)
    (outer : tree.sign.isOuter = true) : tree.uses = tree.definitions.flatMap uses := by
  induction tree using by_children with
  | node label children ih =>
    by_cases define : (node label children).sign = .nonTerminal .define
    · rw [definitions_define conforming define, List.flatMap_singleton]
    · change label.sign.isOuter = true at outer
      rcases Language.conforms_cases conforming with ⟨kind, signed, _⟩ | ⟨rule, signed, known, right, below⟩
      · rw [signed] at outer
        cases outer
      · have other : rule.production.left ≠ .define := fun same => define (signed.trans (congrArg _ same))
        rw [signed] at outer
        obtain ⟨none, inside⟩ := Rule.ownUses_of_isOuter outer other
        have own := (use?_ofRule known right below).1
        rw [none, List.map_eq_nil_iff] at own
        rw [uses_node, own, List.append_nil, definitions_children define, List.flatMap_assoc]
        apply List.flatMap_congr
        intro child member
        exact ih child member (below child member) (inside child.sign (right ▸ List.mem_map_of_mem member))

/-- Each access to an element is at a point. -/
theorem map_accessPoints {tree : ParseTree} (conforming : tree.conforms Language.grammar = true)
    (rooted : tree.sign = .nonTerminal .program) : tree.accessPoints.map Prod.snd = tree.accesses := by
  have outer : tree.sign.isOuter = true := by rw [rooted]; rfl
  have plain (place : Nat) (definition : ParseTree) :
      (definition.accesses.map (place, ·)).map Prod.snd = definition.accesses := by
    rw [List.map_map]
    exact List.map_id _
  calc tree.accessPoints.map Prod.snd
    _ = tree.definitions.zipIdx.flatMap fun definition => definition.1.accesses := by
      rw [accessPoints, List.map_flatMap]
      simp only [plain]
    _ = (tree.definitions.zipIdx.map Prod.fst).flatMap accesses := List.flatMap_map .. |>.symm
    _ = tree.definitions.flatMap accesses := by rw [List.zipIdx_map_fst]
    _ = tree.accesses := by
      rw [accesses, uses_eq_flatMap conforming outer, accessesOf, List.filterMap_flatMap]
      rfl

end Tree

/-- What a name stands for where the statements of the function at a place are evaluated: behind the definitions in
front of the function, its parameters and its local variables. -/
def Evaluation.resolveAt? (tree : ParseTree) (place : Nat) (name : String) : Option Variable :=
  match tree.definitions[place]?.map Definition.ofTree with
  | some ⟨declarator, .function params locals _⟩ =>
    let entered := (Action.enterFunction (some declarator) params).run
      ((contributions (tree.definitions.take place)).run .start).2
    let declared := (locals.forM (Declaration.elaborate entered.1)).run entered.2
    declared.2.symbols.resolve? entered.1 name
  | _ => none

theorem Evaluation.resolveAt?_eq {tree definition : ParseTree} {front back : List ParseTree}
    (split : tree.definitions = front ++ definition :: back) (each : ∀ tree ∈ front, tree.Defines) :
    resolveAt? tree front.length =
      (Definition.ofTree definition).resolve? (Program.after .empty (front.map Definition.ofTree)) := by
  funext name
  have symbols := (left_by_contributions each .start).1
  rw [resolveAt?, split, getElem?_middle, Option.map_some, List.take_left]
  generalize Definition.ofTree definition = own
  obtain ⟨declarator, length | ⟨params, locals, body⟩⟩ := own
  · rfl
  · dsimp only
    rw [run_enterFunction, run_forM _ _ (Declaration.run_elaborate _)]
    dsimp only [Progress.declare]
    rw [symbols]
    rfl

section Points
variable {tree : ParseTree}

/-- The error of an access at its place. -/
def Evaluation.reportAt (tree : ParseTree) (point : Nat × Occurrence × ParseTree) : List SemanticError :=
  reportOf (resolveAt? tree point.1) (Prod.map id Expression.ofTree point.2)

/-- The errors about bounds of the definitions from a place on. -/
theorem Evaluation.boundsErrors_faults {front back : List ParseTree} (split : tree.definitions = front ++ back)
    (each : ∀ definition ∈ tree.definitions, definition.Defines) :
    boundsErrors (Program.faults (Program.after .empty (front.map Definition.ofTree)) (back.map Definition.ofTree)) =
      (back.zipIdx front.length).flatMap fun definition =>
        definition.1.accesses.flatMap fun access => reportAt tree (definition.2, access) := by
  induction back generalizing front with
  | nil => rfl
  | cons definition rest ih =>
    have own : definition.Defines := each definition (by simp [split])
    have earlier : ∀ definition ∈ front, definition.Defines := fun other member => each other (by simp [split, member])
    have later := @ih (front ++ [definition]) (by rw [split, List.append_assoc]; rfl)
    have step : Program.after .empty ((front ++ [definition]).map Definition.ofTree) =
        (Definition.ofTree definition).after (Program.after .empty (front.map Definition.ofTree)) := by
      rw [List.map_append, Program.after, List.foldl_append]
      rfl
    have here := (Definition.ofTree definition).boundsErrors_faults (Program.after .empty (front.map Definition.ofTree))
    rw [← own.accesses, ← resolveAt?_eq split earlier, List.flatMap_map] at here
    rw [step, List.length_append] at later
    rw [List.map_cons, Program.faults, faultsAll, boundsErrors_append, here, List.zipIdx_cons, List.flatMap_cons]
    exact congrArg (_ ++ ·) later

theorem Evaluation.boundsErrors_ofTree (conforming : tree.conforms Language.grammar = true)
    (rooted : tree.sign = .nonTerminal .program) :
    boundsErrors (ofTree tree).errors = (tree.accessPoints.map (reportAt tree)).flatten := by
  have errors := boundsErrors_faults (List.nil_append _).symm (Tree.defines_of_mem conforming)
  rw [ofTree_eq_program conforming rooted, Program.ofTree_eq_map conforming rooted]
  refine errors.trans ?_
  rw [← List.flatMap_def, Tree.accessPoints, List.flatMap_assoc]
  simp only [List.flatMap_map]
  rfl

end Points

/-! Literal subscripts. -/

theorem Tree.leafLabels_subset {tree part : ParseTree} (member : part ∈ tree.subtrees) :
    part.leafLabels ⊆ tree.leafLabels := by
  induction tree using Tree.by_children with
  | node label children ih =>
    rw [subtrees_node] at member
    rcases List.mem_cons.mp member with rfl | below
    · exact List.Subset.refl _
    · obtain ⟨child, present, deeper⟩ := List.mem_flatMap.mp below
      intro leaf inside
      rw [leafLabels_node]
      exact List.mem_append_right _ (List.mem_flatMap.mpr ⟨child, present, ih child present deeper inside⟩)

/-- The answer to an access whose name stands for an entry. If the entry is an array with a length and the subscript is
a literal, there is an error if the value of the literal is at least the length and still a signed number of 64 bits. In
all other cases there is none. -/
structure BoundsAnswer (entry : Option Variable) (access : Occurrence × ParseTree) (report : List SemanticError) :
    Prop where
  checked : ∀ length text, entry.map Variable.kind = some (.array length) → Literal text access.2.words →
    report = if length ≤ Numeral.value text.toList ∧ Numeral.value text.toList ≤ Numeral.signedMax then
      [⟨.indexOutOfBounds access.1.name (Numeral.value text.toList) length, access.1.line⟩] else []
  unchecked : (∀ length text, entry.map Variable.kind = some (.array length) → ¬ Literal text access.2.words) →
    report = []

theorem VariableKind.length?_eq_some {kind : VariableKind} {length : Nat} :
    kind.length? = some length ↔ kind = .array length := by
  cases kind <;> simp [length?]

theorem outOfBounds_natCast (value length : Nat) : Action.outOfBounds value length = decide (length ≤ value) := by
  have positive : ¬ (value : Int) < 0 := by omega
  simp [Action.outOfBounds, positive]

theorem boundsReport_answers {access : Occurrence × ParseTree} (valued : access.2.HasValue)
    (digits : ∀ text, Literal text access.2.words →
      Numeral.digits? text.toList = some (Numeral.value text.toList)) (entry : Option Variable) :
    BoundsAnswer entry access (boundsReport entry access.1 (Expression.ofTree access.2).constant?) where
  checked := by
    intro length text kind literal
    obtain ⟨found, rfl, array⟩ := Option.map_eq_some_iff.mp kind
    have known := VariableKind.length?_eq_some.mpr array
    rw [Expression.constant?, (valued.literal_iff text).mp literal, Option.bind_some,
      Numeral.signed?_of_digits (digits text literal)]
    by_cases room : Numeral.value text.toList ≤ Numeral.signedMax
    · simp [boundsReport, known, room, outOfBounds_natCast]
    · simp [boundsReport, room]
  unchecked := by
    intro other
    unfold boundsReport
    split
    · next length index found constant =>
      obtain ⟨entry, rfl, known⟩ := Option.bind_eq_some_iff.mp found
      obtain ⟨text, literal, _⟩ := Option.bind_eq_some_iff.mp constant
      have kind := VariableKind.length?_eq_some.mp known
      exact absurd ((valued.literal_iff text).mpr literal) (other length text (congrArg some kind))
    · rfl

theorem Tree.subscript_of_mem_accessPoints {tree : ParseTree} (conforming : tree.conforms Language.grammar = true)
    {point : Nat × Occurrence × ParseTree} (member : point ∈ tree.accessPoints) :
    point.2.2.HasValue ∧ point.2.2.leafLabels ⊆ tree.leafLabels := by
  obtain ⟨⟨definition, place⟩, indexed, inside⟩ := List.mem_flatMap.mp member
  obtain ⟨⟨use, subscript⟩, access, rfl⟩ := List.mem_map.mp inside
  have listed := List.fst_mem_of_mem_zipIdx indexed
  have defines := defines_of_mem conforming definition listed
  obtain ⟨⟨subject, usage⟩, used, found⟩ := List.mem_filterMap.mp access
  cases usage with
  | plain => cases found
  | call => cases found
  | element index =>
    cases found
    have part := hasExpression_operand defines.conforming used subscript (List.mem_singleton_self _)
    refine ⟨part.hasValue, ?_⟩
    exact List.Subset.trans (leafLabels_subset part.below) (leafLabels_subset (List.mem_filter.mp listed).1)

theorem digits?_of_literal {tokens : List (Token Terminal)}
    (numerals : ∀ token ∈ tokens, token.kind = .num →
      token.lexeme.toList ≠ [] ∧ token.lexeme.toList.all Char.isDigit = true) {part : ParseTree}
    (leaves : part.leafLabels ⊆ tokens.map (Token.label NonTerminal)) {text : String}
    (literal : Literal text part.words) :
    Numeral.digits? text.toList = some (Numeral.value text.toList) := by
  obtain ⟨label, member, spelled⟩ := List.mem_filterMap.mp literal.mem
  obtain ⟨⟨kind, lexeme, line⟩, listed, rfl⟩ := List.mem_map.mp (leaves member)
  cases spelled
  exact if_pos (numerals _ listed rfl)

/-- The answer to an access at a point, where its name stands for what is declared there. -/
def Evaluation.AnswersAt (tree : ParseTree) (point : Nat × Occurrence × ParseTree) (report : List SemanticError) :
    Prop :=
  BoundsAnswer (resolveAt? tree point.1 point.2.1.name) point.2 report

/-- The errors about bounds of a program that is parsed, with any numerals in it, are those of its accesses to elements
in their order. -/
theorem literal_subscripts_checked {tokens : List (Token Terminal)} {tree : ParseTree}
    (parsed : parseTokens tokens = .ok tree)
    (numerals : ∀ token ∈ tokens, token.kind = .num →
      token.lexeme.toList ≠ [] ∧ token.lexeme.toList.all Char.isDigit = true) :
    tree.accessPoints.map Prod.snd = tree.accesses ∧
      ∃ reports, (Evaluation.ofTree tree).errors.filter SemanticError.isAboutBounds = reports.flatten ∧
        List.Forall₂ (Evaluation.AnswersAt tree) tree.accessPoints reports := by
  obtain ⟨conforming, rooted⟩ := parseTokens_ok parsed
  refine ⟨Tree.map_accessPoints conforming rooted, tree.accessPoints.map (Evaluation.reportAt tree),
    Evaluation.boundsErrors_ofTree conforming rooted, ?_⟩
  rw [List.forall₂_map_right_iff, List.forall₂_same]
  intro point member
  obtain ⟨valued, leaves⟩ := Tree.subscript_of_mem_accessPoints conforming member
  rw [parseTokens_labels parsed] at leaves
  exact boundsReport_answers valued (fun text => digits?_of_literal numerals leaves) _

/-- Literal subscripts inside and outside the bounds, with and without parentheses, and one with an operator. -/
def subscriptTokens : List (Token Terminal) :=
  tokensOf "int a[3]; void f() \x7b int b[2]; b[((1))] = a[3]; a[(7)] = b[002] + a[1 + 2]; \x7d"

theorem literal_subscripts_checked_parentheses :
    ∃ tree reports, parseTokens subscriptTokens = .ok tree ∧
      reports.flatten = [⟨.indexOutOfBounds "a" 3 3, 1⟩, ⟨.indexOutOfBounds "b" 2 2, 1⟩,
        ⟨.indexOutOfBounds "a" 7 3, 1⟩] ∧
      List.Forall₂ (Evaluation.AnswersAt tree) tree.accessPoints reports := by
  have numerals : ∀ token ∈ subscriptTokens, token.kind = .num →
      token.lexeme.toList ≠ [] ∧ token.lexeme.toList.all Char.isDigit = true := by
    decide +kernel
  have passes : (Preview.descent 500).passes (fun program =>
      boundsErrors (program.faults .empty) = [⟨.indexOutOfBounds "a" 3 3, 1⟩, ⟨.indexOutOfBounds "b" 2 2, 1⟩,
        ⟨.indexOutOfBounds "a" 7 3, 1⟩])
      subscriptTokens = true := by
    decide +kernel
  obtain ⟨tree, parsed, passes⟩ := Preview.parseTokens_of_passes passes
  obtain ⟨conforming, rooted⟩ := parseTokens_ok parsed
  obtain ⟨_, reports, found, answers⟩ := literal_subscripts_checked parsed numerals
  rw [Evaluation.ofTree_eq_program conforming rooted] at found
  exact ⟨tree, reports, parsed, found.symm.trans (decide_eq_true_eq.mp passes), answers⟩

/-- An access of a definition with a literal is an access of the tree with one. -/
theorem Tree.exists_accessPoint {tree : ParseTree} (conforming : tree.conforms Language.grammar = true) {place : Nat}
    {definition : ParseTree} (placed : tree.definitions[place]? = some definition) {use : Occurrence} {text : String}
    (listed : (use, some text) ∈
      (accessesOf (Definition.ofTree definition).form.uses).map (Prod.map id Expression.literal?)) :
    ∃ subscript, (place, use, subscript) ∈ tree.accessPoints ∧ Literal text subscript.words := by
  have defines := defines_of_mem conforming definition (List.mem_of_getElem? placed)
  rw [← defines.accesses, List.map_map] at listed
  obtain ⟨⟨_, subscript⟩, access, same⟩ := List.mem_map.mp listed
  cases congrArg Prod.fst same
  have point : (place, use, subscript) ∈ tree.accessPoints := by
    refine List.mem_flatMap.mpr ⟨(definition, place), ?_, List.mem_map_of_mem access⟩
    exact List.mem_zipIdx_iff_getElem?.mpr placed
  have valued := (subscript_of_mem_accessPoints conforming point).1
  exact ⟨subscript, point, (valued.literal_iff text).mpr (congrArg Prod.snd same)⟩

/-- A subscript that is one too large for a signed number of 64 bits. -/
def largeSubscriptTokens : List (Token Terminal) :=
  tokensOf "int a[1]; void f() \x7b a[" ++ ⟨.num, "9223372036854775808", 1⟩ :: tokensOf "] = 0; \x7d"

/-- The literal is far outside the array, and there is no error. -/
theorem large_literal_subscript_unchecked :
    ∃ tree subscript, parseTokens largeSubscriptTokens = .ok tree ∧
      (∀ token ∈ largeSubscriptTokens, token.kind = .num →
        token.lexeme.toList ≠ [] ∧ token.lexeme.toList.all Char.isDigit = true) ∧
      (1, ⟨"a", 1⟩, subscript) ∈ tree.accessPoints ∧ Literal "9223372036854775808" subscript.words ∧
      (Evaluation.resolveAt? tree 1 "a").map Variable.kind = some (.array 1) ∧
      1 ≤ Numeral.value "9223372036854775808".toList ∧ (Evaluation.ofTree tree).errors = [] := by
  have passes : (Preview.descent 500).passes (fun program =>
      program.map (fun definition => (accessesOf definition.form.uses).map (Prod.map id Expression.literal?)) =
          [[], [(⟨"a", 1⟩, some "9223372036854775808")]] &&
        program[1]?.map (fun definition =>
          (definition.resolve? (Program.after .empty (program.take 1)) "a").map Variable.kind) =
          some (some (.array 1)) &&
        (program.faults .empty).isEmpty)
      largeSubscriptTokens = true := by
    decide +kernel
  obtain ⟨tree, parsed, passes⟩ := Preview.parseTokens_of_passes passes
  obtain ⟨conforming, rooted⟩ := parseTokens_ok parsed
  simp only [Bool.and_eq_true, decide_eq_true_eq, List.isEmpty_iff] at passes
  obtain ⟨⟨accesses, kind⟩, quiet⟩ := passes
  rw [Program.ofTree_eq_map conforming rooted] at accesses kind
  rw [List.map_map] at accesses
  obtain ⟨first, _, split, _, accesses⟩ := List.map_eq_cons_iff.mp accesses
  obtain ⟨second, _, rfl, listed, accesses⟩ := List.map_eq_cons_iff.mp accesses
  cases List.map_eq_nil_iff.mp accesses
  have placed : tree.definitions[1]? = some second := by rw [split]; rfl
  have front : ∀ definition ∈ [first], definition.Defines := by
    intro definition member
    apply Tree.defines_of_mem conforming definition
    rw [split]
    exact List.mem_cons.mpr (.inl (List.mem_singleton.mp member))
  obtain ⟨subscript, point, literal⟩ := Tree.exists_accessPoint conforming placed (listed ▸ List.mem_singleton_self _)
  refine ⟨tree, subscript, parsed, by decide +kernel, point, literal, ?_, by decide +kernel, ?_⟩
  · rw [split] at kind
    have resolved := congrFun (Evaluation.resolveAt?_eq split front) "a"
    exact (congrArg (Option.map Variable.kind) resolved).trans (Option.some.inj kind)
  · rw [Evaluation.ofTree_eq_program conforming rooted]
    exact quiet

end Minuscule
