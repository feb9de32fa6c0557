import Minuscule.Proofs.Reading

/-!
The tree of a function around its code-block. In a program that is parsed each function has the tokens in front of its
code-block and those behind it, and two programs with the same tokens there are read as the same program, but for what
is read in the code-blocks.
-/

namespace Minuscule

theorem Rule.eq_funDefineFollow {rule : Rule} {first second third : Sign Terminal NonTerminal}
    (right : rule.production.right = [first, second, third, .nonTerminal .codeBlock]) : rule = .funDefineFollow := by
  cases rule <;> first | rfl | cases right

theorem Rule.eq_defineTypeFun {rule : Rule} (right : rule.production.right = [.nonTerminal .funDefineFollow]) :
    rule = .defineTypeFun := by
  cases rule <;> first | rfl | cases right

/-- A node with children is a rule's. -/
theorem Language.expansion_of_cons {label : Label Terminal NonTerminal} {first : ParseTree} {rest : List ParseTree}
    (conforming : (Tree.node label (first :: rest)).conforms grammar = true) :
    ∃ rule, label.sign = .nonTerminal (Rule.production rule).left ∧
      Phrase.ofTree (.node label (first :: rest)) = Phrase.ofRule rule ((first :: rest).map Phrase.ofTree) ∧
      (first :: rest).map Tree.sign = rule.production.right ∧
      ∀ child ∈ first :: rest, child.conforms grammar = true := by
  rcases conforms_cases conforming with ⟨_, _, none⟩ | ⟨rule, signed, known, right, below⟩
  · cases none
  · exact ⟨rule, signed, Phrase.ofTree_rule signed known _, right.symm, below⟩

namespace Tree

/-- The tokens of a function definition in front of its code-block, and the code-block. -/
def function? : ParseTree → Option (List (Label Terminal NonTerminal) × ParseTree)
  | .node _ [type, name, .node _ [.node _ [opening, params, closing, block]]] =>
    if block.sign = .nonTerminal .codeBlock then
      some ([type, name, opening, params, closing].flatMap leafLabels, block)
    else none
  | _ => none

/-- The tokens in front of the code-block of a function, which is found by the place of its definition, and the tokens
behind it. -/
def outside? (tree : ParseTree) (place : Nat) :
    Option (List (Label Terminal NonTerminal) × List (Label Terminal NonTerminal)) :=
  (tree.definitions[place]?.bind function?).map fun function =>
    ((tree.definitions.take place).flatMap leafLabels ++ function.1,
      (tree.definitions.drop (place + 1)).flatMap leafLabels)

def emptyBlock : ParseTree :=
  let leaf (kind : Terminal) (lexeme : String) : ParseTree := .node ⟨.terminal kind, none, some lexeme, 1⟩ []
  ofRule .codeBlock [leaf .lbrace "\x7b", ofRule .localDefineListEmpty [], ofRule .codeListEmpty [],
    leaf .rbrace "\x7d"]

theorem conforms_emptyBlock : emptyBlock.conforms Language.grammar = true := by
  apply conforms_ofRule rfl
  simp only [List.forall_mem_cons]
  exact ⟨conforms_leaf rfl rfl, conforms_ofRule rfl (by simp), conforms_ofRule rfl (by simp), conforms_leaf rfl rfl,
    by simp⟩

section Function
variable (type name opening params closing block : ParseTree)

/-- The tree of a function definition from its parts. -/
def ofFunction : ParseTree :=
  ofRule .define
    [type, name, ofRule .defineTypeFun [ofRule .funDefineFollow [opening, params, closing, block]]]

theorem leafLabels_ofFunction :
    (ofFunction type name opening params closing block).leafLabels =
      [type, name, opening, params, closing].flatMap leafLabels ++ block.leafLabels := by
  simp only [ofFunction, leafLabels_ofRule, List.flatMap_cons, List.flatMap_nil, List.append_nil, List.append_assoc]

theorem definition_ofFunction :
    Definition.ofTree (ofFunction type name opening params closing block) =
      ⟨⟨(Phrase.ofTree name).occurrence, (Phrase.ofTree type).type⟩,
        .function (Phrase.ofTree params).params (Phrase.ofTree block).locals (Phrase.ofTree block).statement⟩ := by
  rw [Definition.ofTree, ofFunction, Phrase.ofTree_ofRule]
  change Definition.mk _ (Phrase.ofTree (ofRule .defineTypeFun _)).form = _
  rw [Phrase.ofTree_ofRule]
  change Definition.mk _ (Phrase.ofTree (ofRule .funDefineFollow _)).form = _
  rw [Phrase.ofTree_ofRule]
  rfl

variable {type name opening params closing block}

theorem defines_ofFunction (outer : [type, name].map sign = [.nonTerminal .type, .terminal .ident])
    (inner : [opening, params, closing, block].map sign = Rule.funDefineFollow.production.right)
    (conforming : ∀ child ∈ [type, name, opening, params, closing, block], child.conforms Language.grammar = true) :
    (ofFunction type name opening params closing block).Defines := by
  simp only [List.forall_mem_cons] at conforming
  obtain ⟨first, second, third, fourth, fifth, sixth, _⟩ := conforming
  have last : (ofRule .funDefineFollow [opening, params, closing, block]).conforms Language.grammar = true :=
    conforms_ofRule inner (by simp [third, fourth, fifth, sixth])
  have middle : (ofRule .defineTypeFun [ofRule .funDefineFollow [opening, params, closing, block]]).conforms
      Language.grammar = true :=
    conforms_ofRule rfl (by simp [last])
  refine ⟨rfl, conforms_ofRule ?_ (by simp [first, second, middle])⟩
  exact congrArg (· ++ [.nonTerminal .defineType]) outer

end Function

/-- A function definition and, with the same heading, the definition whose body is empty. -/
theorem function_cases {definition block : ParseTree} {heading : List (Label Terminal NonTerminal)}
    (defines : definition.Defines) (function : definition.function? = some (heading, block)) :
    ∃ declarator params locals body, Definition.ofTree definition = ⟨declarator, .function params locals body⟩ ∧
      ∃ hollow : ParseTree, hollow.Defines ∧ hollow.leafLabels = heading ++ emptyBlock.leafLabels ∧
        Definition.ofTree hollow = ⟨declarator, .function params [] .skip⟩ := by
  unfold function? at function
  split at function
  · next own type name outer inner opening params closing block' =>
    split at function
    · next blocked =>
      cases function
      obtain ⟨rule, left, _, phrase, signs, below⟩ := Language.expansion defines.conforming defines.signed
      obtain rfl := Rule.eq_define left
      simp only [List.forall_mem_cons] at below
      obtain ⟨typed, named, follow, _⟩ := below
      obtain ⟨middle, _, phrase', signs', below'⟩ := Language.expansion_of_cons follow
      obtain ⟨last, sort, phrase'', signs'', below''⟩ := Language.expansion_of_cons (below' _ (List.mem_singleton_self _))
      have around : [opening, params, closing, block].map sign = [opening, params, closing, emptyBlock].map sign := by
        simp only [List.map_cons, List.map_nil, blocked]
        rfl
      obtain rfl : last = .funDefineFollow := Rule.eq_funDefineFollow (signs''.symm.trans around)
      obtain rfl : middle = .defineTypeFun :=
        Rule.eq_defineTypeFun (signs'.symm.trans (congrArg (fun sign => [sign]) sort))
      refine ⟨⟨(Phrase.ofTree name).occurrence, (Phrase.ofTree type).type⟩, (Phrase.ofTree params).params,
        (Phrase.ofTree block).locals, (Phrase.ofTree block).statement, ?_,
        ofFunction type name opening params closing emptyBlock, ?_, leafLabels_ofFunction .., ?_⟩
      · rw [Definition.ofTree, phrase]
        change Definition.mk _ (Phrase.ofTree (.node outer _)).form = _
        rw [phrase']
        change Definition.mk _ (Phrase.ofTree (.node inner _)).form = _
        rw [phrase'']
        rfl
      · apply defines_ofFunction (congrArg (List.take 2) signs) (around.symm.trans signs'')
        simp only [List.forall_mem_cons] at below'' ⊢
        exact ⟨typed, named, below''.1, below''.2.1, below''.2.2.1, conforms_emptyBlock, by simp⟩
      · rw [definition_ofFunction, emptyBlock, Phrase.ofTree_ofRule]
        rfl
    · cases function
  · cases function

/-- The tokens of a function are those of its heading and those of its code-block. -/
theorem function?_of_functionName? {definition : ParseTree} (defines : definition.Defines) {function : String}
    (named : definition.functionName? = some function) :
    ∃ heading block, definition.function? = some (heading, block) ∧ block.sign = .nonTerminal .codeBlock ∧
      definition.leafLabels = heading ++ block.leafLabels := by
  obtain ⟨own, children⟩ := definition
  obtain ⟨signed, conforming⟩ := defines
  obtain ⟨rule, left, _, _, right, below⟩ := Language.expansion conforming signed
  rw [Rule.eq_define left] at right
  obtain ⟨type, _, rfl, _, right⟩ := List.map_eq_cons_iff.mp right
  obtain ⟨name, _, rfl, _, right⟩ := List.map_eq_cons_iff.mp right
  obtain ⟨⟨outer, inside⟩, rfl, sort⟩ := List.map_eq_singleton_iff.mp right
  obtain ⟨middle, _, known, _, right, below⟩ := Language.expansion (below (.node outer inside) (by simp)) sort
  change (if outer.production.bind Rule.ofIndex? = some .defineTypeFun then some name.lexeme else none) = _ at named
  rw [known] at named
  obtain rfl : middle = .defineTypeFun := by
    by_contra other
    rw [if_neg (by simpa using other)] at named
    cases named
  obtain ⟨⟨inner, parts⟩, rfl, sort'⟩ := List.map_eq_singleton_iff.mp right
  obtain ⟨last, left, _, _, right, _⟩ := Language.expansion (below (.node inner parts) (by simp)) sort'
  obtain rfl : last = .funDefineFollow := by
    cases last <;> first | rfl | cases left
  obtain ⟨opening, _, rfl, _, right⟩ := List.map_eq_cons_iff.mp right
  obtain ⟨params, _, rfl, _, right⟩ := List.map_eq_cons_iff.mp right
  obtain ⟨closing, _, rfl, _, right⟩ := List.map_eq_cons_iff.mp right
  obtain ⟨block, rfl, blocked⟩ := List.map_eq_singleton_iff.mp right
  refine ⟨_, block, if_pos blocked, blocked, ?_⟩
  have bare : own.sign.isTerminal = false ∧ outer.sign.isTerminal = false ∧ inner.sign.isTerminal = false := by
    refine ⟨?_, ?_, ?_⟩
    · exact congrArg Sign.isTerminal signed
    · exact congrArg Sign.isTerminal sort
    · exact congrArg Sign.isTerminal sort'
  simp [leafLabels_node, bare]

theorem definitions_around {tree definition : ParseTree} {place : Nat}
    (present : tree.definitions[place]? = some definition) :
    tree.definitions = tree.definitions.take place ++ definition :: tree.definitions.drop (place + 1) := by
  obtain ⟨inside, same⟩ := List.getElem?_eq_some_iff.mp present
  rw [← same, ← List.drop_eq_getElem_cons inside, List.take_append_drop]

theorem outside?_eq_some {tree : ParseTree} {place : Nat} {front back : List (Label Terminal NonTerminal)}
    (around : tree.outside? place = some (front, back)) :
    ∃ before definition after heading block, tree.definitions = before ++ definition :: after ∧ before.length = place ∧
      definition.function? = some (heading, block) ∧ front = before.flatMap leafLabels ++ heading ∧
      back = after.flatMap leafLabels := by
  obtain ⟨⟨heading, block⟩, found, sides⟩ := Option.map_eq_some_iff.mp around
  obtain ⟨definition, present, function⟩ := Option.bind_eq_some_iff.mp found
  obtain ⟨inside, _⟩ := List.getElem?_eq_some_iff.mp present
  obtain ⟨rfl, rfl⟩ := Prod.mk.inj sides
  exact ⟨_, definition, _, heading, block, definitions_around present, List.length_take_of_le (Nat.le_of_lt inside),
    function, rfl, rfl⟩

/-- Every function of a program has tokens around its code-block. -/
theorem outside?_of_functionName? {tree : ParseTree} (conforming : tree.conforms Language.grammar = true)
    (rooted : tree.sign = .nonTerminal .program) {place : Nat} {definition : ParseTree} {function : String}
    (present : tree.definitions[place]? = some definition) (named : definition.functionName? = some function) :
    ∃ (front : List (Label Terminal NonTerminal)) (block : ParseTree) (back : List (Label Terminal NonTerminal)),
      tree.outside? place = some (front, back) ∧ block.sign = .nonTerminal .codeBlock ∧
        tree.leafLabels = front ++ block.leafLabels ++ back := by
  have defines := defines_of_mem conforming definition (List.mem_of_getElem? present)
  obtain ⟨heading, block, found, blocked, labels⟩ := function?_of_functionName? defines named
  refine ⟨_, block, _, by rw [outside?, present, Option.bind_some, found, Option.map_some], blocked, ?_⟩
  calc tree.leafLabels
      = tree.definitions.flatMap leafLabels := (leafLabels_definitions conforming (.inl rooted)).symm
    _ = (tree.definitions.take place ++ definition :: tree.definitions.drop (place + 1)).flatMap leafLabels := by
      rw [← definitions_around present]
    _ = _ := by
      rw [List.flatMap_append, List.flatMap_cons, labels]
      simp only [List.append_assoc]

end Tree

section Around
variable {tree tree' : ParseTree} (conforming : tree.conforms Language.grammar = true)
  (rooted : tree.sign = .nonTerminal .program) (conforming' : tree'.conforms Language.grammar = true)
  (rooted' : tree'.sign = .nonTerminal .program)
include conforming rooted conforming' rooted'

/-- With the same tokens around a code-block the programs are the same but for the body. In front of the block, both
rows of definitions end in the same heading. -/
theorem Program.ofTree_outside {place place' : Nat} {sides : List (Label Terminal NonTerminal) × _}
    (around : tree.outside? place = some sides) (around' : tree'.outside? place' = some sides) :
    ∃ (before after : Program) (declarator : Declarator) (params : List Parameter) (locals locals' : List Declaration)
      (body body' : Statement), before.length = place ∧ place' = place ∧
      Program.ofTree tree = before ++ ⟨declarator, .function params locals body⟩ :: after ∧
      Program.ofTree tree' = before ++ ⟨declarator, .function params locals' body'⟩ :: after := by
  obtain ⟨front, back⟩ := sides
  obtain ⟨before, definition, after, heading, block, split, rfl, function, rfl, rfl⟩ := Tree.outside?_eq_some around
  obtain ⟨before', definition', after', heading', block', split', rfl, function', same, behind⟩ :=
    Tree.outside?_eq_some around'
  have each := Tree.defines_of_mem conforming
  have each' := Tree.defines_of_mem conforming'
  rw [split, List.forall_mem_append, List.forall_mem_cons] at each
  rw [split', List.forall_mem_append, List.forall_mem_cons] at each'
  obtain ⟨early, here, late⟩ := each
  obtain ⟨early', here', late'⟩ := each'
  obtain ⟨declarator, params, locals, body, read, hollow, defines, labels, hollowed⟩ := Tree.function_cases here function
  obtain ⟨declarator', params', locals', body', read', hollow', defines', labels', hollowed'⟩ :=
    Tree.function_cases here' function'
  have fronts : (before ++ [hollow]).map Definition.ofTree = (before' ++ [hollow']).map Definition.ofTree := by
    apply Definition.ofTree_unique
    · exact List.forall_mem_append.mpr ⟨early, List.forall_mem_singleton.mpr defines⟩
    · exact List.forall_mem_append.mpr ⟨early', List.forall_mem_singleton.mpr defines'⟩
    · rw [List.flatMap_append, List.flatMap_append, List.flatMap_singleton, List.flatMap_singleton, labels, labels',
        ← List.append_assoc, ← List.append_assoc, same]
  have backs := Definition.ofTree_unique late late' behind
  rw [List.map_append, List.map_append, List.map_singleton, List.map_singleton, hollowed, hollowed'] at fronts
  obtain ⟨first, last⟩ := List.append_inj' fronts rfl
  cases last
  refine ⟨before.map Definition.ofTree, after.map Definition.ofTree, declarator, params, locals, locals', body, body',
    List.length_map _, ?_, ?_, ?_⟩
  · have lengths := congrArg List.length first
    rw [List.length_map, List.length_map] at lengths
    exact lengths.symm
  · rw [Program.ofTree_eq_map conforming rooted, split, List.map_append, List.map_cons, read]
  · rw [Program.ofTree_eq_map conforming' rooted', split', List.map_append, List.map_cons, read', first, backs]

end Around

end Minuscule
