import Minuscule.Proofs.Precedence
import Minuscule.Proofs.Reading

/-!
A row of words stands for at most one formula. To each reading there is the tree of an expression over the words, and
the grammar has at most one such tree in front of a semicolon.
-/

namespace Minuscule

def Word.label (word : Word) : Label Terminal NonTerminal :=
  ⟨.terminal word.1, none, some word.2, 1⟩

namespace Tree

def ofWord (word : Word) : ParseTree :=
  .node word.label []

/-- A conforming tree over a row of words. -/
structure Spells (tree : ParseTree) (sign : Sign Terminal NonTerminal) (words : List Word) : Prop where
  signed : tree.sign = sign
  conforming : tree.conforms Language.grammar = true
  labels : tree.leafLabels = words.map Word.label

/-- Trees side by side. -/
inductive SpellAll : List ParseTree → List (Sign Terminal NonTerminal) → List Word → Prop
  | nil : SpellAll [] [] []
  | cons {tree : ParseTree} {trees : List ParseTree} {sign : Sign Terminal NonTerminal}
    {signs : List (Sign Terminal NonTerminal)} {words others : List Word} (here : tree.Spells sign words)
    (later : SpellAll trees signs others) : SpellAll (tree :: trees) (sign :: signs) (words ++ others)

theorem spells_ofWord (kind : Terminal) (text : String) :
    (ofWord (kind, text)).Spells (.terminal kind) [(kind, text)] :=
  ⟨rfl, conforms_leaf rfl rfl, by rw [ofWord, leafLabels_node]; rfl⟩

theorem SpellAll.single {tree : ParseTree} {sign : Sign Terminal NonTerminal} {words : List Word}
    (only : tree.Spells sign words) : SpellAll [tree] [sign] words := by
  have all := SpellAll.cons only .nil
  rw [List.append_nil] at all
  exact all

theorem SpellAll.forest {trees : List ParseTree} {signs : List (Sign Terminal NonTerminal)} {words : List Word}
    (all : SpellAll trees signs words) :
    trees.map sign = signs ∧ (∀ tree ∈ trees, tree.conforms Language.grammar = true) ∧
      trees.flatMap leafLabels = words.map Word.label := by
  induction all with
  | nil => simp
  | cons here _ ih =>
    obtain ⟨right, fits, labels⟩ := ih
    refine ⟨?_, List.forall_mem_cons.mpr ⟨here.conforming, fits⟩, ?_⟩
    · rw [List.map_cons, here.signed, right]
    · rw [List.flatMap_cons, here.labels, labels, List.map_append]

theorem spells_ofRule {rule : Rule} {children : List ParseTree} {words : List Word}
    (all : SpellAll children rule.production.right words) :
    (ofRule rule children).Spells (.nonTerminal rule.production.left) words := by
  obtain ⟨right, below, labels⟩ := all.forest
  exact ⟨rfl, conforms_ofRule right below, (leafLabels_ofRule rule children).trans labels⟩

end Tree

/-! Trees of readings. -/

/-- Some tree over the words has the formula. -/
def Shown (kind : NonTerminal) (words : List Word) (formula : Formula) : Prop :=
  ∃ tree, Tree.Spells tree (.nonTerminal kind) words ∧ (Phrase.ofTree tree).expression.formula = formula

/-- With any operators and operands behind the words, some tree has the formula that goes on with them. -/
def Extends (follow whole : NonTerminal) (words : List Word) (formula : Formula) : Prop :=
  ∀ rest tail, Tree.Spells rest (.nonTerminal follow) tail →
    Shown whole (words ++ tail)
      (.group formula (Phrase.ofTree rest).links.operators (Phrase.ofTree rest).links.formulas)

def Strength.Shows (words : List Word) (formula : Formula) : Strength → Prop
  | factor => Shown .factor words formula
  | product => Extends .termFollow .term words formula
  | sum => Extends .additiveExprFollow .additiveExpr words formula
  | comparison => Shown .expression words formula

/-- Arguments, the first of them apart. -/
def ShownAll (words : List Word) : List Formula → Prop
  | [] => words = []
  | first :: rest => ∃ front back tree, words = front ++ back ∧ Shown .expression front first ∧
    Tree.Spells tree (.nonTerminal .argListFollow) back ∧ (Phrase.ofTree tree).arguments.formulas = rest

section Building
variable {words front back : List Word} {formula left right : Formula}

theorem shown_ofAccess {follow : ParseTree} (spelled : follow.Spells (.nonTerminal .idFactorFollow) words)
    (name : String) :
    Shown .factor ((.ident, name) :: words) ((Phrase.ofTree follow).access.expression ⟨name, 1⟩).formula := by
  refine ⟨.ofRule .factorId [.ofWord (.ident, name), follow], ?_, ?_⟩
  · exact Tree.spells_ofRule (.cons (Tree.spells_ofWord _ _) (.single spelled))
  · rw [Phrase.ofTree_ofRule]
    rfl

theorem Extends.product (extended : Extends .termFollow .term words formula) : Shown .term words formula := by
  have whole := extended (.ofRule .termFollowEmpty []) [] (Tree.spells_ofRule .nil)
  rw [List.append_nil] at whole
  exact whole

theorem Extends.sum (extended : Extends .additiveExprFollow .additiveExpr words formula) :
    Shown .additiveExpr words formula := by
  have whole := extended (.ofRule .additiveFollowEmpty []) [] (Tree.spells_ofRule .nil)
  rw [List.append_nil] at whole
  exact whole

theorem Shown.alone : ∀ {strength : Strength}, strength.right.Shows words formula → strength.Shows words formula
  | .factor, tight => tight
  | .product, tight => by
    obtain ⟨tree, spelled, rfl⟩ := tight
    intro rest tail behind
    refine ⟨.ofRule .term [tree, rest], Tree.spells_ofRule (.cons spelled (.single behind)), ?_⟩
    rw [Phrase.ofTree_ofRule]
    exact Expression.formula_ofLinks _ _
  | .sum, tight => by
    obtain ⟨tree, spelled, rfl⟩ := Extends.product tight
    intro rest tail behind
    refine ⟨.ofRule .additiveExpr [tree, rest], Tree.spells_ofRule (.cons spelled (.single behind)), ?_⟩
    rw [Phrase.ofTree_ofRule]
    exact Expression.formula_ofLinks _ _
  | .comparison, tight => by
    obtain ⟨tree, spelled, rfl⟩ := Extends.sum tight
    have none : Tree.Spells (.ofRule .expressionFollowEmpty []) _ _ := Tree.spells_ofRule .nil
    have all := Tree.SpellAll.cons spelled (.single none)
    rw [List.append_nil] at all
    refine ⟨.ofRule .expression [tree, .ofRule .expressionFollowEmpty []], Tree.spells_ofRule all, ?_⟩
    rw [Phrase.ofTree_ofRule]
    rfl

/-- The rule of the word of an operator. -/
def Operator.rule : Operator → Rule
  | add => .addOpPlus
  | sub => .addOpMinus
  | mul => .mulOpStar
  | div => .mulOpSlash
  | lt => .relOpLt
  | le => .relOpLe
  | gt => .relOpGt
  | ge => .relOpGe
  | eq => .relOpEq
  | ne => .relOpNe

def Operator.tree (operator : Operator) (word : Word) : ParseTree :=
  .ofRule operator.rule [.ofWord word]

theorem Operator.spells_tree {operator : Operator} {kind : Terminal} (known : kind.operator? = some operator)
    (text : String) :
    (operator.tree (kind, text)).Spells (.nonTerminal operator.rule.production.left) [(kind, text)] := by
  have right : operator.rule.production.right = [.terminal kind] := by
    cases kind <;> cases known <;> rfl
  apply Tree.spells_ofRule
  rw [right]
  exact .single (Tree.spells_ofWord kind text)

theorem Operator.operator_tree (operator : Operator) (word : Word) :
    (Phrase.ofTree (operator.tree word)).operator = operator := by
  rw [Operator.tree, Phrase.ofTree_ofRule]
  cases operator <;> rfl

theorem Shown.binary {operator : Operator} {kind : Terminal} (known : kind.operator? = some operator) (text : String)
    (first : operator.strength.left.Shows front left) (second : operator.strength.right.Shows back right) :
    operator.strength.Shows (front ++ (kind, text) :: back) (.binary operator left right) := by
  have sign := Operator.spells_tree known text
  have same := operator.operator_tree (kind, text)
  generalize operator.tree (kind, text) = symbol at sign same
  cases operator
  case mul | div =>
    obtain ⟨operand, spelled, rfl⟩ := second
    intro rest tail behind
    have whole := first (.ofRule .termFollow [symbol, operand, rest]) _
      (Tree.spells_ofRule (.cons sign (.cons spelled (.single behind))))
    rw [Phrase.ofTree_ofRule] at whole
    change Shown _ _ (.group _ ((Phrase.ofTree symbol).operator :: _) (_ :: _)) at whole
    rw [same] at whole
    rw [List.append_assoc]
    exact whole
  case add | sub =>
    obtain ⟨operand, spelled, rfl⟩ := Extends.product second
    intro rest tail behind
    have whole := first (.ofRule .additiveFollow [symbol, operand, rest]) _
      (Tree.spells_ofRule (.cons sign (.cons spelled (.single behind))))
    rw [Phrase.ofTree_ofRule] at whole
    change Shown _ _ (.group _ ((Phrase.ofTree symbol).operator :: _) (_ :: _)) at whole
    rw [same] at whole
    rw [List.append_assoc]
    exact whole
  all_goals
    obtain ⟨tree, spelled, rfl⟩ := Extends.sum first
    obtain ⟨operand, spelled', rfl⟩ := Extends.sum second
    refine ⟨.ofRule .expression [tree, .ofRule .expressionFollow [symbol, operand]], ?_, ?_⟩
    · exact Tree.spells_ofRule (.cons spelled (.single (Tree.spells_ofRule (.cons sign (.single spelled')))))
    · rw [Phrase.ofTree_ofRule]
      change Formula.binary (Phrase.ofTree symbol).operator _ _ = _
      rw [same]
      rfl

theorem ShownAll.args {formulas : List Formula} (shown : ShownAll words formulas) :
    ∃ tree, Tree.Spells tree (.nonTerminal .args) words ∧ (Phrase.ofTree tree).arguments.formulas = formulas := by
  cases formulas with
  | nil =>
    obtain rfl : words = [] := shown
    exact ⟨.ofRule .argsEmpty [], Tree.spells_ofRule .nil, rfl⟩
  | cons first rest =>
    obtain ⟨front, back, tail, rfl, ⟨head, spelled, rfl⟩, behind, rfl⟩ := shown
    have list : Tree.Spells (.ofRule .argList [head, tail]) _ _ := Tree.spells_ofRule (.cons spelled (.single behind))
    exact ⟨.ofRule .args [_], Tree.spells_ofRule (.single list), rfl⟩

end Building

mutual

theorem Reads.shows : ∀ {strength : Strength} {words : List Word} {formula : Formula}, Reads strength words formula →
    strength.Shows words formula
  | _, _, _, @Reads.number text => by
    refine ⟨.ofRule .factorNum [.ofWord (.num, text)], ?_, ?_⟩
    · exact Tree.spells_ofRule (.single (Tree.spells_ofWord _ _))
    · rw [Phrase.ofTree_ofRule]
      rfl
  | _, _, _, @Reads.name text => by
    have plain : Tree.Spells (.ofRule .varFollowEmpty []) _ _ := Tree.spells_ofRule .nil
    have follow : Tree.Spells (.ofRule .idFactorVar [_]) _ _ := Tree.spells_ofRule (.single plain)
    exact shown_ofAccess follow text
  | _, _, _, @Reads.element array opened closed _ _ inside => by
    obtain ⟨index, spelled, rfl⟩ := Reads.shows inside
    have subscript :
        Tree.Spells (.ofRule .varFollowIndex [.ofWord (.lbracket, opened), index, .ofWord (.rbracket, closed)]) _ _ :=
      Tree.spells_ofRule (.cons (Tree.spells_ofWord _ _) (.cons spelled (.single (Tree.spells_ofWord _ _))))
    have follow : Tree.Spells (.ofRule .idFactorVar [_]) _ _ := Tree.spells_ofRule (.single subscript)
    exact shown_ofAccess follow array
  | _, _, _, @Reads.call function opened closed _ _ inside => by
    obtain ⟨arguments, spelled, rfl⟩ := (ReadsAll.shown inside).args
    have follow :
        Tree.Spells (.ofRule .idFactorCall [.ofWord (.lparen, opened), arguments, .ofWord (.rparen, closed)]) _ _ :=
      Tree.spells_ofRule (.cons (Tree.spells_ofWord _ _) (.cons spelled (.single (Tree.spells_ofWord _ _))))
    exact shown_ofAccess follow function
  | _, _, _, @Reads.group opened closed _ _ inside => by
    obtain ⟨tree, spelled, rfl⟩ := Reads.shows inside
    refine ⟨.ofRule .factorParen [.ofWord (.lparen, opened), tree, .ofWord (.rparen, closed)], ?_, ?_⟩
    · exact Tree.spells_ofRule (.cons (Tree.spells_ofWord _ _) (.cons spelled (.single (Tree.spells_ofWord _ _))))
    · rw [Phrase.ofTree_ofRule]
      rfl
  | _, _, _, .alone tight => Shown.alone (Reads.shows tight)
  | _, _, _, .binary known first second => Shown.binary known _ (Reads.shows first) (Reads.shows second)

theorem ReadsAll.shown : ∀ {words : List Word} {formulas : List Formula}, ReadsAll words formulas →
    ShownAll words formulas
  | _, _, .nil => rfl
  | words, _, .single only =>
    ⟨words, [], .ofRule .argListFollowEmpty [], (List.append_nil words).symm, Reads.shows only, Tree.spells_ofRule .nil,
      rfl⟩
  | _, _, @ReadsAll.cons comma front _ _ _ _ here later => by
    obtain ⟨_, _, rest, rfl, ⟨next, spelled, rfl⟩, behind, rfl⟩ := ReadsAll.shown later
    refine ⟨front, _, .ofRule .argListFollow [.ofWord (.comma, comma), next, rest], rfl, Reads.shows here, ?_, ?_⟩
    · exact Tree.spells_ofRule (.cons (Tree.spells_ofWord _ _) (.cons spelled (.single behind)))
    · rw [Phrase.ofTree_ofRule]
      rfl

end

/-! At most one tree. -/

/-- A semicolon can stand behind an expression. -/
theorem Language.semicolon_mem_follow :
    .terminal .semicolon ∈ (Lookahead.ofGrammar parser.grammar).follow.of .expression := by
  have listed : Rule.returnValue.production ∈ parser.grammar.productions := by
    apply List.mem_of_getElem?
    rw [parser_grammar, productions_getElem?, Rule.ofIndex?_index]
    rfl
  have closed := Lookahead.closed_ofGrammar grammar_valid
  refine closed.next _ listed [] .expression [.terminal .semicolon] rfl _ ?_ nofun
  exact Lookahead.mem_firstOfAll_cons.mpr (.inl ⟨nofun, Lookahead.mem_firstOf_terminal.mpr rfl⟩)

section Unique
variable {tree other : ParseTree} {words : List Word}

theorem Tree.Spells.followed (spelled : tree.Spells (.nonTerminal .expression) words) :
    Followed (.ofGrammar Language.parser.grammar) [tree, ofWord (.semicolon, ";")] := by
  refine ⟨?_, nofun, trivial⟩
  intro kind same
  cases spelled.signed.symm.trans same
  have behind :
      front ([ofWord (.semicolon, ";")].flatMap leaves) = (.terminal .semicolon : Sign Terminal NonTerminal) := by
    rw [List.flatMap_singleton, ofWord, leaves_node]
    rfl
  rw [behind]
  exact Language.semicolon_mem_follow

/-- Expressions over the same words have the same form. -/
theorem Tree.Spells.skeleton_eq (spelled : tree.Spells (.nonTerminal .expression) words)
    (spelled' : other.Spells (.nonTerminal .expression) words) : tree.skeleton = other.skeleton := by
  have labels : tree.leafLabels = other.leafLabels := spelled.labels.trans spelled'.labels.symm
  have last := (spells_ofWord .semicolon ";").conforming
  have same := skeletons_unique (Lookahead.closed_ofGrammar Language.grammar_valid) Language.parser_built
    [tree, ofWord (.semicolon, ";")] [other, ofWord (.semicolon, ";")]
    (List.forall_mem_cons.mpr ⟨spelled.conforming, List.forall_mem_singleton.mpr last⟩)
    (List.forall_mem_cons.mpr ⟨spelled'.conforming, List.forall_mem_singleton.mpr last⟩)
    spelled.followed spelled'.followed (by simp [spelled.signed, spelled'.signed])
    (by simp [leaves_of_leafLabels labels])
  exact (List.cons.inj same).1

end Unique

/-- Words stand for at most one formula. -/
theorem Reads.unique {words : List Word} {formula other : Formula} (reading : Reads .comparison words formula)
    (reading' : Reads .comparison words other) : formula = other := by
  obtain ⟨tree, spelled, rfl⟩ := Reads.shows reading
  obtain ⟨tree', spelled', rfl⟩ := Reads.shows reading'
  have labels : tree.leafLabels = tree'.leafLabels := spelled.labels.trans spelled'.labels.symm
  have same := (Phrase.readBy tree tree' [] [] (spelled.skeleton_eq spelled') (by rw [labels])).1
  rw [same]

end Minuscule
