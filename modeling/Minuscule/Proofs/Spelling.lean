import Minuscule.Compile
import Minuscule.Proofs.Declaring
import Minuscule.Proofs.Lexemes
import Minuscule.Proofs.Parsing

/-!
The texts of names and literals. A number that the lexer reads is a numeral of at most 32 bits, and an identifier
is no numeral. The texts travel from the tokens to the leaves of the tree, and from there to the names and the
literals of the program.
-/

namespace Minuscule

namespace Numeral

/-- A numeral that the lexer reads. -/
def Small (text : List Char) : Prop :=
  digits? text = some (value text) ∧ value text ≤ Piece.largest

theorem digits?_eq_some {text : List Char} {number : Nat} (read : digits? text = some number) :
    value text = number ∧ ∀ rest sign, text = sign :: rest → sign.isDigit = true := by
  rw [digits?] at read
  split at read
  · next digits =>
    refine ⟨Option.some.inj read, ?_⟩
    rintro rest sign rfl
    exact List.all_eq_true.mp digits.2 sign (List.mem_cons_self ..)
  · cases read

theorem unsigned?_of_small {text : String} (small : Small text.toList) :
    unsigned? text = some (value text.toList) := by
  obtain ⟨read, bound⟩ := small
  have unmarked := (digits?_eq_some read).2
  have room : value text.toList ≤ unsignedMax := Nat.le_trans bound (by decide)
  unfold unsigned?
  split
  · next rest marked => exact absurd (unmarked rest '+' marked) (by decide)
  · simp [read, room]

theorem signed?_of_digits {text : String} (digits : digits? text.toList = some (value text.toList)) :
    signed? text = if value text.toList ≤ signedMax then some (value text.toList : Int) else none := by
  have unmarked := (digits?_eq_some digits).2
  unfold signed?
  split
  · next rest marked => exact absurd (unmarked rest '-' marked) (by decide)
  · next rest marked => exact absurd (unmarked rest '+' marked) (by decide)
  · by_cases room : value text.toList ≤ signedMax
    · simp [digits, room]
    · simp [digits, room, Nat.lt_of_not_le room]

theorem signed?_of_small {text : String} (small : Small text.toList) :
    signed? text = some (value text.toList : Int) := by
  obtain ⟨read, bound⟩ := small
  have room : value text.toList ≤ signedMax := Nat.le_trans bound (by decide)
  rw [signed?_of_digits read, if_pos room]

end Numeral

/-- The text of a token of this kind. -/
def Piece.Spells (kind : Terminal) (text : List Char) : Prop :=
  (kind = .num → Numeral.Small text) ∧ (kind = .ident → Numeral.digits? text = none)

namespace Piece

theorem spells_number {c : Char} {rest : List Char} {kind : Terminal} {more : Nat} (digit : c.isDigit = true)
    (scanned : number c rest = (.ok kind, more)) : Spells kind (c :: rest.take more) := by
  simp only [number] at scanned
  split at scanned
  · next small =>
    cases scanned
    rw [(take_drop_takeWhile Char.isDigit rest).1]
    refine ⟨fun _ => ⟨?_, small⟩, fun other => by cases other⟩
    have digits : (c :: rest.takeWhile Char.isDigit).all Char.isDigit = true := by
      simp [digit, List.all_takeWhile]
    rw [Numeral.digits?, if_pos ⟨List.cons_ne_nil _ _, digits⟩]
  · cases scanned

theorem ofWord_ne_num (word : String) : Terminal.ofWord word ≠ .num := by
  unfold Terminal.ofWord
  split <;> decide

theorem spells_word {c : Char} {rest : List Char} {kind : Terminal} {more : Nat} (digit : ¬c.isDigit = true)
    (scanned : word c rest = (kind, more)) : Spells kind (c :: rest.take more) := by
  have none : Numeral.digits? (c :: rest.take more) = none := by
    rw [Numeral.digits?, if_neg]
    simp [digit]
  refine ⟨?_, fun _ => none⟩
  rintro rfl
  exact absurd (congrArg Prod.fst scanned) (ofWord_ne_num _)

theorem spells_symbol {c : Char} {rest : List Char} {kind : Terminal} {more : Nat}
    (scanned : symbol c rest = (.ok kind, more)) : Spells kind (c :: rest.take more) := by
  have plain : kind ≠ .num ∧ kind ≠ .ident := by
    unfold symbol at scanned
    dsimp only at scanned
    constructor <;> rintro rfl <;> repeat' split at scanned
    all_goals cases scanned
  exact ⟨fun same => absurd same plain.1, fun same => absurd same plain.2⟩

theorem spells_scan {c : Char} {rest : List Char} {kind : Terminal} {more : Nat}
    (scanned : scan c rest = (.token kind, more)) : Spells kind (c :: rest.take more) := by
  rw [scan_eq_ite] at scanned
  split at scanned
  · cases scanned
  split at scanned
  · cases scanned
  split at scanned
  · exact absurd scanned ofGap_ne_token
  split at scanned
  · next digit => exact spells_number digit (ofLexeme_eq_token.mp scanned)
  split at scanned
  · next digit _ =>
    cases scanned
    exact spells_word digit rfl
  · exact spells_symbol (ofLexeme_eq_token.mp scanned)

end Piece

/-- The kind of a token fits its text. -/
def Token.Spelled (token : Token Terminal) : Prop :=
  Piece.Spells token.kind token.lexeme.toList

theorem Lexer.spelled_readPieces (lexer : Lexer) (tokens : List (Token Terminal))
    (before : ∀ token ∈ tokens, Token.Spelled token) {found : List (Token Terminal)}
    (read : (lexer.readPieces tokens).1 = .ok found) : ∀ token ∈ found, Token.Spelled token := by
  fun_induction Lexer.readPieces lexer tokens with
  | case1 lexer tokens =>
    cases read
    intro token member
    exact before token (List.mem_reverse.mp member)
  | case2 lexer tokens c rest _ more scanned text next ih => exact ih before read
  | case3 lexer tokens c rest _ more text next kind scanned ih =>
    apply ih _ read
    intro token member
    rcases List.mem_cons.mp member with rfl | old
    · change Piece.Spells kind (String.ofList text).toList
      rw [String.toList_ofList]
      exact Piece.spells_scan scanned
    · exact before token old
  | case4 => cases read

theorem spelled_tokenize {source : String} {tokens : List (Token Terminal)} (read : tokenize source = .ok tokens) :
    ∀ token ∈ tokens, Token.Spelled token := by
  rw [tokenize, Lexer.tokenize_eq_readPieces] at read
  exact Lexer.spelled_readPieces _ [] (by simp) read

/-- Which texts are names and which are literals. -/
structure Vocabulary where
  name : String → Prop
  literal : String → Prop

mutual

def Expression.Spelled (words : Vocabulary) : Expression → Prop
  | .number text => words.literal text
  | .scalar use => words.name use.name
  | .element use index => words.name use.name ∧ index.Spelled words
  | .call callee arguments => words.name callee.name ∧ arguments.Spelled words
  | .chain head links => head.Spelled words ∧ links.Spelled words

def Links.Spelled (words : Vocabulary) : Links → Prop
  | .nil => True
  | .cons _ operand rest => operand.Spelled words ∧ rest.Spelled words

def Arguments.Spelled (words : Vocabulary) : Arguments → Prop
  | .nil => True
  | .cons first rest => first.Spelled words ∧ rest.Spelled words

end

def Statement.Spelled (words : Vocabulary) : Statement → Prop
  | .skip | .ret none => True
  | .seq first rest => first.Spelled words ∧ rest.Spelled words
  | .assign target value => words.name target.name ∧ value.Spelled words
  | .store target index value => words.name target.name ∧ index.Spelled words ∧ value.Spelled words
  | .call callee arguments => words.name callee.name ∧ arguments.Spelled words
  | .select test consequent alternative =>
    test.Spelled words ∧ consequent.Spelled words ∧ alternative.Spelled words
  | .loop test body => test.Spelled words ∧ body.Spelled words
  | .ret (some value) => value.Spelled words

def Declaration.Spelled (words : Vocabulary) (declaration : Declaration) : Prop :=
  words.name declaration.declarator.subject.name ∧ ∀ text ∈ declaration.length, words.literal text

def Form.Spelled (words : Vocabulary) : Form → Prop
  | .datum length => ∀ text ∈ length, words.literal text
  | .function params locals body =>
    (∀ parameter ∈ params, words.name parameter.subject.name) ∧
      (∀ declaration ∈ locals, declaration.Spelled words) ∧ body.Spelled words

def Definition.Spelled (words : Vocabulary) (definition : Definition) : Prop :=
  words.name definition.declarator.subject.name ∧ definition.form.Spelled words

def Program.Spelled (words : Vocabulary) (program : Program) : Prop :=
  ∀ definition ∈ program, definition.Spelled words

def Access.Spelled (words : Vocabulary) : Access → Prop
  | .plain => True
  | .element index => index.Spelled words
  | .call arguments => arguments.Spelled words

def Effect.Spelled (words : Vocabulary) : Effect → Prop
  | .assign index value => (∀ place ∈ index, Expression.Spelled words place) ∧ value.Spelled words
  | .call arguments => arguments.Spelled words

namespace Phrase

def SpelledOf (words : Vocabulary) (phrase : Phrase) : NonTerminal → Prop
  | .program | .defineList => phrase.program.Spelled words
  | .define => phrase.definition.Spelled words
  | .defineType | .funDefineFollow => phrase.form.Spelled words
  | .varDefineFollow => ∀ text ∈ phrase.length, words.literal text
  | .type | .arraySubscript | .relOp | .addOp | .mulOp => True
  | .params | .paramList | .paramFollow | .param => ∀ parameter ∈ phrase.params, words.name parameter.subject.name
  | .codeBlock => (∀ declaration ∈ phrase.locals, declaration.Spelled words) ∧ phrase.statement.Spelled words
  | .localDefineList => ∀ declaration ∈ phrase.locals, declaration.Spelled words
  | .localVarDefine => phrase.declaration.Spelled words
  | .codeList | .code | .normalStatement | .selectionStatement | .selectionFollow | .iterationStatement
  | .iterationFollow | .returnStatement | .returnFollow => phrase.statement.Spelled words
  | .normalStatementFollow => phrase.effect.Spelled words
  | .callFollow | .args | .argList | .argListFollow => phrase.arguments.Spelled words
  | .varFollow => ∀ index ∈ phrase.index, index.Spelled words
  | .expression | .additiveExpr | .term | .factor => phrase.expression.Spelled words
  | .expressionFollow => ∀ relation ∈ phrase.relation, relation.2.Spelled words
  | .additiveExprFollow | .termFollow => phrase.links.Spelled words
  | .idFactorFollow => phrase.access.Spelled words

/-- The names and literals of a phrase below a sign. -/
def Spelled (words : Vocabulary) (phrase : Phrase) : Sign Terminal NonTerminal → Prop
  | .terminal .ident => words.name phrase.lexeme
  | .terminal .num => words.literal phrase.lexeme
  | .nonTerminal kind => phrase.SpelledOf words kind
  | _ => True

def SpelledAll (words : Vocabulary) : List (Sign Terminal NonTerminal) → List Phrase → Prop
  | sign :: signs, phrase :: phrases => phrase.Spelled words sign ∧ SpelledAll words signs phrases
  | _, _ => True

end Phrase

theorem Expression.spelled_ofLinks {words : Vocabulary} {head : Expression} {links : Links}
    (first : head.Spelled words) (rest : links.Spelled words) : (Expression.ofLinks head links).Spelled words := by
  cases links with
  | nil => exact first
  | cons => exact ⟨first, rest⟩

theorem Expression.spelled_ofRelation {words : Vocabulary} {head : Expression}
    {relation : Option (Operator × Expression)} (first : head.Spelled words)
    (rest : ∀ pair ∈ relation, pair.2.Spelled words) : (Expression.ofRelation head relation).Spelled words := by
  cases relation with
  | none => exact first
  | some pair => exact ⟨first, rest pair rfl, trivial⟩

theorem Access.spelled_expression {words : Vocabulary} {use : Occurrence} {access : Access}
    (named : words.name use.name) (spelled : access.Spelled words) : (access.expression use).Spelled words := by
  cases access with
  | plain => exact named
  | element index => exact ⟨named, spelled⟩
  | call arguments => exact ⟨named, spelled⟩

theorem Effect.spelled_statement {words : Vocabulary} {target : Occurrence} {effect : Effect}
    (named : words.name target.name) (spelled : effect.Spelled words) : (effect.statement target).Spelled words := by
  rcases effect with ⟨_ | index, value⟩ | arguments
  · exact ⟨named, spelled.2⟩
  · exact ⟨named, spelled.1 index rfl, spelled.2⟩
  · exact ⟨named, spelled⟩

namespace Phrase

theorem spelled_ofRule (words : Vocabulary) (rule : Rule) (child : Nat → Phrase)
    (each : SpelledAll words rule.production.right ((List.range rule.production.right.length).map child)) :
    (ofRule rule ((List.range rule.production.right.length).map child)).SpelledOf words rule.production.left := by
  cases rule
  case normalStatementId => exact Effect.spelled_statement each.1 each.2.1
  case expression => exact Expression.spelled_ofRelation each.1 each.2.1
  case additiveExpr | term => exact Expression.spelled_ofLinks each.1 each.2.1
  case factorId => exact Access.spelled_expression each.1 each.2.1
  case defineList | localDefineList => exact List.forall_mem_cons.mpr ⟨each.1, each.2.1⟩
  case define | localVarDefine => exact ⟨each.2.1, each.2.2.1⟩
  case funDefineFollow => exact ⟨each.2.1, each.2.2.2.1⟩
  case normalFollowAssign => exact ⟨each.1, each.2.2.1⟩
  case paramList => exact List.forall_mem_append.mpr ⟨each.1, each.2.1⟩
  case paramFollow => exact List.forall_mem_append.mpr ⟨each.2.1, each.2.2.1⟩
  case param => exact List.forall_mem_singleton.mpr each.2.1
  case codeBlock | additiveFollow | termFollow | argListFollow => exact ⟨each.2.1, each.2.2.1⟩
  case codeList | argList => exact ⟨each.1, each.2.1⟩
  case selection => exact ⟨each.2.2.1, each.2.2.2.2.2.1, each.2.2.2.2.2.2.2.1⟩
  case iteration => exact ⟨each.2.2.1, each.2.2.2.2.1⟩
  case selectionElse => exact each.2.2.1
  case callFollow | iterationBlock | returnStatement | factorParen | idFactorCall => exact each.2.1
  case varDefineArray | varFollowIndex | expressionFollow =>
    rintro _ ⟨⟩
    exact each.2.1
  case idFactorVar =>
    have inside : ∀ index ∈ (child 0).index, Expression.Spelled words index := each.1
    change Access.Spelled words ((child 0).index.elim .plain .element)
    rcases found : (child 0).index with _ | index
    · trivial
    · exact inside index found
  case defineListEmpty | paramsVoid | paramsEmpty | paramFollowEmpty | localDefineListEmpty | varDefineScalar
    | varFollowEmpty | expressionFollowEmpty => rintro _ ⟨⟩
  all_goals first | exact trivial | exact each.1

theorem spelledAll_ofTrees {words : Vocabulary} {trees : List ParseTree}
    (each : ∀ tree ∈ trees, (ofTree tree).Spelled words tree.sign) :
    SpelledAll words (trees.map Tree.sign) (trees.map ofTree) := by
  induction trees with
  | nil => trivial
  | cons tree rest ih =>
    exact ⟨each tree (List.mem_cons_self ..), ih fun other member => each other (List.mem_cons_of_mem _ member)⟩

/-- The names and literals of a phrase are texts of leaves. -/
theorem spelled_ofTree {words : Vocabulary} (tree : ParseTree) (conforming : tree.conforms Language.grammar = true)
    (leaves : ∀ label ∈ tree.leafLabels, Spelled words { lexeme := label.lexeme.getD "" } label.sign) :
    (ofTree tree).Spelled words tree.sign := by
  induction tree using Tree.by_children with
  | node label children ih =>
    rw [Tree.leafLabels_node] at leaves
    change (ofTree (.node label children)).Spelled words label.sign
    rcases Language.conforms_cases conforming with ⟨kind, signed, _⟩ | ⟨rule, signed, known, right, below⟩
    · have own := leaves label (by simp [signed, Sign.isTerminal])
      rw [ofTree_terminal signed]
      rw [signed] at own ⊢
      cases kind <;> exact own
    · have each : ∀ tree ∈ children, (ofTree tree).Spelled words tree.sign := by
        intro tree member
        apply ih tree member (below tree member)
        intro leaf inside
        apply leaves leaf
        exact List.mem_append_right _ (List.mem_flatMap.mpr ⟨tree, member, inside⟩)
      have list := eq_map_range (children.map ofTree)
      have all := spelledAll_ofTrees each
      rw [List.length_map, ← List.length_map Tree.sign, ← right] at list
      rw [← right, list] at all
      rw [ofTree_rule signed known, list, signed]
      exact spelled_ofRule words rule _ all

end Phrase

namespace Language

theorem parse_tree {tokens : List (Token Terminal)} {tree : ParseTree} (parsed : parser.parse tokens = .ok tree) :
    tree.sign = .nonTerminal .program ∧ tree.conforms grammar = true ∧
      tree.leafLabels = tokens.map (Token.label NonTerminal) :=
  Parser.parse_sound grammar_valid (Parser.typed_of_build parser_built) parsed

end Language

theorem Program.spelled_of_parse {words : Vocabulary} {tokens : List (Token Terminal)} {tree : ParseTree}
    (parsed : Language.parser.parse tokens = .ok tree)
    (named : ∀ token ∈ tokens, token.kind = .ident → words.name token.lexeme)
    (numbered : ∀ token ∈ tokens, token.kind = .num → words.literal token.lexeme) :
    (Program.ofTree tree).Spelled words := by
  obtain ⟨rooted, conforming, labels⟩ := Language.parse_tree parsed
  have leaves : ∀ label ∈ tree.leafLabels, Phrase.Spelled words { lexeme := label.lexeme.getD "" } label.sign := by
    intro label member
    rw [labels] at member
    obtain ⟨token, present, rfl⟩ := List.mem_map.mp member
    obtain ⟨kind, lexeme, line⟩ := token
    cases kind
    case ident => exact named _ present rfl
    case num => exact numbered _ present rfl
    all_goals trivial
  have spelled := Phrase.spelled_ofTree tree conforming leaves
  rw [rooted] at spelled
  exact spelled

end Minuscule
