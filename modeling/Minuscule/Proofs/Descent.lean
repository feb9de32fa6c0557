import Minuscule.Proofs.Reading

/-!
A parse by descent, for sources that are given. The rules of a non-terminal are tried in their order, and the first one
is taken with which all that stands behind it is found, too. There is no table and no arena, so that it is evaluated in
little time. A tree that is found in this way conforms to the grammar, and the parser then has the same program. What is
found out about given tokens in this way, or by a parser that stops after a number of steps, is true of their tree.
-/

namespace Minuscule

/-- The rules of a non-terminal, in their order. -/
def NonTerminal.rules (kind : NonTerminal) : List Rule :=
  Rule.all.toList.filter (·.production.left = kind)

namespace Descent

/-- Trees for a row of signs over the front of the tokens, and the tokens behind them. -/
def row? : Nat → List (Sign Terminal NonTerminal) → List (Token Terminal) →
    Option (List ParseTree × List (Token Terminal))
  | _, [], tokens => some ([], tokens)
  | limit + 1, .terminal kind :: signs, token :: tokens =>
    if token.kind = kind then
      (row? limit signs tokens).map fun found => (.node (token.label NonTerminal) [] :: found.1, found.2)
    else none
  | limit + 1, .nonTerminal kind :: signs, tokens =>
    kind.rules.findSome? fun rule => (row? limit (rule.production.right ++ signs) tokens).map fun found =>
      (.ofRule rule (found.1.take rule.production.right.length) :: found.1.drop rule.production.right.length, found.2)
  | _, _, _ => none

/-- Conforming trees with given signs over the front of the tokens. -/
structure Sound (signs : List (Sign Terminal NonTerminal)) (tokens : List (Token Terminal))
    (found : List ParseTree × List (Token Terminal)) : Prop where
  signs : found.1.map Tree.sign = signs
  conforming : ∀ tree ∈ found.1, tree.conforms Language.grammar = true
  labels : found.1.flatMap Tree.leafLabels ++ found.2.map (Token.label NonTerminal) =
    tokens.map (Token.label NonTerminal)

section Sound
variable {signs : List (Sign Terminal NonTerminal)} {tokens : List (Token Terminal)}
  {found : List ParseTree × List (Token Terminal)}

theorem Sound.leaf (sound : Sound signs tokens found) (token : Token Terminal) :
    Sound (.terminal token.kind :: signs) (token :: tokens)
      (.node (token.label NonTerminal) [] :: found.1, found.2) where
  signs := by
    rw [List.map_cons, sound.signs]
    rfl
  conforming := List.forall_mem_cons.mpr ⟨Tree.conforms_leaf rfl rfl, sound.conforming⟩
  labels := by
    rw [List.flatMap_cons, Tree.leafLabels_node, List.append_assoc, sound.labels]
    rfl

/-- The trees of a right side go below one of its left side. -/
theorem Sound.ofRule {rule : Rule} (sound : Sound (rule.production.right ++ signs) tokens found) :
    Sound (.nonTerminal rule.production.left :: signs) tokens
      (.ofRule rule (found.1.take rule.production.right.length) :: found.1.drop rule.production.right.length,
        found.2) where
  signs := by
    rw [List.map_cons, List.map_drop, sound.signs, List.drop_left]
    rfl
  conforming := by
    refine List.forall_mem_cons.mpr ⟨Tree.conforms_ofRule ?_ ?_, ?_⟩
    · rw [List.map_take, sound.signs, List.take_left]
    · exact fun tree member => sound.conforming tree (List.mem_of_mem_take member)
    · exact fun tree member => sound.conforming tree (List.mem_of_mem_drop member)
  labels := by
    rw [List.flatMap_cons, Tree.leafLabels_ofRule, ← List.flatMap_append, List.take_append_drop]
    exact sound.labels

end Sound

theorem sound_row? {limit : Nat} {signs : List (Sign Terminal NonTerminal)} {tokens : List (Token Terminal)}
    {found : List ParseTree × List (Token Terminal)} (taken : row? limit signs tokens = some found) :
    Sound signs tokens found := by
  induction limit, signs, tokens using row?.induct generalizing found with
  | case1 limit tokens =>
    rw [row?] at taken
    cases taken
    exact ⟨rfl, by simp, rfl⟩
  | case2 limit signs token tokens ih =>
    rw [row?, if_pos rfl] at taken
    obtain ⟨later, behind, rfl⟩ := Option.map_eq_some_iff.mp taken
    exact (ih behind).leaf token
  | case3 limit kind signs token tokens other =>
    rw [row?, if_neg other] at taken
    cases taken
  | case4 limit kind signs tokens ih =>
    rw [row?] at taken
    obtain ⟨rule, listed, taken⟩ := List.exists_of_findSome?_eq_some taken
    obtain ⟨later, behind, rfl⟩ := Option.map_eq_some_iff.mp taken
    obtain rfl : rule.production.left = kind := by simpa using (List.mem_filter.mp listed).2
    exact (ih rule behind).ofRule
  | case5 limit signs tokens notEmpty notLeaf notInner =>
    rw [row?] at taken
    · cases taken
    all_goals assumption

/-- Tokens that make up a program by descent are parsed as this program. -/
theorem parse_of_row? {limit : Nat} {tokens : List (Token Terminal)} {tree : ParseTree}
    (taken : row? limit [.nonTerminal .program] tokens = some ([tree], [])) :
    ∃ parsed, Language.parser.parse tokens = .ok parsed ∧ Program.ofTree parsed = Program.ofTree tree := by
  obtain ⟨signs, fits, labels⟩ := sound_row? taken
  rw [List.flatMap_singleton, List.map_nil, List.append_nil] at labels
  have rooted : tree.sign = .nonTerminal .program := List.singleton_inj.mp signs
  have conforming := List.forall_mem_singleton.mp fits
  obtain ⟨parsed, found⟩ := Parser.parse_of_tree Language.grammar_valid Language.parser_built rooted conforming
    (Parser.leaves_of_leafLabels labels).symm
  obtain ⟨rooted', conforming', own⟩ := Language.parse_tree found
  refine ⟨parsed, found, ?_⟩
  rw [Program.ofTree, Program.ofTree,
    Phrase.ofTree_unique rooted' conforming' rooted conforming (own.trans labels.symm)]

end Descent

/-- A way to find out something about the tree of some tokens that takes less than to parse them. -/
structure Preview {α : Type} (view : ParseTree → α) where
  find? : List (Token Terminal) → Option α
  sound : ∀ {tokens answer}, find? tokens = some answer →
    ∃ tree, Language.parser.parse tokens = .ok tree ∧ view tree = answer

namespace Preview

/-- The tree itself, if the parser has it after so many steps. -/
def parser (limit : Nat) : Preview (id : ParseTree → ParseTree) where
  find? tokens := (Language.parser.parseWithin limit tokens).bind Except.toOption
  sound := by
    intro tokens tree found
    obtain ⟨answer, done, kept⟩ := Option.bind_eq_some_iff.mp found
    cases answer with
    | error error => cases kept
    | ok tree' =>
      cases kept
      exact ⟨tree, Parser.parse_of_parseWithin done, rfl⟩

/-- The program, by descent. -/
def descent (limit : Nat) : Preview Program.ofTree where
  find? tokens :=
    match Descent.row? limit [.nonTerminal .program] tokens with
    | some ([tree], []) => some (Program.ofTree tree)
    | _ => none
  sound := by
    intro tokens program found
    split at found
    · next tree taken =>
      cases found
      exact Descent.parse_of_row? taken
    · cases found

variable {α : Type} {view : ParseTree → α}

/-- Whether something is found out about some tokens, and passes a test. -/
def passes (preview : Preview view) (test : α → Bool) (tokens : List (Token Terminal)) : Bool :=
  (preview.find? tokens).any test

theorem parseTokens_of_passes {preview : Preview view} {test : α → Bool} {tokens : List (Token Terminal)}
    (passes : preview.passes test tokens = true) :
    ∃ tree, parseTokens tokens = .ok tree ∧ test (view tree) = true := by
  obtain ⟨answer, found, passed⟩ := (Option.any_eq_true _ _).mp passes
  obtain ⟨tree, parsed, rfl⟩ := preview.sound found
  exact ⟨tree, Language.parseTokens_eq_ok.mpr parsed, passed⟩

/-- The same for the tokens of a source. -/
def sourcePasses (preview : Preview view) (test : List (Token Terminal) → α → Bool) (source : String) : Bool :=
  (tokenize source).toOption.any fun tokens => preview.passes (test tokens) tokens

theorem parseSource_of_sourcePasses {preview : Preview view} {test : List (Token Terminal) → α → Bool}
    {source : String} (passes : preview.sourcePasses test source = true) :
    ∃ tokens tree, tokenize source = .ok tokens ∧ parseSource source = .ok tree ∧ test tokens (view tree) = true := by
  obtain ⟨tokens, kept, passed⟩ := (Option.any_eq_true _ _).mp passes
  obtain ⟨tree, parsed, passed⟩ := parseTokens_of_passes passed
  cases read : tokenize source with
  | error error =>
    rw [read] at kept
    cases kept
  | ok tokens' =>
    rw [read] at kept
    cases kept
    refine ⟨tokens, tree, rfl, ?_, passed⟩
    rw [parseSource, read]
    exact parsed

end Preview

end Minuscule
