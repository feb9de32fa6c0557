import Minuscule.Proofs.Parsing

/-!
The tree of a parse is a transcript of its tokens. Read in pre-order, its labels are the tokens one after the
other, each with its text and line, and between them the non-terminals, which have no text and stand on the line
of the token that comes next. This holds for every table that is built for the grammar, from whatever sets, and
no round of the loop looks up a production or a node that is not there.
-/

namespace Minuscule

namespace Tree
variable {T N : Type}

/-- The labels of all nodes in pre-order. -/
def labels (tree : Tree T N) : List (Label T N) :=
  tree.subtrees.map label

theorem labels_node (label : Label T N) (children : List (Tree T N)) :
    (node label children).labels = label :: children.flatMap labels := by
  rw [labels, subtrees_node, List.map_cons, List.map_flatMap]
  rfl

end Tree

/-- The line of the first token, or the line of the end. -/
def lineOf {T : Type} (endLine : Nat) (tokens : List (Token T)) : Nat :=
  (tokens.head?.map Token.line).getD endLine

/-- The line of a token by its place; behind the last token counts as the line of the last, or as line one. -/
def lineAt {T : Type} (tokens : List (Token T)) (place : Nat) : Nat :=
  (tokens[place]?.map Token.line).getD ((tokens.getLast?.map Token.line).getD 1)

/-- Labels that go along with tokens: one for each token, and for each non-terminal one that has no text and
stands on the line of the token to come. -/
inductive Transcribes {T N : Type} (endLine : Nat) : List (Token T) → List (Label T N) → Prop
  | done : Transcribes endLine [] []
  | token {token : Token T} {tokens : List (Token T)} {labels : List (Label T N)}
      (rest : Transcribes endLine tokens labels) : Transcribes endLine (token :: tokens) (token.label N :: labels)
  | expansion {tokens : List (Token T)} {label : Label T N} {labels : List (Label T N)} {kind : N}
      (signed : label.sign = .nonTerminal kind) (bare : label.lexeme = none)
      (line : label.line = lineOf endLine tokens) (rest : Transcribes endLine tokens labels) :
      Transcribes endLine tokens (label :: labels)

namespace Transcribes
variable {T N : Type} {endLine : Nat} {tokens : List (Token T)} {labels : List (Label T N)}

/-- A non-terminal's label stands on the line of the token that follows the terminals before it. -/
theorem label_of_split (transcribed : Transcribes endLine tokens labels) {front back : List (Label T N)}
    {label : Label T N} {kind : N} (split : labels = front ++ label :: back) (signed : label.sign = .nonTerminal kind) :
    label.lexeme = none ∧
      label.line = lineOf endLine (tokens.drop (front.countP fun other => other.sign.isTerminal)) := by
  induction transcribed generalizing front with
  | done => simp at split
  | @token token tokens labels rest ih =>
    cases front with
    | nil =>
      cases split
      cases signed
    | cons first front =>
      cases split
      have more : (token.label N :: front).countP (fun other => other.sign.isTerminal) =
          front.countP (fun other => other.sign.isTerminal) + 1 := List.countP_cons_of_pos rfl
      rw [more, List.drop_succ_cons]
      exact ih rfl
  | @expansion tokens first labels other signed' bare line rest ih =>
    cases front with
    | nil =>
      cases split
      exact ⟨bare, line⟩
    | cons first front =>
      cases split
      have same : (first :: front).countP (fun other => other.sign.isTerminal) =
          front.countP (fun other => other.sign.isTerminal) :=
        List.countP_cons_of_neg (by simp [signed', Sign.isTerminal])
      rw [same]
      exact ih rfl

end Transcribes

namespace Parser
variable {T N : Type}

theorem line_eq_lineOf (state : State T N) : state.line = lineOf state.lastLine state.tokens := by
  unfold State.line
  split
  · next none => rw [none]; rfl
  · next some => rw [some]; rfl

/-- Whatever trees have become of the goals, their labels go along with the tokens. -/
def Transcribed (state : State T N) (arena : Arena T N) : Prop :=
  ∀ forest, List.Forall₂ (fun goal tree => arena.Represents goal.place tree) state.goals forest →
    Transcribes state.lastLine state.tokens (forest.flatMap Tree.labels)

section Ranges
variable [Ord T] [Ord N] {parser : Parser T N} {state : State T N}

/-- What a round looks up is there: the production that the table names, the nodes of the goals, and the children
that nodes name. -/
structure InRange (parser : Parser T N) (state : State T N) : Prop where
  production : ∀ goal rest kind index, state.goals = goal :: rest → goal.sign = .nonTerminal kind →
    parser.table.get? kind state.lookahead = some index → index < parser.grammar.productions.length
  place : ∀ goal ∈ state.goals, goal.place < state.arena.size
  linked : state.arena.Linked

theorem linked_initial (parser : Parser T N) (tokens : List (Token T)) : (parser.initial tokens).arena.Linked := by
  intro place node found child member
  have first : place = 0 := by
    have inside := (Array.getElem?_eq_some_iff.mp found).1
    exact Nat.lt_one_iff.mp inside
  subst first
  cases found
  cases member

variable [DecidableEq T]

theorem linked_advance {next : State T N} (linked : state.arena.Linked) (moved : parser.advance state = .next next) :
    next.arena.Linked := by
  rcases advance_next_cases moved with ⟨goal, _, token, _, _, _, _, rfl⟩ |
    ⟨goal, _, _, index, production, _, _, _, _, rfl⟩ | ⟨_, _, _, _, rfl⟩
  · exact linked.fill goal.place token.lexeme token.line
  · exact linked.expand goal.place index production.right state.line
  · exact linked

theorem inRange_after (valid : parser.grammar.Valid) (typed : parser.Typed) {tokens : List (Token T)} {count : Nat}
    (reached : parser.after count (parser.initial tokens) = some state) : InRange parser state := by
  have placed : Placed state :=
    after_induction (fun _ _ placed moved => placed.advance valid moved) (placed_initial parser tokens) reached
  have linked : state.arena.Linked :=
    after_induction (P := fun state => state.arena.Linked) (fun _ _ linked moved => linked_advance linked moved)
      (linked_initial parser tokens) reached
  refine ⟨?_, fun goal member => placed.inside member, linked⟩
  intro goal rest kind index _ _ cell
  obtain ⟨production, found, _⟩ := typed kind _ index cell
  exact (List.getElem?_eq_some_iff.mp found).1

end Ranges

variable [Ord T] [Ord N] [DecidableEq T] [DecidableEq N] {parser : Parser T N} {state : State T N}

theorem transcribed_take {arena : Arena T N} (placed : Placed state) {goal : Goal T N} {rest : List (Goal T N)}
    {token : Token T} {tokens : List (Token T)} (goals : state.goals = goal :: rest)
    (signed : goal.sign = .terminal token.kind) (inHand : state.tokens = token :: tokens)
    (answered : Answered parser (state.take goal rest token tokens) arena)
    (transcribed : Transcribed (state.take goal rest token tokens) arena) : Transcribed state arena := by
  intro forest represented
  rw [goals] at represented
  cases represented with
  | @cons _ tree _ others here behind =>
    obtain ⟨label, children⟩ := tree
    obtain ⟨places, found, _, below⟩ := Arena.represents_node.mp here
    rw [answered.node_of_take placed goals signed] at found
    cases found
    cases below
    rw [List.flatMap_cons, Tree.labels_node, inHand]
    exact .token (transcribed others behind)

theorem transcribed_expand {arena : Arena T N} (placed : Placed state) {goal : Goal T N} {rest : List (Goal T N)}
    {kind : N} {index : Nat} {right : List (Sign T N)} (goals : state.goals = goal :: rest)
    (signed : goal.sign = .nonTerminal kind) (answered : Answered parser (state.expand goal rest index right) arena)
    (transcribed : Transcribed (state.expand goal rest index right) arena) : Transcribed state arena := by
  intro forest represented
  rw [goals] at represented
  cases represented with
  | @cons _ tree _ others here behind =>
    obtain ⟨label, children⟩ := tree
    obtain ⟨places, found, _, below⟩ := Arena.represents_node.mp here
    rw [answered.node_of_expand placed goals] at found
    cases found
    rw [← map_place_subgoals state goal right, List.forall₂_map_left_iff] at below
    have later := transcribed (children ++ others) (List.rel_append below behind)
    rw [List.flatMap_append] at later
    rw [List.flatMap_cons, Tree.labels_node]
    exact .expansion signed rfl (line_eq_lineOf state) later

/-- Rounds that end in acceptance write down the tokens that they read. -/
theorem transcribed_of_after (valid : parser.grammar.Valid) (typed : parser.Typed) {count : Nat} {last : State T N}
    (placed : Placed state) {arena : Arena T N} (reached : parser.after count state = some last)
    (accepted : parser.advance last = .accept arena) : Transcribed state arena := by
  induction count generalizing state with
  | zero =>
    cases reached
    obtain ⟨goals, tokens, rfl⟩ := advance_accept accepted
    intro forest represented
    rw [goals] at represented
    cases represented
    rw [tokens]
    exact .done
  | succ count ih =>
    obtain ⟨next, moved, rest⟩ := after_succ.mp reached
    have placed' := placed.advance valid moved
    have answered := answered_of_after valid typed placed' rest accepted
    have transcribed := ih placed' rest
    rcases advance_next_cases moved with ⟨goal, others, token, tokens, goals, signed, inHand, rfl⟩ |
      ⟨goal, others, kind, index, production, goals, signed, cell, found, rfl⟩ | ⟨goal, others, goals, mark, _⟩
    · exact transcribed_take placed goals signed inHand answered transcribed
    · exact transcribed_expand placed goals signed answered transcribed
    · exact absurd mark (placed.no_mark goals)

/-- A tree that says what was parsed: it conforms to the grammar below the start symbol, its terminals are the
tokens with their texts and lines, and each non-terminal, without a text, stands on the line of the token that
comes next. -/
structure Faithful (grammar : Grammar T N) (tokens : List (Token T)) (tree : Tree T N) : Prop where
  root : tree.sign = .nonTerminal grammar.start
  conforms : tree.conforms grammar = true
  terminals : tree.leafLabels = tokens.map (Token.label N)
  nonTerminals : ∀ front label back kind, tree.labels = front ++ label :: back → label.sign = .nonTerminal kind →
    label.lexeme = none ∧ label.line = lineAt tokens (front.countP fun other => other.sign.isTerminal)

theorem faithful_of_accept (valid : parser.grammar.Valid) (typed : parser.Typed) {tokens : List (Token T)}
    {count : Nat} {last : State T N} {arena : Arena T N}
    (reached : parser.after count (parser.initial tokens) = some last)
    (accepted : parser.advance last = .accept arena) :
    ∃ tree, arena.assemble? = some tree ∧ Faithful parser.grammar tokens tree := by
  have placed := placed_initial parser tokens
  have transcribed := transcribed_of_after valid typed placed reached accepted
  obtain ⟨⟨forest, met, leaves⟩, _⟩ := answered_of_after valid typed placed reached accepted
  cases met with
  | @cons _ tree _ _ here none =>
    cases none
    obtain ⟨signed, conforming, represented⟩ := here
    have labels := transcribed [tree] (.cons represented .nil)
    rw [List.flatMap_singleton] at labels
    refine ⟨tree, Arena.assemble?_of_represents represented, signed, conforming, ?_, ?_⟩
    · rwa [List.flatMap_singleton] at leaves
    · intro front label back kind split signed
      have ⟨bare, line⟩ := labels.label_of_split split signed
      rw [lineOf, List.head?_drop] at line
      exact ⟨bare, line⟩

/-- With any table that is built for its grammar, a parser never looks up what is not there, and a parse that
succeeds gives a faithful tree; so does the loop when it accepts, with no check of levels. -/
theorem parse_faithful [Std.TransOrd T] [Std.TransOrd N] [Std.LawfulEqOrd T] [Std.LawfulEqOrd N] {start : N}
    {productions : List (Production T N)} {sets : Lookahead T N}
    (accepted : Grammar.ofProductions start productions = .ok parser.grammar)
    (built : Table.build parser.grammar sets = .ok parser.table) (tokens : List (Token T)) :
    (∀ count state, parser.after count (parser.initial tokens) = some state → InRange parser state) ∧
    (∀ count last arena, parser.after count (parser.initial tokens) = some last →
      parser.advance last = .accept arena →
        ∃ tree, arena.assemble? = some tree ∧ Faithful parser.grammar tokens tree) ∧
    ∀ tree, parser.parse tokens = .ok tree → Faithful parser.grammar tokens tree := by
  have valid := Grammar.valid_of_ofProductions accepted
  have typed := typed_of_build built
  refine ⟨?_, ?_, ?_⟩
  · exact fun count state reached => inRange_after valid typed reached
  · exact fun count last arena reached done => faithful_of_accept valid typed reached done
  · intro tree parsed
    rw [parse] at parsed
    cases ran : parser.run (parser.initial tokens) with
    | error error =>
      rw [ran] at parsed
      cases parsed
    | ok arena =>
      obtain ⟨count, last, reached, done⟩ := rounds_of_run ran
      obtain ⟨assembled, same, faithful⟩ := faithful_of_accept valid typed reached done
      rw [ran] at parsed
      simp only [bind, Except.bind, pure, Except.pure, Except.ok.injEq, same, Option.getD_some] at parsed
      rwa [← parsed]

end Parser

namespace Language

/-- A scalar on the first line and an empty function on the second. -/
def twoLines : List (Token Terminal) :=
  [⟨.intWord, "int", 1⟩, ⟨.ident, "x", 1⟩, ⟨.semicolon, ";", 1⟩, ⟨.voidWord, "void", 2⟩, ⟨.ident, "f", 2⟩,
    ⟨.lparen, "(", 2⟩, ⟨.rparen, ")", 2⟩, ⟨.lbrace, "\x7b", 2⟩, ⟨.rbrace, "\x7d", 2⟩]

theorem parse_faithful_twoLines :
    ∃ tree, parser.parse twoLines = .ok tree ∧ Parser.Faithful parser.grammar twoLines tree := by
  have succeeds : (parser.parseWithin 60 twoLines).map Except.isOk = some true := by decide +kernel
  obtain ⟨answer, done, isOk⟩ := Option.map_eq_some_iff.mp succeeds
  cases answer with
  | error error => cases isOk
  | ok tree =>
    have parsed := Parser.parse_of_parseWithin done
    exact ⟨tree, parsed, (Parser.parse_faithful grammar_accepted parser_built twoLines).2.2 tree parsed⟩

end Language

end Minuscule
