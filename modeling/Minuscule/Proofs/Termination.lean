import Minuscule.Proofs.Parsing

/-!
The loop of a parser with its grammar's own table comes to an end by itself. Its rounds are the steps of the
parser, in which the check of levels never makes a difference, and a step either reads a token or lessens the
work that is left before the next token is read.
-/

namespace Minuscule.Parser
variable {T N : Type} [Ord T] [Ord N] [Std.TransOrd T] [Std.TransOrd N] [Std.LawfulEqOrd T] [Std.LawfulEqOrd N]
  [DecidableEq T] [DecidableEq N] {parser : Parser T N} {state next last : State T N}

theorem Shallow.advance (valid : parser.grammar.Valid)
    (built : Table.build parser.grammar (.ofGrammar parser.grammar) = .ok parser.table)
    (shallow : Shallow parser state) (moved : parser.advance state = .next next) : Shallow parser next :=
  shallow.step valid built (shallow.step_eq_advance.trans moved)

theorem shallow_after (valid : parser.grammar.Valid)
    (built : Table.build parser.grammar (.ofGrammar parser.grammar) = .ok parser.table) {tokens : List (Token T)}
    {count : Nat} (reached : parser.after count (parser.initial tokens) = some state) : Shallow parser state :=
  after_induction (fun _ _ shallow moved => shallow.advance valid built moved) (shallow_initial valid tokens) reached

/-- Rounds leave what is to come of a run as it is. -/
theorem run_of_after (valid : parser.grammar.Valid)
    (built : Table.build parser.grammar (.ofGrammar parser.grammar) = .ok parser.table) {count : Nat}
    (shallow : Shallow parser state) (reached : parser.after count state = some last) :
    parser.run state = parser.run last := by
  induction count generalizing state with
  | zero =>
    cases reached
    rfl
  | succ count ih =>
    obtain ⟨next, moved, rest⟩ := after_succ.mp reached
    rw [run_eq, shallow.step_eq_advance, moved]
    exact ih (shallow.advance valid built moved) rest

/-- After some number of rounds the next one does not go on. -/
theorem Shallow.ends (valid : parser.grammar.Valid)
    (built : Table.build parser.grammar (.ofGrammar parser.grammar) = .ok parser.table)
    (shallow : Shallow parser state) :
    ∃ count last, parser.after count state = some last ∧ ∀ next, parser.advance last ≠ .next next := by
  induction state using run.induct parser with
  | case1 state next moved ih =>
    obtain ⟨count, last, reached, stops⟩ := ih (shallow.step valid built moved)
    rw [shallow.step_eq_advance] at moved
    exact ⟨count + 1, last, after_succ.mpr ⟨next, moved, reached⟩, stops⟩
  | case2 state arena stopped =>
    rw [shallow.step_eq_advance] at stopped
    exact ⟨0, state, rfl, by simp [stopped]⟩
  | case3 state error stopped =>
    rw [shallow.step_eq_advance] at stopped
    exact ⟨0, state, rfl, by simp [stopped]⟩

/-- There are no more rounds before the next token is read than there is work. -/
theorem Shallow.count_le_work (valid : parser.grammar.Valid)
    (built : Table.build parser.grammar (.ofGrammar parser.grammar) = .ok parser.table) {count : Nat}
    (shallow : Shallow parser state) (reached : parser.after count state = some last)
    (unread : last.tokens.length = state.tokens.length) : count ≤ work parser.grammar state := by
  induction count generalizing state with
  | zero => exact Nat.zero_le _
  | succ count ih =>
    obtain ⟨next, moved, rest⟩ := after_succ.mp reached
    have fewer := (tokens_suffix_after rest).length_le
    rcases step_next (shallow.step_eq_advance.trans moved) with read | ⟨same, less⟩
    · omega
    · have bound := ih (shallow.advance valid built moved) rest (unread.trans same.symm)
      omega

/-- What a parse gives when its loop accepts. -/
theorem parse_of_accept (valid : parser.grammar.Valid)
    (built : Table.build parser.grammar (.ofGrammar parser.grammar) = .ok parser.table) {tokens : List (Token T)}
    {count : Nat} {arena : Arena T N} (reached : parser.after count (parser.initial tokens) = some last)
    (accepted : parser.advance last = .accept arena) :
    ∃ tree, arena.assemble? = some tree ∧ parser.parse tokens = .ok tree := by
  have shallow := shallow_after valid built reached
  have ran : parser.run (parser.initial tokens) = .ok arena := by
    rw [run_of_after valid built (shallow_initial valid tokens) reached, run_eq, shallow.step_eq_advance, accepted]
  obtain ⟨⟨forest, met, _⟩, _⟩ := answered_of_run valid (typed_of_build built) (placed_initial parser tokens) ran
  cases met with
  | @cons _ tree _ _ here _ =>
    have assembled := Arena.assemble?_of_represents here.2.2
    refine ⟨tree, assembled, ?_⟩
    rw [parse, ran]
    simp only [bind, Except.bind, pure, Except.pure, assembled, Option.getD_some]

/-- What a parse gives when its loop rejects. -/
theorem parse_of_reject (valid : parser.grammar.Valid)
    (built : Table.build parser.grammar (.ofGrammar parser.grammar) = .ok parser.table) {tokens : List (Token T)}
    {count : Nat} {error : SyntaxError T N} (reached : parser.after count (parser.initial tokens) = some last)
    (rejected : parser.advance last = .reject error) : parser.parse tokens = .error error := by
  have shallow := shallow_after valid built reached
  have ran : parser.run (parser.initial tokens) = .error error := by
    rw [run_of_after valid built (shallow_initial valid tokens) reached, run_eq, shallow.step_eq_advance, rejected]
  rw [parse, ran]
  rfl

/-- The loop comes to an end, and the parse is what it ends with. -/
theorem parse_cases (valid : parser.grammar.Valid)
    (built : Table.build parser.grammar (.ofGrammar parser.grammar) = .ok parser.table) (tokens : List (Token T)) :
    ∃ count last, parser.after count (parser.initial tokens) = some last ∧
      ((∃ tree, parser.advance last = .accept last.arena ∧ last.arena.assemble? = some tree ∧
          parser.parse tokens = .ok tree) ∨
        ∃ error, parser.advance last = .reject error ∧ parser.parse tokens = .error error) := by
  obtain ⟨count, last, reached, stops⟩ := (shallow_initial valid tokens).ends valid built
  refine ⟨count, last, reached, ?_⟩
  cases stopped : parser.advance last with
  | next state => exact absurd stopped (stops state)
  | accept arena =>
    obtain ⟨_, _, rfl⟩ := advance_accept stopped
    obtain ⟨tree, assembled, parsed⟩ := parse_of_accept valid built reached stopped
    exact .inl ⟨tree, rfl, assembled, parsed⟩
  | reject error => exact .inr ⟨error, rfl, parse_of_reject valid built reached stopped⟩

theorem rounds_of_error (valid : parser.grammar.Valid)
    (built : Table.build parser.grammar (.ofGrammar parser.grammar) = .ok parser.table) {tokens : List (Token T)}
    {error : SyntaxError T N} (failed : parser.parse tokens = .error error) :
    ∃ count last, parser.after count (parser.initial tokens) = some last ∧ parser.advance last = .reject error := by
  obtain ⟨count, last, reached, ⟨tree, _, _, parsed⟩ | ⟨error', rejected, failed'⟩⟩ := parse_cases valid built tokens
  · rw [failed] at parsed
    cases parsed
  · rw [failed] at failed'
    cases failed'
    exact ⟨count, last, reached, rejected⟩

/-- The loop of a parser stops after some number of rounds, with a tree or with the reason why there is none, and what
it stops with is what the parser gives; it is never that the parser gave up. At no point can it go on for more rounds
than there is work without reading a token. -/
theorem loop_ends {start : N} {productions : List (Production T N)}
    (accepted : Grammar.ofProductions start productions = .ok parser.grammar)
    (built : Table.build parser.grammar (.ofGrammar parser.grammar) = .ok parser.table) (tokens : List (Token T)) :
    (∃ count last, parser.after count (parser.initial tokens) = some last ∧
      ((∃ tree, parser.advance last = .accept last.arena ∧ last.arena.assemble? = some tree ∧
          parser.parse tokens = .ok tree) ∨
        ∃ error, parser.advance last = .reject error ∧ parser.parse tokens = .error error ∧
          ∀ kind line, error ≠ .endless kind line)) ∧
    ∀ before state count next, parser.after before (parser.initial tokens) = some state →
      parser.after count state = some next → next.tokens = state.tokens →
        count ≤ work parser.grammar state := by
  have valid := Grammar.valid_of_ofProductions accepted
  refine ⟨?_, ?_⟩
  · obtain ⟨count, last, reached, ends | ⟨error, rejected, failed⟩⟩ := parse_cases valid built tokens
    · exact ⟨count, last, reached, .inl ends⟩
    · exact ⟨count, last, reached, .inr ⟨error, rejected, failed, ne_endless_of_reject rejected⟩⟩
  · intro before state count next reached going unread
    exact (shallow_after valid built reached).count_le_work valid built going (congrArg List.length unread)

/-- Left recursion and a circle of non-terminals, none of which derives a word, next to a list of sevens. -/
def circular : Grammar Nat Nat :=
  ⟨0, [⟨0, [.terminal 7, .nonTerminal 0]⟩, ⟨0, []⟩, ⟨0, [.nonTerminal 1]⟩, ⟨1, [.nonTerminal 1, .terminal 8]⟩,
    ⟨1, [.nonTerminal 2]⟩, ⟨2, [.nonTerminal 1]⟩]⟩

theorem circular_loop_ends :
    Grammar.ofProductions 0 circular.productions = .ok circular ∧
      ∃ table, Table.build circular (.ofGrammar circular) = .ok table ∧
        ∃ count last, (⟨circular, table⟩ : Parser Nat Nat).after count
            ((⟨circular, table⟩ : Parser Nat Nat).initial [⟨7, "seven", 1⟩, ⟨8, "eight", 1⟩]) = some last ∧
          ∀ next, (⟨circular, table⟩ : Parser Nat Nat).advance last ≠ .next next := by
  have accepted : Grammar.ofProductions 0 circular.productions = .ok circular := by decide
  have isOk : (Table.build circular (.ofGrammar circular)).isOk = true := by decide +kernel
  cases built : Table.build circular (.ofGrammar circular) with
  | error conflict =>
    rw [built] at isOk
    cases isOk
  | ok table =>
    obtain ⟨⟨count, last, reached, ends⟩, _⟩ :=
      @loop_ends _ _ _ _ _ _ _ _ _ _ ⟨circular, table⟩ _ _ accepted built [⟨7, "seven", 1⟩, ⟨8, "eight", 1⟩]
    refine ⟨accepted, table, rfl, count, last, reached, ?_⟩
    rcases ends with ⟨_, stopped, _⟩ | ⟨_, stopped, _⟩
    · simp [stopped]
    · simp [stopped]

end Minuscule.Parser
