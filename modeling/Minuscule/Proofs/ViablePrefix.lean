import Minuscule.Compile
import Minuscule.Proofs.Termination

/-!
A parse fails at the first token that cannot be right. What has been read always continues to a word of the
grammar, as long as every non-terminal derives some word. A round looks no further than the token in hand, so a
parse that fails there fails in the same way whatever comes behind; no word of the grammar therefore begins with
what has been read and this token.
-/

namespace Minuscule

namespace Grammar
variable {T N : Type} {grammar : Grammar T N}

/-- The beginnings of the words of a grammar. -/
def Viable (grammar : Grammar T N) (front : List T) : Prop :=
  ∃ rest, grammar.Accepts (front ++ rest)

/-- A sign that derives a word. -/
def Productive (grammar : Grammar T N) (sign : Sign T N) : Prop :=
  ∃ word : List T, grammar.Derives [sign] (word.map .terminal)

theorem productive_terminal (grammar : Grammar T N) (kind : T) : grammar.Productive (.terminal kind) :=
  ⟨[kind], .refl⟩

theorem word_of_productive {signs : List (Sign T N)} (each : ∀ sign ∈ signs, grammar.Productive sign) :
    ∃ word : List T, grammar.Derives signs (word.map .terminal) := by
  induction signs with
  | nil => exact ⟨[], .refl⟩
  | cons sign rest ih =>
    obtain ⟨first, head⟩ := each sign (List.mem_cons_self ..)
    obtain ⟨others, tail⟩ := ih fun other member => each other (List.mem_cons_of_mem _ member)
    refine ⟨first ++ others, ?_⟩
    rw [List.map_append]
    exact head.append tail

theorem productive_left {production : Production T N} (member : production ∈ grammar.productions)
    (each : ∀ sign ∈ production.right, grammar.Productive sign) : grammar.Productive (.nonTerminal production.left) := by
  obtain ⟨word, derived⟩ := word_of_productive each
  exact ⟨word, (derives_right member).trans derived⟩

/-- Productions that use terminals and known non-terminals only, where the left-hand side of each is known to
those behind it. -/
def grounded [DecidableEq N] (known : List N) : List (Production T N) → Bool
  | [] => true
  | production :: rest =>
    production.right.all (fun
      | .terminal _ => true
      | .nonTerminal kind => kind ∈ known
      | _ => false) && grounded (production.left :: known) rest

theorem productive_of_grounded [DecidableEq N] {known : List N} {rules : List (Production T N)}
    (productive : ∀ kind ∈ known, grammar.Productive (.nonTerminal kind))
    (members : ∀ production ∈ rules, production ∈ grammar.productions) (ground : grounded known rules = true) :
    ∀ production ∈ rules, grammar.Productive (.nonTerminal production.left) := by
  induction rules generalizing known with
  | nil => simp
  | cons production rest ih =>
    rw [grounded, Bool.and_eq_true, List.all_eq_true] at ground
    obtain ⟨member, later⟩ := List.forall_mem_cons.mp members
    have here : grammar.Productive (.nonTerminal production.left) := by
      apply productive_left member
      intro sign inside
      have fine := ground.1 sign inside
      cases sign with
      | terminal kind => exact productive_terminal grammar kind
      | nonTerminal kind => exact productive kind (of_decide_eq_true fine)
      | epsilon => cases fine
      | endMark => cases fine
    exact List.forall_mem_cons.mpr ⟨here, ih (List.forall_mem_cons.mpr ⟨here, productive⟩) later ground.2⟩

end Grammar

namespace Parser
variable {T N : Type} [Ord T] [Ord N] [DecidableEq T] {parser : Parser T N} {state last : State T N}

/-- The goals derive what is read on the way, followed by the goals that are left. -/
theorem derives_after (valid : parser.grammar.Valid) (typed : parser.Typed) {count : Nat} (placed : Placed state)
    (reached : parser.after count state = some last) :
    ∃ consumed, state.tokens = consumed ++ last.tokens ∧
      parser.grammar.Derives (state.goals.map Goal.sign)
        ((consumed.map Token.kind).map .terminal ++ last.goals.map Goal.sign) := by
  induction count generalizing state with
  | zero =>
    cases reached
    exact ⟨[], rfl, .refl⟩
  | succ count ih =>
    obtain ⟨next, moved, rest⟩ := after_succ.mp reached
    obtain ⟨consumed, tokens, derived⟩ := ih (placed.advance valid moved) rest
    rcases advance_next_cases moved with ⟨goal, others, token, _, goals, signed, inHand, rfl⟩ |
      ⟨goal, others, kind, index, production, goals, signed, cell, found, rfl⟩ | ⟨goal, others, goals, mark, _⟩
    · refine ⟨token :: consumed, ?_, ?_⟩
      · rw [inHand, List.cons_append]
        exact congrArg (token :: ·) tokens
      · rw [goals, List.map_cons, signed]
        exact derived.cons (.terminal token.kind)
    · obtain ⟨production', found', rfl⟩ := typed kind _ index cell
      obtain rfl : production = production' := Option.some.inj (found.symm.trans found')
      refine ⟨consumed, tokens, ?_⟩
      change parser.grammar.Derives ((state.subgoals goal production.right ++ others).map Goal.sign) _ at derived
      rw [List.map_append, map_sign_subgoals] at derived
      rw [goals, List.map_cons, signed]
      exact derived.head ⟨[], production, others.map Goal.sign, List.mem_of_getElem? found, rfl, rfl⟩
    · exact absurd mark (placed.no_mark goals)

/-! What lies behind the token in hand makes no difference to a round. -/

/-- The same state with other tokens ahead. -/
def State.facing (state : State T N) (tokens : List (Token T)) (lastLine : Nat) : State T N :=
  { state with tokens := tokens, lastLine := lastLine }

omit [Ord T] [Ord N] [DecidableEq T] in
theorem lookahead_facing {token : Token T} {rest : List (Token T)} (inHand : state.tokens = token :: rest)
    (others : List (Token T)) (line : Nat) : (state.facing (token :: others) line).lookahead = state.lookahead := by
  simp only [State.lookahead, inHand, State.facing]

theorem advance_facing_reject {token : Token T} {rest : List (Token T)} {error : SyntaxError T N}
    (inHand : state.tokens = token :: rest) (rejected : parser.advance state = .reject error)
    (others : List (Token T)) (line : Nat) :
    parser.advance (state.facing (token :: others) line) = .reject error := by
  have same := lookahead_facing inHand others line
  have goals' : (state.facing (token :: others) line).goals = state.goals := rfl
  have tokens' : (state.facing (token :: others) line).tokens = token :: others := rfl
  cases goals : state.goals with
  | nil =>
    simp only [advance, goals, inHand] at rejected
    simp only [advance, goals', goals, tokens']
    exact rejected
  | cons goal behind =>
    cases signed : goal.sign with
    | terminal kind =>
      simp only [advance, goals, signed, inHand] at rejected
      simp only [advance, goals', goals, signed, tokens']
      split at rejected
      · cases rejected
      · next different =>
        rw [if_neg different]
        exact rejected
    | nonTerminal kind =>
      cases chosen : parser.choose? kind state.lookahead with
      | some choice =>
        simp only [advance, goals, signed, chosen] at rejected
        cases rejected
      | none =>
        simp only [advance, goals, signed, chosen, inHand] at rejected
        simp only [advance, goals', goals, signed, same, chosen, tokens']
        exact rejected
    | epsilon =>
      simp only [advance, goals, signed] at rejected
      cases rejected
    | endMark =>
      simp only [advance, goals, signed] at rejected
      cases rejected

theorem advance_facing_take {goal : Goal T N} {rest : List (Goal T N)} {token : Token T} (tokens : List (Token T))
    (goals : state.goals = goal :: rest) (signed : goal.sign = .terminal token.kind) (others : List (Token T))
    (line : Nat) :
    parser.advance (state.facing (token :: others) line) =
      .next ((state.take goal rest token tokens).facing others line) := by
  simp only [advance, State.facing, goals, signed, if_true]
  rfl

theorem advance_facing_expand {goal : Goal T N} {rest : List (Goal T N)} {kind : N} {index : Nat}
    {production : Production T N} {token : Token T} {tokens : List (Token T)} (goals : state.goals = goal :: rest)
    (signed : goal.sign = .nonTerminal kind) (cell : parser.table.get? kind state.lookahead = some index)
    (found : parser.grammar.productions[index]? = some production) (inHand : state.tokens = token :: tokens)
    (others : List (Token T)) (line : Nat) :
    parser.advance (state.facing (token :: others) line) =
      .next ((state.expand goal rest index production.right).facing (token :: others) line) := by
  have chosen := choose?_eq_some.mpr ⟨cell, found⟩
  have same := lookahead_facing inHand others line
  have line' : state.line = token.line := by simp only [State.line, inHand]
  have goals' : (state.facing (token :: others) line).goals = goal :: rest := goals
  simp only [advance, goals', signed, same, chosen, State.expand, line']
  rfl

/-- A stretch of rounds goes the same way when the tokens behind the one that it stops at are others. -/
theorem after_facing (valid : parser.grammar.Valid) {count : Nat} (placed : Placed state)
    (reached : parser.after count state = some last) {token : Token T} {rest : List (Token T)}
    (inHand : last.tokens = token :: rest) :
    ∃ shared, state.tokens = shared ++ token :: rest ∧ ∀ others line,
      parser.after count (state.facing (shared ++ token :: others) line) = some (last.facing (token :: others) line) := by
  induction count generalizing state with
  | zero =>
    cases reached
    exact ⟨[], inHand, fun _ _ => rfl⟩
  | succ count ih =>
    obtain ⟨next, moved, further⟩ := after_succ.mp reached
    obtain ⟨shared, tokens, going⟩ := ih (placed.advance valid moved) further
    rcases advance_next_cases moved with ⟨goal, behind, first, _, goals, signed, inHand', rfl⟩ |
      ⟨goal, behind, kind, index, production, goals, signed, cell, found, rfl⟩ | ⟨goal, behind, goals, mark, _⟩
    · refine ⟨first :: shared, ?_, ?_⟩
      · rw [inHand', List.cons_append]
        exact congrArg (first :: ·) tokens
      · intro others line
        exact after_succ.mpr ⟨_, advance_facing_take _ goals signed _ line, going others line⟩
    · refine ⟨shared, tokens, ?_⟩
      intro others line
      obtain ⟨first, more, front⟩ : ∃ first more, ∀ back, shared ++ token :: back = first :: (more ++ back) := by
        cases shared with
        | nil => exact ⟨token, [], fun _ => rfl⟩
        | cons first shared => exact ⟨first, shared ++ [token], fun back => by simp⟩
      change state.tokens = shared ++ token :: rest at tokens
      rw [front] at tokens
      have further := going others line
      rw [front] at further ⊢
      exact after_succ.mpr ⟨_, advance_facing_expand goals signed cell found tokens _ line, further⟩
    · exact absurd mark (placed.no_mark goals)

omit [DecidableEq T] in
theorem initial_facing (parser : Parser T N) (shared : List (Token T)) (token : Token T) (rest others : List (Token T)) :
    ∃ line, parser.initial (shared ++ token :: others) =
      (parser.initial (shared ++ token :: rest)).facing (shared ++ token :: others) line := by
  cases shared with
  | nil => exact ⟨_, rfl⟩
  | cons first shared => exact ⟨_, rfl⟩

theorem lastLine_after {count : Nat} (reached : parser.after count state = some last) :
    last.lastLine = state.lastLine := by
  refine after_induction (P := fun other => other.lastLine = state.lastLine) ?_ rfl reached
  intro before after same moved
  rcases advance_next_cases moved with ⟨_, _, _, _, _, _, _, rfl⟩ | ⟨_, _, _, _, _, _, _, _, _, rfl⟩ |
    ⟨_, _, _, _, rfl⟩
  · exact same
  · exact same
  · exact same

section Failure
variable [DecidableEq N] [Std.TransOrd T] [Std.TransOrd N] [Std.LawfulEqOrd T] [Std.LawfulEqOrd N]

theorem not_accepts_of_error (valid : parser.grammar.Valid)
    (built : Table.build parser.grammar (.ofGrammar parser.grammar) = .ok parser.table) {tokens : List (Token T)}
    {error : SyntaxError T N} (failed : parser.parse tokens = .error error) :
    ¬ parser.grammar.Accepts (tokens.map Token.kind) := by
  intro accepted
  obtain ⟨tree, rooted, conforming, leaves⟩ := Grammar.accepts_iff_tree.mp accepted
  obtain ⟨parsed, same⟩ := parse_of_tree valid built rooted conforming leaves.symm
  rw [failed] at same
  cases same

theorem accepts_of_parse (valid : parser.grammar.Valid)
    (built : Table.build parser.grammar (.ofGrammar parser.grammar) = .ok parser.table) {tokens : List (Token T)}
    {tree : Tree T N} (parsed : parser.parse tokens = .ok tree) :
    parser.grammar.Accepts (tokens.map Token.kind) := by
  obtain ⟨rooted, conforming, labels⟩ := parse_sound valid (typed_of_build built) parsed
  exact Grammar.accepts_iff_tree.mpr ⟨tree, rooted, conforming, leaves_of_leafLabels labels⟩

/-- What has been read continues to a word. -/
theorem viable_after (valid : parser.grammar.Valid)
    (built : Table.build parser.grammar (.ofGrammar parser.grammar) = .ok parser.table)
    (productive : ∀ kind ∈ Grammar.lefts parser.grammar.productions, parser.grammar.Productive (.nonTerminal kind))
    {tokens : List (Token T)} {count : Nat} (reached : parser.after count (parser.initial tokens) = some last) :
    ∃ consumed, tokens = consumed ++ last.tokens ∧ parser.grammar.Viable (consumed.map Token.kind) := by
  obtain ⟨consumed, split, derived⟩ :=
    derives_after valid (typed_of_build built) (placed_initial parser tokens) reached
  have each : ∀ sign ∈ last.goals.map Goal.sign, parser.grammar.Productive sign := by
    intro sign member
    obtain ⟨goal, present, rfl⟩ := List.mem_map.mp member
    rcases (shallow_after valid built reached).signs goal present with ⟨kind, signed⟩ | ⟨kind, known, signed⟩
    · rw [signed]
      exact Grammar.productive_terminal _ kind
    · rw [signed]
      exact productive kind known
  obtain ⟨word, rest⟩ := Grammar.word_of_productive each
  refine ⟨consumed, split, word, derived.trans ?_⟩
  rw [List.map_append]
  exact Grammar.Derives.append .refl rest

/-- A parse that fails at a token fails in the same way whatever comes behind the token. -/
theorem fails_alike (valid : parser.grammar.Valid)
    (built : Table.build parser.grammar (.ofGrammar parser.grammar) = .ok parser.table) {tokens : List (Token T)}
    {count : Nat} (reached : parser.after count (parser.initial tokens) = some last) {token : Token T}
    {rest : List (Token T)} (inHand : last.tokens = token :: rest) {error : SyntaxError T N}
    (rejected : parser.advance last = .reject error) :
    ∃ shared, tokens = shared ++ token :: rest ∧
      ∀ others, parser.parse (shared ++ token :: others) = .error error := by
  obtain ⟨shared, split, going⟩ := after_facing valid (placed_initial parser tokens) reached inHand
  change tokens = shared ++ token :: rest at split
  subst split
  refine ⟨shared, rfl, ?_⟩
  intro others
  obtain ⟨line, same⟩ := initial_facing parser shared token rest others
  have reached' := going others line
  rw [← same] at reached'
  exact parse_of_reject valid built reached' (advance_facing_reject inHand rejected others line)

theorem not_viable_of_errors (valid : parser.grammar.Valid)
    (built : Table.build parser.grammar (.ofGrammar parser.grammar) = .ok parser.table) {shared : List (Token T)}
    {token : Token T} {error : SyntaxError T N}
    (failing : ∀ others, parser.parse (shared ++ token :: others) = .error error) :
    ¬ parser.grammar.Viable ((shared ++ [token]).map Token.kind) := by
  rintro ⟨word, accepted⟩
  have failed := failing (word.map fun kind => ⟨kind, "", 0⟩)
  apply not_accepts_of_error valid built failed
  have kinds : (word.map fun kind => (⟨kind, "", 0⟩ : Token T)).map Token.kind = word := by
    rw [List.map_map]
    exact List.map_id word
  rw [List.map_append, List.map_cons, kinds]
  simpa using accepted

/-- A parse fails at a token that no word has in this place, or at the end of what is not yet a word. -/
theorem failure_cases (valid : parser.grammar.Valid)
    (built : Table.build parser.grammar (.ofGrammar parser.grammar) = .ok parser.table)
    (productive : ∀ kind ∈ Grammar.lefts parser.grammar.productions, parser.grammar.Productive (.nonTerminal kind))
    {tokens : List (Token T)} {error : SyntaxError T N} (failed : parser.parse tokens = .error error) :
    (∃ shared token rest, tokens = shared ++ token :: rest ∧ parser.grammar.Viable (shared.map Token.kind) ∧
      ¬ parser.grammar.Viable ((shared ++ [token]).map Token.kind) ∧ error.Blames token ∧
      ∀ others, parser.parse (shared ++ token :: others) = .error error) ∨
    (∃ expected, error = .unexpectedEnd expected ((tokens.getLast?.map Token.line).getD 1)) ∧
      parser.grammar.Viable (tokens.map Token.kind) := by
  obtain ⟨count, last, reached, rejected⟩ := rounds_of_error valid built failed
  obtain ⟨consumed, split, viable⟩ := viable_after valid built productive reached
  rcases advance_reject rejected with ⟨token, rest, inHand, blamed⟩ | ⟨none, expected, atEnd⟩
  · obtain ⟨shared, split', failing⟩ := fails_alike valid built reached inHand rejected
    obtain rfl : consumed = shared := by
      rw [inHand, split'] at split
      exact (List.append_cancel_right split).symm
    exact .inl ⟨consumed, token, rest, split', viable, not_viable_of_errors valid built failing, blamed, failing⟩
  · rw [none, List.append_nil] at split
    subst split
    rw [lastLine_after reached] at atEnd
    exact .inr ⟨⟨expected, atEnd⟩, viable⟩

end Failure

end Parser

namespace Language

/-- One rule for each non-terminal, behind the rules of the non-terminals that it uses. -/
def groundRules : List Rule :=
  [.typeInt, .varDefineScalar, .defineTypeVar, .define, .defineListEmpty, .program, .paramsEmpty,
    .arraySubscriptEmpty, .param, .paramFollowEmpty, .paramList, .localVarDefine, .localDefineListEmpty,
    .codeListEmpty, .codeBlock, .funDefineFollow, .factorNum, .mulOpStar, .termFollowEmpty, .term, .addOpPlus,
    .additiveFollowEmpty, .additiveExpr, .relOpLt, .expressionFollowEmpty, .expression, .varFollowEmpty,
    .argListFollowEmpty, .argList, .argsEmpty, .callFollow, .idFactorVar, .normalFollowCall,
    .normalStatementEmpty, .selectionEmpty, .selection, .iterationBlock, .iteration, .returnVoid,
    .returnStatement, .codeNormal]

theorem productive (kind : NonTerminal) : grammar.Productive (.nonTerminal kind) := by
  have members : ∀ production ∈ groundRules.map Rule.production, production ∈ grammar.productions := by
    decide +kernel
  have ground : Grammar.grounded [] (groundRules.map Rule.production) = true := by
    decide +kernel
  have each := Grammar.productive_of_grounded (by simp) members ground
  have present : kind ∈ (groundRules.map Rule.production).map Production.left := by
    cases kind <;> decide
  obtain ⟨production, member, rfl⟩ := List.mem_map.mp present
  exact each production member

/-- A parse of these tokens fails in this place. What comes before the place continues to a word. A token in the
place is one that no word has there; the error is laid at it, and stays the same whatever comes behind the token.
The place behind the last token means that the tokens are the beginning of a word but no word yet. -/
structure FailsAt (tokens : List (Token Terminal)) (place : Nat) (error : SyntaxError Terminal NonTerminal) :
    Prop where
  inside : place ≤ tokens.length
  viable : grammar.Viable ((tokens.take place).map Token.kind)
  token : ∀ token, tokens[place]? = some token →
    ¬ grammar.Viable ((tokens.take (place + 1)).map Token.kind) ∧ error.Blames token ∧
      ∀ others, parseTokens (tokens.take (place + 1) ++ others) = .error (.syntactic error)
  finish : place = tokens.length →
    (∃ expected, error = .unexpectedEnd expected ((tokens.getLast?.map Token.line).getD 1)) ∧
      ¬ grammar.Accepts (tokens.map Token.kind) ∧ ∃ more, more ≠ [] ∧ grammar.Accepts (tokens.map Token.kind ++ more)

theorem parseTokens_eq_error {tokens : List (Token Terminal)} {fault : CompileError} :
    parseTokens tokens = .error fault ↔ ∃ error, fault = .syntactic error ∧ parser.parse tokens = .error error := by
  rw [parseTokens]
  cases parser.parse tokens with
  | error error => simp [Except.mapError, eq_comm]
  | ok tree => simp [Except.mapError]

theorem failsAt_of_error {tokens : List (Token Terminal)} {error : SyntaxError Terminal NonTerminal}
    (failed : parser.parse tokens = .error error) : ∃ place, FailsAt tokens place error := by
  have short := Parser.not_accepts_of_error grammar_valid parser_built failed
  rcases Parser.failure_cases grammar_valid parser_built (fun kind _ => productive kind) failed with
    ⟨shared, token, rest, rfl, viable, bad, blamed, failing⟩ | ⟨atEnd, more, accepted⟩
  · have front : (shared ++ token :: rest).take (shared.length + 1) = shared ++ [token] := by
      rw [List.append_cons, List.take_left' (by simp)]
    refine ⟨shared.length, by simp, ?_, ?_, ?_⟩
    · rwa [List.take_left]
    · intro found here
      rw [List.getElem?_append_right (Nat.le_refl _), Nat.sub_self, List.getElem?_cons_zero] at here
      cases here
      rw [front]
      refine ⟨bad, blamed, ?_⟩
      intro others
      rw [List.append_assoc]
      exact parseTokens_eq_error.mpr ⟨error, rfl, failing others⟩
    · intro whole
      simp at whole
  · refine ⟨tokens.length, Nat.le_refl _, ?_, ?_, ?_⟩
    · rw [List.take_length]
      exact ⟨more, accepted⟩
    · intro token here
      simp at here
    · intro _
      refine ⟨atEnd, short, more, ?_, accepted⟩
      rintro rfl
      rw [List.append_nil] at accepted
      exact short accepted

/-- A token that is changed in the tokens of a word is not behind the place where the parse fails. -/
theorem FailsAt.changed_le {tokens : List (Token Terminal)} {place changed : Nat}
    {error : SyntaxError Terminal NonTerminal} {token : Token Terminal}
    (fails : FailsAt (tokens.set changed token) place error) (accepted : grammar.Accepts (tokens.map Token.kind))
    (inside : changed < tokens.length) : changed ≤ place := by
  by_contra earlier
  have before : place < changed := by omega
  have bound : place < (tokens.set changed token).length := by
    rw [List.length_set]
    omega
  obtain ⟨bad, _⟩ := fails.token _ (List.getElem?_eq_getElem bound)
  apply bad
  rw [List.take_set_of_le (by omega)]
  refine ⟨(tokens.drop (place + 1)).map Token.kind, ?_⟩
  rwa [← List.map_append, List.take_append_drop]

/-- A syntax error is reported at the first token that cannot be right: there is a place such that the tokens
before it begin a word and those up to it do not, or all tokens begin a word that they are not. Hence if one token
of an accepted list is changed, the parse fails there or later. -/
theorem syntax_error_at_first_bad_token (tokens : List (Token Terminal)) (fault : CompileError)
    (failed : parseTokens tokens = .error fault) :
    ∃ place error, fault = .syntactic error ∧ FailsAt tokens place error ∧
      ∀ original tree changed token, parseTokens original = .ok tree → changed < original.length →
        tokens = original.set changed token → changed ≤ place := by
  obtain ⟨error, rfl, rejected⟩ := parseTokens_eq_error.mp failed
  obtain ⟨place, fails⟩ := failsAt_of_error rejected
  refine ⟨place, error, rfl, fails, ?_⟩
  intro original tree changed token parsed inside same
  subst same
  have accepted := Parser.accepts_of_parse grammar_valid parser_built (parseTokens_eq_ok.mp parsed)
  exact fails.changed_le accepted inside

/-- `int x ;` with a parenthesis in place of the semicolon fails at the parenthesis. -/
theorem syntax_error_after_declarator :
    (∃ tree, parseTokens [⟨.intWord, "int", 1⟩, ⟨.ident, "x", 1⟩, ⟨.semicolon, ";", 2⟩] = .ok tree) ∧
      parseTokens [⟨.intWord, "int", 1⟩, ⟨.ident, "x", 1⟩, ⟨.rparen, ")", 2⟩] =
        .error (.syntactic (.unexpectedToken .defineType ")" 2)) ∧
      ∃ place, 2 ≤ place ∧ FailsAt [⟨.intWord, "int", 1⟩, ⟨.ident, "x", 1⟩, ⟨.rparen, ")", 2⟩] place
        (.unexpectedToken .defineType ")" 2) := by
  have succeeds : (parser.parseWithin 20 [⟨.intWord, "int", 1⟩, ⟨.ident, "x", 1⟩, ⟨.semicolon, ";", 2⟩]).map
      Except.isOk = some true := by
    decide +kernel
  have ran : parser.runWithin 20 (parser.initial [⟨.intWord, "int", 1⟩, ⟨.ident, "x", 1⟩, ⟨.rparen, ")", 2⟩]) =
      some (.error (.unexpectedToken .defineType ")" 2)) := by
    decide +kernel
  have failed : parseTokens [⟨.intWord, "int", 1⟩, ⟨.ident, "x", 1⟩, ⟨.rparen, ")", 2⟩] =
      .error (.syntactic (.unexpectedToken .defineType ")" 2)) := by
    rw [parseTokens, Parser.parse, Parser.run_of_runWithin ran]
    rfl
  obtain ⟨answer, done, isOk⟩ := Option.map_eq_some_iff.mp succeeds
  obtain ⟨place, error, same, fails, later⟩ := syntax_error_at_first_bad_token _ _ failed
  cases same
  cases answer with
  | error error => cases isOk
  | ok tree =>
    have parsed := parseTokens_eq_ok.mpr (Parser.parse_of_parseWithin done)
    exact ⟨⟨tree, parsed⟩, failed, place, later _ tree 2 _ parsed (by decide) rfl, fails⟩

end Language

end Minuscule
