import Minuscule.Parser

/-!
The loop of the parser, round by round. A round does what the table says and asks for no level; it is what the
parser's own step does wherever the step does not give up on an expansion. What a round can do is said once, and
what rounds keep is carried over any number of them.
-/

namespace Minuscule

/-- The error is laid at a token, with its text and its line. -/
def SyntaxError.Blames {T N : Type} (error : SyntaxError T N) (token : Token T) : Prop :=
  (∃ expected, error = .mismatch expected token.lexeme token.line) ∨
    ∃ nonTerminal, error = .unexpectedToken nonTerminal token.lexeme token.line

namespace Parser
variable {T N : Type} [Ord T] [Ord N] [DecidableEq T]

/-- One round of the loop as the table directs it, whatever the level of the goal in front. -/
def advance (parser : Parser T N) (state : State T N) : Step T N :=
  match state.goals with
  | [] =>
    match state.tokens with
    | [] => .accept state.arena
    | token :: _ => .reject (.mismatch .endMark token.lexeme token.line)
  | goal :: rest =>
    match goal.sign with
    | .terminal kind =>
      match state.tokens with
      | [] => .reject (.unexpectedEnd (.terminal kind) state.lastLine)
      | token :: tokens =>
        if token.kind = kind then .next (state.take goal rest token tokens)
        else .reject (.mismatch (.terminal kind) token.lexeme token.line)
    | .nonTerminal kind =>
      match parser.choose? kind state.lookahead with
      | some (index, production) => .next (state.expand goal rest index production.right)
      | none =>
        match state.tokens with
        | [] => .reject (.unexpectedEnd (.nonTerminal kind) state.lastLine)
        | token :: _ => .reject (.unexpectedToken kind token.lexeme token.line)
    | _ => .next { state with goals := rest }

/-- The state after so many rounds, if the loop goes on for that long. -/
def after (parser : Parser T N) : Nat → State T N → Option (State T N)
  | 0, state => some state
  | count + 1, state =>
    match parser.advance state with
    | .next next => parser.after count next
    | _ => none

variable {parser : Parser T N} {state next : State T N}

theorem after_succ {count : Nat} {last : State T N} :
    parser.after (count + 1) state = some last ↔
      ∃ next, parser.advance state = .next next ∧ parser.after count next = some last := by
  rw [after]
  cases parser.advance state <;> simp

/-- What every round keeps is kept by all of them. -/
theorem after_induction {P : State T N → Prop}
    (preserved : ∀ state next, P state → parser.advance state = .next next → P next)
    {count : Nat} {last : State T N} (start : P state) (reached : parser.after count state = some last) : P last := by
  induction count generalizing state with
  | zero =>
    cases reached
    exact start
  | succ count ih =>
    obtain ⟨next, moved, rest⟩ := after_succ.mp reached
    exact ih (preserved state next start moved) rest

/-- A step is a round, unless it gives up on a goal that is too deep. -/
theorem step_eq_or_endless (parser : Parser T N) (state : State T N) :
    parser.step state = parser.advance state ∨
      ∃ goal rest kind, state.goals = goal :: rest ∧ goal.sign = .nonTerminal kind ∧
        parser.grammar.productions.length ≤ state.level goal ∧
        parser.step state = .reject (.endless kind state.line) := by
  cases goals : state.goals with
  | nil =>
    left
    cases inHand : state.tokens <;> simp only [step, advance, goals, inHand]
  | cons goal rest =>
    cases signed : goal.sign with
    | nonTerminal kind =>
      cases chosen : parser.choose? kind state.lookahead with
      | none =>
        left
        cases inHand : state.tokens <;> simp only [step, advance, goals, signed, chosen, inHand]
      | some choice =>
        by_cases room : state.level goal < parser.grammar.productions.length
        · left
          simp only [step, advance, goals, signed, chosen, if_pos room]
        · refine .inr ⟨goal, rest, kind, rfl, signed, by omega, ?_⟩
          simp only [step, goals, signed, chosen, if_neg room]
    | terminal kind =>
      left
      cases inHand : state.tokens <;> simp only [step, advance, goals, signed, inHand]
    | _ =>
      left
      simp only [step, advance, goals, signed]

theorem advance_of_step_next (moved : parser.step state = .next next) : parser.advance state = .next next := by
  rcases step_eq_or_endless parser state with same | ⟨_, _, _, _, _, _, stopped⟩
  · rwa [same] at moved
  · rw [stopped] at moved
    cases moved

omit [DecidableEq T] in
theorem choose?_eq_some {kind : N} {lookahead : Sign T N} {index : Nat} {production : Production T N} :
    parser.choose? kind lookahead = some (index, production) ↔
      parser.table.get? kind lookahead = some index ∧ parser.grammar.productions[index]? = some production := by
  simp only [choose?, bind, Option.bind_eq_some_iff, pure, Option.some.injEq, Prod.mk.injEq]
  constructor
  · rintro ⟨_, cell, _, found, rfl, rfl⟩
    exact ⟨cell, found⟩
  · rintro ⟨cell, found⟩
    exact ⟨index, cell, production, found, rfl, rfl⟩

/-- What a round that goes on can do: read the token that the first goal asks for, expand the first goal, or drop
a mark. -/
theorem advance_next_cases (moved : parser.advance state = .next next) :
    (∃ goal rest token tokens, state.goals = goal :: rest ∧ goal.sign = .terminal token.kind ∧
      state.tokens = token :: tokens ∧ next = state.take goal rest token tokens) ∨
    (∃ goal rest kind index production, state.goals = goal :: rest ∧ goal.sign = .nonTerminal kind ∧
      parser.table.get? kind state.lookahead = some index ∧
      parser.grammar.productions[index]? = some production ∧
      next = state.expand goal rest index production.right) ∨
    ∃ goal rest, state.goals = goal :: rest ∧ (goal.sign = .epsilon ∨ goal.sign = .endMark) ∧
      next = { state with goals := rest } := by
  unfold advance at moved
  split at moved
  · split at moved <;> cases moved
  · next goal rest goals =>
    split at moved
    · next kind signed =>
      split at moved
      · cases moved
      · next token tokens inHand =>
        split at moved
        · next same =>
          cases moved
          exact .inl ⟨goal, rest, token, tokens, goals, same ▸ signed, inHand, rfl⟩
        · cases moved
    · next kind signed =>
      split at moved
      · next index production chosen =>
        cases moved
        obtain ⟨cell, found⟩ := choose?_eq_some.mp chosen
        exact .inr (.inl ⟨goal, rest, kind, index, production, goals, signed, cell, found, rfl⟩)
      · split at moved <;> cases moved
    · next noTerminal noNonTerminal =>
      cases moved
      refine .inr (.inr ⟨goal, rest, goals, ?_, rfl⟩)
      cases signed : goal.sign with
      | terminal kind => exact absurd signed (noTerminal kind)
      | nonTerminal kind => exact absurd signed (noNonTerminal kind)
      | epsilon => exact .inl rfl
      | endMark => exact .inr rfl

/-- Tokens are only ever read from the front. -/
theorem tokens_suffix_after {count : Nat} {last : State T N} (reached : parser.after count state = some last) :
    last.tokens <:+ state.tokens := by
  refine after_induction (P := fun other => other.tokens <:+ state.tokens) ?_ (List.suffix_refl _) reached
  intro before after earlier moved
  rcases advance_next_cases moved with ⟨_, _, token, tokens, _, _, inHand, rfl⟩ | ⟨_, _, _, _, _, _, _, _, _, rfl⟩ |
    ⟨_, _, _, _, rfl⟩
  · rw [inHand] at earlier
    exact (List.suffix_cons token tokens).trans earlier
  · exact earlier
  · exact earlier

/-- A step that goes on does what a round does. -/
theorem step_next_cases (moved : parser.step state = .next next) :
    (∃ goal rest token tokens, state.goals = goal :: rest ∧ goal.sign = .terminal token.kind ∧
      state.tokens = token :: tokens ∧ next = state.take goal rest token tokens) ∨
    (∃ goal rest kind index production, state.goals = goal :: rest ∧ goal.sign = .nonTerminal kind ∧
      parser.table.get? kind state.lookahead = some index ∧
      parser.grammar.productions[index]? = some production ∧
      next = state.expand goal rest index production.right) ∨
    ∃ goal rest, state.goals = goal :: rest ∧ (goal.sign = .epsilon ∨ goal.sign = .endMark) ∧
      next = { state with goals := rest } :=
  advance_next_cases (advance_of_step_next moved)

theorem advance_accept {arena : Arena T N} (accepted : parser.advance state = .accept arena) :
    state.goals = [] ∧ state.tokens = [] ∧ arena = state.arena := by
  unfold advance at accepted
  grind

/-- A round that rejects lays the error at the token in hand or, when there is none, at the end. -/
theorem advance_reject {error : SyntaxError T N} (rejected : parser.advance state = .reject error) :
    (∃ token rest, state.tokens = token :: rest ∧ error.Blames token) ∨
      state.tokens = [] ∧ ∃ expected, error = .unexpectedEnd expected state.lastLine := by
  unfold advance at rejected
  split at rejected
  · split at rejected
    · cases rejected
    · next token rest inHand =>
      cases rejected
      exact .inl ⟨token, rest, inHand, .inl ⟨_, rfl⟩⟩
  · split at rejected
    · split at rejected
      · next none =>
        cases rejected
        exact .inr ⟨none, _, rfl⟩
      · next token rest inHand =>
        split at rejected
        · cases rejected
        · cases rejected
          exact .inl ⟨token, rest, inHand, .inl ⟨_, rfl⟩⟩
    · split at rejected
      · cases rejected
      · split at rejected
        · next none =>
          cases rejected
          exact .inr ⟨none, _, rfl⟩
        · next token rest inHand =>
          cases rejected
          exact .inl ⟨token, rest, inHand, .inr ⟨_, rfl⟩⟩
    · cases rejected

theorem ne_endless_of_reject {error : SyntaxError T N} (rejected : parser.advance state = .reject error) (kind : N)
    (line : Nat) : error ≠ .endless kind line := by
  rintro rfl
  rcases advance_reject rejected with ⟨_, _, _, ⟨_, other⟩ | ⟨_, other⟩⟩ | ⟨_, _, other⟩ <;> cases other

theorem run_eq (parser : Parser T N) (state : State T N) :
    parser.run state = match parser.step state with
      | .next state => parser.run state
      | .accept arena => .ok arena
      | .reject error => .error error := by
  rw [run]
  split
  · next same => rw [same]
  · next same => rw [same]
  · next same => rw [same]

/-- An accepted run is a number of rounds of the loop. -/
theorem rounds_of_run {arena : Arena T N} (accepted : parser.run state = .ok arena) :
    ∃ count last, parser.after count state = some last ∧ parser.advance last = .accept arena := by
  induction state using run.induct parser with
  | case1 state next moved ih =>
    rw [run_eq, moved] at accepted
    obtain ⟨count, last, reached, done⟩ := ih accepted
    exact ⟨count + 1, last, after_succ.mpr ⟨next, advance_of_step_next moved, reached⟩, done⟩
  | case2 state arena' moved =>
    rw [run_eq, moved] at accepted
    cases accepted
    rcases step_eq_or_endless parser state with same | ⟨_, _, _, _, _, _, stopped⟩
    · exact ⟨0, state, rfl, same.symm.trans moved⟩
    · rw [stopped] at moved
      cases moved
  | case3 state error moved =>
    rw [run_eq, moved] at accepted
    cases accepted

end Parser

end Minuscule
