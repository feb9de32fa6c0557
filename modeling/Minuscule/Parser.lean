import Minuscule.Grammar.Table
import Minuscule.Measure
import Minuscule.SyntaxError
import Minuscule.Token
import Minuscule.Tree.Arena

/-!
The predictive parser. It works off a list of goals, each a sign together with the node that it will
fill. A terminal has to match the token in hand; a non-terminal is replaced by the right-hand side that
the table gives for the token in hand; when no goal is left, no token may be left either. The first
thing that does not fit ends the parse.

A goal's level counts the expansions above it since the last token was read. If it passes the number of
productions, some non-terminal lies below itself with nothing read in between, and the table would go
on expanding it. The parser gives up there, so that it ends on every table.
-/

namespace Minuscule

structure Goal (T N : Type) where
  sign : Sign T N
  place : Nat
  /-- Tokens that had been read when the goal was set. -/
  since : Nat
  /-- Expansions above the goal since the token before it was read. -/
  level : Nat
  deriving DecidableEq, Repr

structure Parser (T N : Type) [Ord T] [Ord N] where
  grammar : Grammar T N
  table : Table T N

namespace Parser
variable {T N : Type}

structure State (T N : Type) where
  arena : Arena T N
  goals : List (Goal T N)
  tokens : List (Token T)
  read : Nat
  lastLine : Nat

inductive Step (T N : Type) where
  | next (state : State T N)
  | accept (arena : Arena T N)
  | reject (error : SyntaxError T N)

namespace State

def lookahead (state : State T N) : Sign T N :=
  match state.tokens with
  | [] => .endMark
  | token :: _ => .terminal token.kind

def line (state : State T N) : Nat :=
  match state.tokens with
  | [] => state.lastLine
  | token :: _ => token.line

/-- Levels count from the last token that was read. -/
def level (state : State T N) (goal : Goal T N) : Nat :=
  if goal.since = state.read then goal.level else 0

/-- Takes the token in hand for the node of a goal. -/
def take (state : State T N) (goal : Goal T N) (rest : List (Goal T N)) (token : Token T)
    (tokens : List (Token T)) : State T N :=
  { state with
    arena := state.arena.fill goal.place token.lexeme token.line
    goals := rest
    tokens := tokens
    read := state.read + 1 }

/-- The signs of a right-hand side as goals, at the places that their nodes are about to get. -/
def subgoals (state : State T N) (goal : Goal T N) (right : List (Sign T N)) : List (Goal T N) :=
  (right.zipIdx state.arena.size).map fun (sign, place) =>
    ⟨sign, place, state.read, state.level goal + 1⟩

/-- Puts the signs of a right-hand side in the place of a goal. -/
def expand (state : State T N) (goal : Goal T N) (rest : List (Goal T N)) (index : Nat)
    (right : List (Sign T N)) : State T N :=
  let line := state.line
  let goals := state.subgoals goal right ++ rest
  { state with arena := state.arena.expand goal.place index right line, goals := goals }

end State

/-- The production that the table gives for a non-terminal. -/
def choose? [Ord T] [Ord N] (parser : Parser T N) (nonTerminal : N) (lookahead : Sign T N) :
    Option (Nat × Production T N) := do
  let index ← parser.table.get? nonTerminal lookahead
  let production ← parser.grammar.productions[index]?
  return (index, production)

def step [Ord T] [Ord N] [DecidableEq T] (parser : Parser T N) (state : State T N) : Step T N :=
  match state.goals with
  | [] =>
    match state.tokens with
    | [] => .accept state.arena
    | token :: _ => .reject (.mismatch .endMark token.lexeme token.line)
  | goal :: rest =>
    match goal.sign with
    | .terminal kind =>
      match state.tokens with
      | [] => .reject (.unexpectedEnd (.terminal kind) state.lastLine)
      | token :: tokens =>
        if token.kind = kind then .next (state.take goal rest token tokens)
        else .reject (.mismatch (.terminal kind) token.lexeme token.line)
    | .nonTerminal kind =>
      match parser.choose? kind state.lookahead with
      | some (index, production) =>
        if state.level goal < parser.grammar.productions.length then
          .next (state.expand goal rest index production.right)
        else .reject (.endless kind state.line)
      | none =>
        match state.tokens with
        | [] => .reject (.unexpectedEnd (.nonTerminal kind) state.lastLine)
        | token :: _ => .reject (.unexpectedToken kind token.lexeme token.line)
    | _ => .next { state with goals := rest }

/-! A goal weighs a power of the grammar's breadth that drops with its level. An expansion replaces a
goal by at most that many goals of the next level, which weigh less together. -/

def breadth (grammar : Grammar T N) : Nat :=
  sumOf (fun production => production.right.length) grammar.productions

theorem length_le_breadth {grammar : Grammar T N} {production : Production T N}
    (member : production ∈ grammar.productions) : production.right.length ≤ breadth grammar :=
  le_sumOf (fun production : Production T N => production.right.length) member

def weight (grammar : Grammar T N) (state : State T N) (goal : Goal T N) : Nat :=
  Nat.pow (breadth grammar + 1) (grammar.productions.length - state.level goal)

def work (grammar : Grammar T N) (state : State T N) : Nat :=
  sumOf (weight grammar state) state.goals

theorem weight_pos (grammar : Grammar T N) (state : State T N) (goal : Goal T N) :
    0 < weight grammar state goal :=
  Nat.pow_pos (by omega)

theorem weight_of_read {grammar : Grammar T N} {before after : State T N}
    (same : after.read = before.read) : weight grammar after = weight grammar before := by
  funext goal
  simp only [weight, State.level, same]

theorem sum_subgoals (grammar : Grammar T N) (state : State T N) (goal : Goal T N)
    (right : List (Sign T N)) :
    sumOf (weight grammar state) (state.subgoals goal right) =
      right.length * Nat.pow (breadth grammar + 1) (grammar.productions.length - (state.level goal + 1)) := by
  have each : ∀ subgoal ∈ state.subgoals goal right, weight grammar state subgoal =
      Nat.pow (breadth grammar + 1) (grammar.productions.length - (state.level goal + 1)) := by
    intro subgoal member
    simp only [State.subgoals, List.mem_map] at member
    obtain ⟨entry, _, rfl⟩ := member
    simp [weight, State.level]
  rw [sumOf_eq_mul _ each]
  simp [State.subgoals]

theorem work_expand {grammar : Grammar T N} {state : State T N} {goal : Goal T N}
    {rest : List (Goal T N)} {production : Production T N} (index : Nat)
    (goals : state.goals = goal :: rest) (member : production ∈ grammar.productions)
    (shallow : state.level goal < grammar.productions.length) :
    work grammar (state.expand goal rest index production.right) < work grammar state := by
  have same : weight grammar (state.expand goal rest index production.right) =
      weight grammar state := weight_of_read rfl
  have narrow := length_le_breadth member
  have deeper : grammar.productions.length - state.level goal =
      grammar.productions.length - (state.level goal + 1) + 1 := by omega
  have positive : 0 < Nat.pow (breadth grammar + 1) (grammar.productions.length - (state.level goal + 1)) :=
    Nat.pow_pos (by omega)
  have power : weight grammar state goal =
      Nat.pow (breadth grammar + 1) (grammar.productions.length - (state.level goal + 1)) * (breadth grammar + 1) := by
    rw [weight, deeper]
    rfl
  simp only [work, same, goals, sumOf_cons, power]
  simp only [State.expand, sumOf_append, sum_subgoals]
  have together := Nat.mul_le_mul_right
    (Nat.pow (breadth grammar + 1) (grammar.productions.length - (state.level goal + 1))) narrow
  rw [Nat.mul_add, Nat.mul_one, Nat.mul_comm _ (breadth grammar)]
  omega

/-- A step reads a token, or leaves the tokens alone and lessens the work. -/
theorem step_next [Ord T] [Ord N] [DecidableEq T] {parser : Parser T N} {state next : State T N}
    (moved : parser.step state = .next next) :
    next.tokens.length < state.tokens.length ∨
      next.tokens.length = state.tokens.length ∧
        work parser.grammar next < work parser.grammar state := by
  have dropped {goal : Goal T N} {rest : List (Goal T N)} (goals : state.goals = goal :: rest) :
      work parser.grammar { state with goals := rest } < work parser.grammar state := by
    have same : weight parser.grammar { state with goals := rest } =
        weight parser.grammar state := weight_of_read rfl
    have positive := weight_pos parser.grammar state goal
    simp only [work, same, goals, sumOf_cons]
    omega
  unfold step at moved
  split at moved
  · split at moved <;> cases moved
  · next goal rest goals =>
    split at moved
    · split at moved
      · cases moved
      · next token tokens inHand =>
        split at moved
        · cases moved
          left
          simp [State.take, inHand]
        · cases moved
    · split at moved
      · next index production chosen =>
        split at moved
        · next shallow =>
          cases moved
          right
          refine ⟨rfl, work_expand index goals ?_ shallow⟩
          simp only [choose?, bind, Option.bind_eq_some_iff, pure, Option.some.injEq,
            Prod.mk.injEq] at chosen
          obtain ⟨place, _, found, present, rfl, rfl⟩ := chosen
          exact List.mem_of_getElem? present
        · cases moved
      · split at moved <;> cases moved
    · cases moved
      exact .inr ⟨rfl, dropped goals⟩

/-- Steps until the goals are met or one of them cannot be. -/
def run [Ord T] [Ord N] [DecidableEq T] (parser : Parser T N) (state : State T N) :
    Except (SyntaxError T N) (Arena T N) :=
  match _moved : parser.step state with
  | .next state => parser.run state
  | .accept arena => .ok arena
  | .reject error => .error error
termination_by (state.tokens.length, work parser.grammar state)
decreasing_by
  rcases step_next _moved with fewer | ⟨same, less⟩
  · exact Prod.Lex.left _ _ fewer
  · rw [← same]
    exact Prod.Lex.right _ less

/-- The one goal is the start symbol. It stands on the line of the first token; an input without tokens
counts as line one. -/
def initial [Ord T] [Ord N] (parser : Parser T N) (tokens : List (Token T)) : State T N where
  arena := #[.bare (.nonTerminal parser.grammar.start) ((tokens.head?.map Token.line).getD 1)]
  goals := [⟨.nonTerminal parser.grammar.start, 0, 0, 0⟩]
  tokens := tokens
  read := 0
  lastLine := (tokens.getLast?.map Token.line).getD 1

/-- The parse tree of a token list, rooted at the start symbol. -/
def parse [Ord T] [Ord N] [DecidableEq T] (parser : Parser T N) (tokens : List (Token T)) :
    Except (SyntaxError T N) (Tree T N) := do
  let start := parser.initial tokens
  let arena ← parser.run start
  let root : Label T N := ⟨.nonTerminal parser.grammar.start, none, none, start.line⟩
  return arena.assemble?.getD (.node root [])

end Parser

end Minuscule
