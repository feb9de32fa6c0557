import Minuscule.Proofs.Rounds

/-!
Numbers that a parse carries along without looking at them. The lines of the tokens and the indices of the productions
go into the arena, the tree and the errors, and the loop decides nothing by them. So a parser whose table gives other
indices to the same productions, on tokens that stand on other lines, goes through the same rounds: what it leaves is
what the first one leaves, with the numbers changed.
-/

namespace Minuscule

/-- Another line for each line, and another index for each index. -/
structure Renumbering where
  line : Nat → Nat
  index : Nat → Nat

namespace Renumbering
variable {T N : Type} (change : Renumbering)

def token (token : Token T) : Token T :=
  { token with line := change.line token.line }

def label (label : Label T N) : Label T N :=
  { label with production := label.production.map change.index, line := change.line label.line }

mutual

def tree : Tree T N → Tree T N
  | .node label children => .node (change.label label) (trees children)

def trees : List (Tree T N) → List (Tree T N)
  | [] => []
  | first :: rest => tree first :: trees rest

end

def pending (node : Pending T N) : Pending T N :=
  { node with label := change.label node.label }

def arena (arena : Arena T N) : Arena T N :=
  arena.map change.pending

def error : SyntaxError T N → SyntaxError T N
  | .mismatch expected found line => .mismatch expected found (change.line line)
  | .unexpectedToken nonTerminal found line => .unexpectedToken nonTerminal found (change.line line)
  | .unexpectedEnd expected line => .unexpectedEnd expected (change.line line)
  | .endless nonTerminal line => .endless nonTerminal (change.line line)

def state (state : Parser.State T N) : Parser.State T N :=
  { state with
    arena := change.arena state.arena
    tokens := state.tokens.map change.token
    lastLine := change.line state.lastLine }

def step : Parser.Step T N → Parser.Step T N
  | .next state => .next (change.state state)
  | .accept arena => .accept (change.arena arena)
  | .reject error => .reject (change.error error)

theorem trees_eq_map (forest : List (Tree T N)) : change.trees forest = forest.map change.tree := by
  induction forest with
  | nil => rfl
  | cons first rest ih => rw [trees, ih, List.map_cons]

/-! Arenas. -/

theorem size_arena (arena : Arena T N) : (change.arena arena).size = arena.size :=
  Array.size_map

theorem arena_modify (arena : Arena T N) (place : Nat) {update update' : Pending T N → Pending T N}
    (same : ∀ node, change.pending (update node) = update' (change.pending node)) :
    change.arena (arena.modify place update) = (change.arena arena).modify place update' := by
  apply Array.ext
  · simp [Renumbering.arena]
  · intro other _ _
    simp only [Renumbering.arena, Array.getElem_map, Array.getElem_modify]
    split
    · exact same _
    · rfl

theorem arena_fill (arena : Arena T N) (place : Nat) (lexeme : String) (line : Nat) :
    change.arena (arena.fill place lexeme line) = (change.arena arena).fill place lexeme (change.line line) :=
  change.arena_modify arena place fun _ => rfl

theorem arena_expand (arena : Arena T N) (place index : Nat) (right : List (Sign T N)) (line : Nat) :
    change.arena (arena.expand place index right line) =
      (change.arena arena).expand place (change.index index) right (change.line line) := by
  have fresh : (right.map (Pending.bare · line)).map change.pending = right.map (Pending.bare · (change.line line)) := by
    rw [List.map_map]
    rfl
  have join (front : Arena T N) (back : List (Pending T N)) :
      change.arena (front ++ back) = change.arena front ++ back.map change.pending := by
    apply Array.toList_inj.mp
    simp [Renumbering.arena]
  rw [Arena.expand, Arena.expand, size_arena, join, fresh]
  congr 1
  apply change.arena_modify
  exact fun _ => rfl

theorem assemble?_arena (arena : Arena T N) :
    (change.arena arena).assemble? = arena.assemble?.map change.tree := by
  have grow (size : Nat) (node : Pending T N) (built : Array (Tree T N)) :
      Arena.grow size (change.pending node) (built.map change.tree) =
        (Arena.grow size node built).map change.tree := by
    rw [Arena.grow, Arena.grow, Array.map_push, tree, trees_eq_map, List.map_filterMap]
    simp only [Array.getElem?_map]
    rfl
  have built (nodes : List (Pending T N)) (size : Nat) :
      (nodes.map change.pending).foldr (Arena.grow size) #[] =
        (nodes.foldr (Arena.grow size) #[]).map change.tree := by
    induction nodes with
    | nil => exact Array.map_empty.symm
    | cons node rest ih => rw [List.map_cons, List.foldr_cons, ih, grow, List.foldr_cons]
  have whole : (change.arena arena).foldr (Arena.grow arena.size) #[] =
      (arena.foldr (Arena.grow arena.size) #[]).map change.tree := by
    rw [← Array.foldr_toList, ← Array.foldr_toList, Renumbering.arena, Array.toList_map, built]
  rw [Arena.assemble?, Arena.assemble?, size_arena, ← Array.back?_map, ← whole, size_arena]

/-! The loop. -/

variable [Ord T] [Ord N]

/-- A parser for the same start symbol whose table names the same productions, by the changed indices. -/
structure Follows (parser parser' : Parser T N) : Prop where
  start : parser'.grammar.start = parser.grammar.start
  length : parser'.grammar.productions.length = parser.grammar.productions.length
  choose : ∀ kind lookahead, parser'.choose? kind lookahead =
    (parser.choose? kind lookahead).map fun choice => (change.index choice.1, choice.2)

variable {change} {parser parser' : Parser T N}

omit [Ord T] [Ord N] in
theorem lookahead_state (state : Parser.State T N) : (change.state state).lookahead = state.lookahead := by
  unfold Parser.State.lookahead Renumbering.state
  cases state.tokens <;> rfl

omit [Ord T] [Ord N] in
theorem line_state (state : Parser.State T N) : (change.state state).line = change.line state.line := by
  unfold Parser.State.line Renumbering.state
  cases state.tokens <;> rfl

omit [Ord T] [Ord N] in
theorem state_take (state : Parser.State T N) (goal : Goal T N) (rest : List (Goal T N)) (token : Token T)
    (tokens : List (Token T)) :
    change.state (state.take goal rest token tokens) =
      (change.state state).take goal rest (change.token token) (tokens.map change.token) := by
  rw [Parser.State.take, Parser.State.take, Renumbering.state, arena_fill]
  rfl

omit [Ord T] [Ord N] in
theorem state_expand (state : Parser.State T N) (goal : Goal T N) (rest : List (Goal T N)) (index : Nat)
    (right : List (Sign T N)) :
    change.state (state.expand goal rest index right) =
      (change.state state).expand goal rest (change.index index) right := by
  have subgoals : (change.state state).subgoals goal right = state.subgoals goal right := by
    unfold Parser.State.subgoals
    rw [show (change.state state).arena.size = state.arena.size from change.size_arena _]
    rfl
  rw [Parser.State.expand, Parser.State.expand, subgoals, line_state, Renumbering.state, arena_expand]
  rfl

variable [DecidableEq T]

theorem Follows.step (follows : change.Follows parser parser') (state : Parser.State T N) :
    parser'.step (change.state state) = change.step (parser.step state) := by
  have tokens : (change.state state).tokens = state.tokens.map change.token := rfl
  cases goals : state.goals with
  | nil =>
    have goals' : (change.state state).goals = [] := goals
    cases inHand : state.tokens <;> simp only [Parser.step, goals, goals', tokens, inHand] <;> rfl
  | cons goal rest =>
    have goals' : (change.state state).goals = goal :: rest := goals
    cases signed : goal.sign with
    | terminal kind =>
      cases inHand : state.tokens with
      | nil =>
        simp only [Parser.step, goals, goals', signed, tokens, inHand]
        rfl
      | cons token tokens' =>
        simp only [Parser.step, goals, goals', signed, tokens, inHand, List.map_cons]
        by_cases same : token.kind = kind
        · have same' : (change.token token).kind = kind := same
          rw [if_pos same, if_pos same', Renumbering.step, state_take]
        · have other : ¬ (change.token token).kind = kind := same
          rw [if_neg same, if_neg other]
          rfl
    | nonTerminal kind =>
      have level : (change.state state).level goal = state.level goal := rfl
      simp only [Parser.step, goals, goals', signed, lookahead_state, follows.choose, level, follows.length, line_state]
      rcases parser.choose? kind state.lookahead with _ | ⟨index, production⟩
      · cases inHand : state.tokens <;> simp only [Option.map_none, tokens, inHand] <;> rfl
      · simp only [Option.map_some]
        by_cases shallow : state.level goal < parser.grammar.productions.length
        · rw [if_pos shallow, if_pos shallow, Renumbering.step, state_expand]
        · rw [if_neg shallow, if_neg shallow]
          rfl
    | epsilon | endMark =>
      simp only [Parser.step, goals, goals', signed]
      rfl

theorem Follows.run (follows : change.Follows parser parser') (state : Parser.State T N) :
    parser'.run (change.state state) = ((parser.run state).map change.arena).mapError change.error := by
  induction state using Parser.run.induct parser with
  | case1 state next moved ih =>
    rw [Parser.run_eq, Parser.run_eq parser, follows.step, moved]
    exact ih
  | case2 state arena moved =>
    rw [Parser.run_eq, Parser.run_eq parser, follows.step, moved]
    rfl
  | case3 state error moved =>
    rw [Parser.run_eq, Parser.run_eq parser, follows.step, moved]
    rfl

omit [DecidableEq T] in
/-- An input without tokens counts as line one, which the change then has to leave alone. -/
theorem Follows.initial (follows : change.Follows parser parser') {tokens : List (Token T)}
    (first : tokens = [] → change.line 1 = 1) :
    parser'.initial (tokens.map change.token) = change.state (parser.initial tokens) := by
  have arena (node : Pending T N) : change.arena #[node] = #[change.pending node] := List.map_toArray
  have line (found : Option (Token T)) (present : found = none → tokens = []) :
      ((found.map change.token).map Token.line).getD 1 = change.line ((found.map Token.line).getD 1) := by
    cases found with
    | none => exact (first (present rfl)).symm
    | some token => rfl
  have head := line tokens.head? List.head?_eq_none_iff.mp
  have last := line tokens.getLast? List.getLast?_eq_none_iff.mp
  rw [Parser.initial, Parser.initial, List.head?_map, List.getLast?_map, head, last, follows.start,
    Renumbering.state, arena]
  rfl

/-- A parse of the changed tokens is the parse of the tokens with its numbers changed. -/
theorem Follows.parse (follows : change.Follows parser parser') {tokens : List (Token T)}
    (first : tokens = [] → change.line 1 = 1) :
    parser'.parse (tokens.map change.token) = ((parser.parse tokens).map change.tree).mapError change.error := by
  have root (start : N) (line : Nat) : change.tree (.node ⟨.nonTerminal start, none, none, line⟩ [] : Tree T N) =
      .node ⟨.nonTerminal start, none, none, change.line line⟩ [] := rfl
  rw [Parser.parse, Parser.parse, follows.initial first, follows.run, follows.start, line_state]
  cases parser.run (parser.initial tokens) with
  | error error => rfl
  | ok arena =>
    change Except.ok ((change.arena arena).assemble?.getD _) = Except.ok (change.tree (arena.assemble?.getD _))
    rw [assemble?_arena, ← root, Option.getD_map]

end Renumbering

end Minuscule
