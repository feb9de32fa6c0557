import Minuscule.Compile
import Minuscule.Proofs.Assembly
import Minuscule.Proofs.Levels
import Minuscule.Proofs.Lists

/-!
The parser decides the language of its grammar. A run that accepts leaves an arena in which every goal has
become a conforming tree, and the leaves of these trees are the tokens that were read. Conversely a run with a
grammar's own table follows any row of conforming trees over its tokens to the end, since the table names the
production of the first of them at every step.
-/

namespace Minuscule

/-- The node of a token that was matched. -/
def Token.label {T : Type} (N : Type) (token : Token T) : Label T N :=
  ⟨.terminal token.kind, none, some token.lexeme, token.line⟩

namespace Tree
variable {T N : Type}

/-- The labels of the terminals from left to right. -/
def leafLabels (tree : Tree T N) : List (Label T N) :=
  (tree.subtrees.map label).filter fun label => label.sign.isTerminal

theorem leafLabels_node (label : Label T N) (children : List (Tree T N)) :
    (node label children).leafLabels =
      (if label.sign.isTerminal then [label] else []) ++ children.flatMap leafLabels := by
  rw [leafLabels, subtrees_node, List.map_cons, List.filter_cons, List.map_flatMap, List.filter_flatMap]
  change (if label.sign.isTerminal = true then _ else _) = _
  split <;> rfl

theorem leaves_eq_leafLabels (tree : Tree T N) : tree.leaves.map .terminal = tree.leafLabels.map Label.sign := by
  induction tree using by_children with
  | node label children ih =>
    rw [leaves_node, leafLabels_node, List.map_append, List.map_append, List.map_flatMap, List.map_flatMap,
      List.flatMap_congr ih]
    congr 1
    cases signed : label.sign <;> simp [ownLeaf, Sign.isTerminal, signed]

end Tree

namespace Parser
variable {T N : Type}

/-- Every goal has a node of its own that waits to be filled in. -/
structure Placed (state : State T N) : Prop where
  proper : ∀ goal ∈ state.goals, goal.sign ≠ .epsilon ∧ goal.sign ≠ .endMark
  distinct : (state.goals.map Goal.place).Nodup
  bare : ∀ goal ∈ state.goals, ∃ line, state.arena[goal.place]? = some (.bare goal.sign line)

theorem Placed.inside {state : State T N} (placed : Placed state) {goal : Goal T N} (member : goal ∈ state.goals) :
    goal.place < state.arena.size := by
  obtain ⟨line, found⟩ := placed.bare goal member
  exact (Array.getElem?_eq_some_iff.mp found).1

theorem Placed.different {state : State T N} (placed : Placed state) {goal : Goal T N} {rest : List (Goal T N)}
    (goals : state.goals = goal :: rest) {other : Goal T N} (member : other ∈ rest) : other.place ≠ goal.place := by
  have distinct := placed.distinct
  rw [goals, List.map_cons, List.nodup_cons] at distinct
  exact fun same => distinct.1 (List.mem_map.mpr ⟨other, member, same⟩)

theorem placed_take {state : State T N} (placed : Placed state) {goal : Goal T N} {rest : List (Goal T N)}
    (goals : state.goals = goal :: rest) (token : Token T) (tokens : List (Token T)) :
    Placed (state.take goal rest token tokens) where
  proper other member := placed.proper other (goals ▸ List.mem_cons_of_mem _ member)
  distinct := by
    have distinct := placed.distinct
    rw [goals, List.map_cons, List.nodup_cons] at distinct
    exact distinct.2
  bare other member := by
    obtain ⟨line, found⟩ := placed.bare other (goals ▸ List.mem_cons_of_mem _ member)
    refine ⟨line, ?_⟩
    change (state.arena.fill goal.place token.lexeme token.line)[other.place]? = _
    rw [Arena.getElem?_fill_other _ _ _ (placed.different goals member), found]

theorem map_place_subgoals (state : State T N) (goal : Goal T N) (right : List (Sign T N)) :
    (state.subgoals goal right).map Goal.place = List.range' state.arena.size right.length := by
  rw [State.subgoals, List.map_map]
  exact List.zipIdx_map_snd ..

theorem place_subgoals {state : State T N} {goal sub : Goal T N} {right : List (Sign T N)}
    (member : sub ∈ state.subgoals goal right) :
    ∃ offset, sub.place = state.arena.size + offset ∧ right[offset]? = some sub.sign := by
  obtain ⟨⟨sign, place⟩, present, rfl⟩ := List.mem_map.mp member
  obtain ⟨bound, found⟩ := List.mem_zipIdx_iff_le_and_getElem?_sub.mp present
  exact ⟨place - state.arena.size, by change place = _; omega, found⟩

/-- Goals inside the arena keep out of the way of the subgoals, whose places are new. -/
theorem nodup_places_expand {state : State T N} {rest : List (Goal T N)} (distinct : (rest.map Goal.place).Nodup)
    (inside : ∀ other ∈ rest, other.place < state.arena.size) (goal : Goal T N) (right : List (Sign T N)) :
    ((state.subgoals goal right ++ rest).map Goal.place).Nodup := by
  rw [List.map_append, map_place_subgoals, List.nodup_append]
  refine ⟨List.nodup_range', distinct, ?_⟩
  rintro new fresh old member rfl
  obtain ⟨other, present, same⟩ := List.mem_map.mp member
  have bound := inside other present
  have outside := (List.mem_range'_1.mp fresh).1
  omega

theorem placed_expand {state : State T N} (placed : Placed state) {goal : Goal T N} {rest : List (Goal T N)}
    (goals : state.goals = goal :: rest) (index : Nat) {right : List (Sign T N)}
    (proper : ∀ sign ∈ right, sign ≠ .epsilon ∧ sign ≠ .endMark) :
    Placed (state.expand goal rest index right) where
  proper other member := by
    rcases List.mem_append.mp member with new | old
    · obtain ⟨offset, _, found⟩ := place_subgoals new
      exact proper other.sign (List.mem_of_getElem? found)
    · exact placed.proper other (goals ▸ List.mem_cons_of_mem _ old)
  distinct := by
    have distinct := placed.distinct
    rw [goals, List.map_cons, List.nodup_cons] at distinct
    exact nodup_places_expand distinct.2 (fun other member => placed.inside (goals ▸ List.mem_cons_of_mem _ member))
      goal right
  bare other member := by
    change ∃ line, (state.arena.expand goal.place index right state.line)[other.place]? = _
    rcases List.mem_append.mp member with new | old
    · obtain ⟨offset, place, found⟩ := place_subgoals new
      exact ⟨state.line, place ▸ Arena.getElem?_expand_new _ _ _ _ found⟩
    · have present := goals ▸ List.mem_cons_of_mem goal old
      obtain ⟨line, found⟩ := placed.bare other present
      refine ⟨line, ?_⟩
      rw [Arena.getElem?_expand_other _ _ _ (placed.inside present) (placed.different goals old), found]

theorem Placed.no_mark {state : State T N} (placed : Placed state) {goal : Goal T N} {rest : List (Goal T N)}
    (goals : state.goals = goal :: rest) : ¬ (goal.sign = .epsilon ∨ goal.sign = .endMark) := by
  have proper := placed.proper goal (by simp [goals])
  exact not_or.mpr proper

theorem Placed.not_mem_rest {state : State T N} (placed : Placed state) {goal : Goal T N} {rest : List (Goal T N)}
    (goals : state.goals = goal :: rest) : goal.place ∉ rest.map Goal.place := by
  intro member
  obtain ⟨other, present, same⟩ := List.mem_map.mp member
  exact placed.different goals present same

/-- An expansion adds places that the arena did not have before. -/
theorem not_mem_subgoals {state : State T N} {goal : Goal T N} {right : List (Sign T N)} {place : Nat}
    (inside : place < state.arena.size) : place ∉ (state.subgoals goal right).map Goal.place := by
  rw [map_place_subgoals]
  intro fresh
  have beyond := (List.mem_range'_1.mp fresh).1
  omega

theorem lookahead_eq_front (state : State T N) : state.lookahead = Tree.front (state.tokens.map Token.kind) := by
  unfold State.lookahead
  split
  · next none => rw [none]; rfl
  · next some => rw [some]; rfl

theorem leaves_of_leafLabels {tree : Tree T N} {tokens : List (Token T)}
    (labels : tree.leafLabels = tokens.map (Token.label N)) : tree.leaves = tokens.map Token.kind := by
  have signs := tree.leaves_eq_leafLabels
  rw [labels, List.map_map] at signs
  apply List.map_injective_iff.mpr (fun _ _ same => Sign.terminal.inj same) (signs.trans _)
  rw [List.map_map]
  rfl

variable [Ord T] [Ord N]

/-- Cells lead to productions of their own non-terminal. -/
def Typed (parser : Parser T N) : Prop :=
  ∀ kind lookahead index, parser.table.get? kind lookahead = some index →
    ∃ production, parser.grammar.productions[index]? = some production ∧ production.left = kind

theorem placed_initial (parser : Parser T N) (tokens : List (Token T)) : Placed (parser.initial tokens) where
  proper goal member := by
    cases List.mem_singleton.mp member
    simp
  distinct := List.nodup_singleton _
  bare goal member := by
    cases List.mem_singleton.mp member
    exact ⟨_, rfl⟩

section Tables
variable [Std.TransOrd T] [Std.TransOrd N] [Std.LawfulEqOrd T] [Std.LawfulEqOrd N] {parser : Parser T N}

theorem typed_of_build {sets : Lookahead T N} (built : Table.build parser.grammar sets = .ok parser.table) :
    parser.Typed := by
  intro kind lookahead index cell
  obtain ⟨production, found, left, _⟩ := (Table.get?_eq_some_iff built).mp cell
  exact ⟨production, found, left⟩

/-- Nothing but the end follows a tree over the start symbol. -/
theorem followed_root (valid : parser.grammar.Valid) {tree : Tree T N}
    (rooted : tree.sign = .nonTerminal parser.grammar.start) :
    Tree.Followed (.ofGrammar parser.grammar) [tree] := by
  refine ⟨?_, trivial⟩
  intro kind signed
  obtain rfl : parser.grammar.start = kind := Sign.nonTerminal.inj (rooted.symm.trans signed)
  exact (Lookahead.closed_ofGrammar valid).finish

end Tables

variable [DecidableEq T]

theorem Placed.advance {parser : Parser T N} (valid : parser.grammar.Valid) {state next : State T N}
    (placed : Placed state) (moved : parser.advance state = .next next) : Placed next := by
  rcases advance_next_cases moved with ⟨goal, rest, token, tokens, goals, _, _, rfl⟩ |
    ⟨goal, rest, kind, index, production, goals, _, _, found, rfl⟩ | ⟨goal, rest, goals, mark, _⟩
  · exact placed_take placed goals token tokens
  · apply placed_expand placed goals
    exact fun sign inside => valid.proper (List.mem_of_getElem? found) inside
  · exact absurd mark (placed.no_mark goals)

section Answers
variable [DecidableEq N]

/-- The node of a goal has become a conforming tree. -/
def Met (grammar : Grammar T N) (arena : Arena T N) (goal : Goal T N) (tree : Tree T N) : Prop :=
  tree.sign = goal.sign ∧ tree.conforms grammar = true ∧ arena.Represents goal.place tree

/-- What an accepted run has made of the goals and tokens of a state. -/
def Answered (parser : Parser T N) (state : State T N) (arena : Arena T N) : Prop :=
  (∃ forest, List.Forall₂ (Met parser.grammar arena) state.goals forest ∧
    forest.flatMap Tree.leafLabels = state.tokens.map (Token.label N)) ∧
  ∀ place < state.arena.size, place ∉ state.goals.map Goal.place → arena[place]? = state.arena[place]?

/-- A node that took a token is left alone from there on. -/
theorem Answered.node_of_take {parser : Parser T N} {state : State T N} {arena : Arena T N} (placed : Placed state)
    {goal : Goal T N} {rest : List (Goal T N)} {token : Token T} {tokens : List (Token T)}
    (goals : state.goals = goal :: rest) (signed : goal.sign = .terminal token.kind)
    (answered : Answered parser (state.take goal rest token tokens) arena) :
    arena[goal.place]? = some ⟨token.label N, []⟩ := by
  have here : goal ∈ state.goals := by simp [goals]
  have size : (state.take goal rest token tokens).arena.size = state.arena.size := by simp [State.take, Arena.fill]
  obtain ⟨line, bare⟩ := placed.bare goal here
  rw [answered.2 goal.place (size ▸ placed.inside here) (placed.not_mem_rest goals)]
  change (state.arena.fill goal.place token.lexeme token.line)[goal.place]? = _
  rw [Arena.getElem?_fill_bare bare, signed]
  rfl

theorem answered_take {parser : Parser T N} {state : State T N} {arena : Arena T N} (placed : Placed state)
    {goal : Goal T N} {rest : List (Goal T N)} {token : Token T} {tokens : List (Token T)}
    (goals : state.goals = goal :: rest) (signed : goal.sign = .terminal token.kind)
    (inHand : state.tokens = token :: tokens)
    (answered : Answered parser (state.take goal rest token tokens) arena) : Answered parser state arena := by
  have filled := answered.node_of_take placed goals signed
  obtain ⟨⟨forest, met, leaves⟩, kept⟩ := answered
  have size : (state.take goal rest token tokens).arena.size = state.arena.size := by simp [State.take, Arena.fill]
  rw [size] at kept
  constructor
  · refine ⟨.node (token.label N) [] :: forest, ?_, ?_⟩
    · rw [goals]
      refine .cons ⟨signed.symm, Tree.conforms_leaf rfl rfl, ?_⟩ met
      rw [Arena.represents_node]
      exact ⟨[], filled, by simp, .nil⟩
    · rw [List.flatMap_cons, leaves, inHand, Tree.leafLabels_node]
      rfl
  · intro place inside outside
    rw [goals, List.map_cons, List.mem_cons, not_or] at outside
    rw [kept place inside outside.2]
    exact Arena.getElem?_fill_other _ _ _ outside.1

/-- A node that was expanded is left alone from there on. -/
theorem Answered.node_of_expand {parser : Parser T N} {state : State T N} {arena : Arena T N} (placed : Placed state)
    {goal : Goal T N} {rest : List (Goal T N)} {index : Nat} {right : List (Sign T N)}
    (goals : state.goals = goal :: rest) (answered : Answered parser (state.expand goal rest index right) arena) :
    arena[goal.place]? =
      some ⟨⟨goal.sign, some index, none, state.line⟩, List.range' state.arena.size right.length⟩ := by
  have here : goal ∈ state.goals := by simp [goals]
  have inside := placed.inside here
  have size : (state.expand goal rest index right).arena.size = state.arena.size + right.length :=
    Arena.size_expand ..
  obtain ⟨line, bare⟩ := placed.bare goal here
  rw [answered.2 goal.place (by omega)]
  · change (state.arena.expand goal.place index right state.line)[goal.place]? = _
    rw [Arena.getElem?_expand_bare bare]
  · change goal.place ∉ (state.subgoals goal right ++ rest).map Goal.place
    rw [List.map_append, List.mem_append, not_or]
    exact ⟨not_mem_subgoals inside, placed.not_mem_rest goals⟩

theorem answered_expand {parser : Parser T N} {state : State T N} {arena : Arena T N} (placed : Placed state)
    {goal : Goal T N} {rest : List (Goal T N)} {index : Nat} {production : Production T N}
    (goals : state.goals = goal :: rest) (signed : goal.sign = .nonTerminal production.left)
    (found : parser.grammar.productions[index]? = some production)
    (answered : Answered parser (state.expand goal rest index production.right) arena) :
    Answered parser state arena := by
  have expanded := answered.node_of_expand placed goals
  obtain ⟨⟨forest, met, leaves⟩, kept⟩ := answered
  have goals' : (state.expand goal rest index production.right).goals =
      state.subgoals goal production.right ++ rest := rfl
  have size : (state.expand goal rest index production.right).arena.size = state.arena.size + production.right.length :=
    Arena.size_expand ..
  rw [goals', size] at kept
  rw [goals'] at met
  obtain ⟨children, others, rfl, below, behind⟩ := forall₂_split met
  constructor
  · refine ⟨.node ⟨.nonTerminal production.left, some index, none, state.line⟩ children :: others, ?_, ?_⟩
    · rw [goals]
      refine .cons ⟨signed.symm, ?_, ?_⟩ behind
      · apply Tree.conforms_expanded rfl rfl found
        · rw [← map_sign_subgoals state goal production.right]
          exact map_eq_of_forall₂ below fun _ _ met => met.1.symm
        · exact forall_of_forall₂ below fun _ _ met => met.2.1
      · rw [Arena.represents_node]
        have here : goal ∈ state.goals := by simp [goals]
        have inside := placed.inside here
        refine ⟨List.range' state.arena.size production.right.length, signed ▸ expanded, ?_, ?_⟩
        · intro child fresh
          have outside := (List.mem_range'_1.mp fresh).1
          omega
        · rw [← map_place_subgoals state goal production.right, List.forall₂_map_left_iff]
          exact below.imp fun _ _ met => met.2.2
    · rw [List.flatMap_append] at leaves
      rw [List.flatMap_cons, Tree.leafLabels_node]
      exact leaves
  · intro place inside outside
    rw [goals, List.map_cons, List.mem_cons, not_or] at outside
    rw [kept place (by omega)]
    · exact Arena.getElem?_expand_other _ _ _ inside outside.1
    · rw [List.map_append, List.mem_append, not_or]
      exact ⟨not_mem_subgoals inside, outside.2⟩

/-- Rounds that end in acceptance meet all goals with the tokens that they read. -/
theorem answered_of_after {parser : Parser T N} (valid : parser.grammar.Valid) (typed : parser.Typed) {count : Nat}
    {state last : State T N} (placed : Placed state) {arena : Arena T N}
    (reached : parser.after count state = some last) (accepted : parser.advance last = .accept arena) :
    Answered parser state arena := by
  induction count generalizing state with
  | zero =>
    cases reached
    obtain ⟨goals, tokens, rfl⟩ := advance_accept accepted
    refine ⟨⟨[], ?_, ?_⟩, fun _ _ _ => rfl⟩
    · rw [goals]
      exact .nil
    · rw [tokens]
      rfl
  | succ count ih =>
    obtain ⟨next, moved, rest⟩ := after_succ.mp reached
    have answered := ih (placed.advance valid moved) rest
    rcases advance_next_cases moved with ⟨goal, others, token, tokens, goals, signed, inHand, rfl⟩ |
      ⟨goal, others, kind, index, production, goals, signed, cell, found, rfl⟩ | ⟨goal, others, goals, mark, _⟩
    · exact answered_take placed goals signed inHand answered
    · obtain ⟨production', found', rfl⟩ := typed kind _ index cell
      obtain rfl : production = production' := Option.some.inj (found.symm.trans found')
      exact answered_expand placed goals signed found answered
    · exact absurd mark (placed.no_mark goals)

/-- An accepted run meets all goals with the tokens that it reads. -/
theorem answered_of_run {parser : Parser T N} (valid : parser.grammar.Valid) (typed : parser.Typed)
    {state : State T N} (placed : Placed state) {arena : Arena T N} (accepted : parser.run state = .ok arena) :
    Answered parser state arena := by
  obtain ⟨count, last, reached, done⟩ := rounds_of_run accepted
  exact answered_of_after valid typed placed reached done

/-- A parse that succeeds gives a conforming tree over the start symbol whose terminals are the tokens. -/
theorem parse_sound {parser : Parser T N} (valid : parser.grammar.Valid) (typed : parser.Typed)
    {tokens : List (Token T)} {tree : Tree T N} (parsed : parser.parse tokens = .ok tree) :
    tree.sign = .nonTerminal parser.grammar.start ∧ tree.conforms parser.grammar = true ∧
      tree.leafLabels = tokens.map (Token.label N) := by
  rw [parse] at parsed
  cases ran : parser.run (parser.initial tokens) with
  | error error =>
    rw [ran] at parsed
    cases parsed
  | ok arena =>
    obtain ⟨⟨forest, met, leaves⟩, _⟩ := answered_of_run valid typed (placed_initial parser tokens) ran
    cases met with
    | cons here none =>
      cases none
      rw [ran] at parsed
      obtain ⟨signed, conforming, represented⟩ := here
      simp only [bind, Except.bind, pure, Except.pure, Except.ok.injEq,
        Arena.assemble?_of_represents represented, Option.getD_some] at parsed
      subst parsed
      rw [List.flatMap_cons, List.flatMap_nil, List.append_nil] at leaves
      exact ⟨signed, conforming, leaves⟩

section Complete
variable [Std.TransOrd T] [Std.TransOrd N] [Std.LawfulEqOrd T] [Std.LawfulEqOrd N] {parser : Parser T N}

/-- The goals of a state can be met by trees over the tokens that are left. -/
structure Covered (parser : Parser T N) (state : State T N) (forest : List (Tree T N)) : Prop where
  signs : state.goals.map Goal.sign = forest.map Tree.sign
  conforms : ∀ tree ∈ forest, tree.conforms parser.grammar = true
  followed : Tree.Followed (.ofGrammar parser.grammar) forest
  leaves : forest.flatMap Tree.leaves = state.tokens.map Token.kind

/-- A run follows trees over its tokens to the end. -/
theorem run_of_covered (valid : parser.grammar.Valid)
    (built : Table.build parser.grammar (.ofGrammar parser.grammar) = .ok parser.table) {state : State T N}
    (shallow : Shallow parser state) {forest : List (Tree T N)} (covered : Covered parser state forest) :
    ∃ arena, parser.run state = .ok arena := by
  induction size : Tree.countAll forest using Nat.strong_induction_on generalizing state forest with
  | _ size ih =>
    cases forest with
    | nil =>
      have goals : state.goals = [] := List.map_eq_nil_iff.mp covered.signs
      have tokens : state.tokens = [] := List.map_eq_nil_iff.mp covered.leaves.symm
      refine ⟨state.arena, ?_⟩
      rw [run_eq]
      simp only [step, goals, tokens]
    | cons tree rest =>
      obtain ⟨label, children⟩ := tree
      obtain ⟨goal, goals, split, signed, signs⟩ := List.map_eq_cons_iff.mp covered.signs
      replace signed : goal.sign = label.sign := signed
      have later : ∀ tree ∈ rest, tree.conforms parser.grammar = true :=
        fun tree member => covered.conforms tree (List.mem_cons_of_mem _ member)
      rcases Tree.conforms_cases (covered.conforms _ (List.mem_cons_self ..)) with
        ⟨kind, own, _, rfl⟩ | ⟨index, production, own, _, found, right, below⟩
      · have leaves := covered.leaves
        rw [List.flatMap_cons, Tree.leaves_node, own] at leaves
        obtain ⟨token, tokens, inHand, rfl, remaining⟩ := List.map_eq_cons_iff.mp leaves.symm
        have moved : parser.step state = .next (state.take goal goals token tokens) := by
          simp only [step, split, signed, own, inHand, if_true]
        rw [run_eq, moved]
        apply ih (Tree.countAll rest) _ (shallow.step valid built moved) _ rfl
        · simp only [Tree.countAll, Tree.count] at size
          omega
        · exact ⟨signs, later, covered.followed.2, remaining.symm⟩
      · have closed := Lookahead.closed_ofGrammar valid
        have predicted := Tree.front_mem_predict closed covered.followed own right below
        rw [covered.leaves, ← lookahead_eq_front] at predicted
        have cell := (Table.get?_eq_some_iff built).mpr ⟨production, found, rfl, predicted⟩
        have moved := shallow.step_expand split (signed.trans own) cell found
        rw [run_eq, moved]
        apply ih (Tree.countAll (children ++ rest)) _ (shallow.step valid built moved) _ rfl
        · simp only [Tree.countAll, Tree.count, Tree.countAll_append] at size ⊢
          omega
        · refine ⟨?_, ?_, ?_, ?_⟩
          · change (state.subgoals goal production.right ++ goals).map Goal.sign = _
            rw [List.map_append, map_sign_subgoals, signs, right, List.map_append]
          · intro tree member
            rcases List.mem_append.mp member with inner | outer
            · exact below tree inner
            · exact later tree outer
          · exact Tree.followed_children closed covered.followed (List.mem_of_getElem? found) own right below
          · have leaves := covered.leaves
            rw [List.flatMap_cons, Tree.leaves_node, own] at leaves
            rw [List.flatMap_append]
            exact leaves

/-- Tokens over the leaves of a conforming tree are parsed. -/
theorem parse_of_tree (valid : parser.grammar.Valid)
    (built : Table.build parser.grammar (.ofGrammar parser.grammar) = .ok parser.table) {tree : Tree T N}
    (rooted : tree.sign = .nonTerminal parser.grammar.start) (conforming : tree.conforms parser.grammar = true)
    {tokens : List (Token T)} (spelled : tokens.map Token.kind = tree.leaves) :
    ∃ parsed, parser.parse tokens = .ok parsed := by
  have covered : Covered parser (parser.initial tokens) [tree] := by
    refine ⟨?_, ?_, followed_root valid rooted, ?_⟩
    · rw [List.map_singleton, rooted]
      rfl
    · intro other member
      rwa [List.mem_singleton.mp member]
    · rw [List.flatMap_singleton, ← spelled]
      rfl
  obtain ⟨arena, ran⟩ := run_of_covered valid built (shallow_initial valid tokens) covered
  exact ⟨_, by rw [parse, ran]; rfl⟩

/-- Conforming trees over the start symbol with the same leaves differ in texts and lines only. -/
theorem skeleton_unique (valid : parser.grammar.Valid)
    (built : Table.build parser.grammar (.ofGrammar parser.grammar) = .ok parser.table) {tree other : Tree T N}
    (rooted : tree.sign = .nonTerminal parser.grammar.start) (conforming : tree.conforms parser.grammar = true)
    (rooted' : other.sign = .nonTerminal parser.grammar.start) (conforming' : other.conforms parser.grammar = true)
    (leaves : tree.leaves = other.leaves) : tree.skeleton = other.skeleton := by
  have same := Tree.skeletons_unique (Lookahead.closed_ofGrammar valid) built [tree] [other]
    (by simpa using conforming) (by simpa using conforming') (followed_root valid rooted)
    (followed_root valid rooted') (by simp [rooted, rooted']) (by simpa using leaves)
  simpa using same

end Complete

end Answers

/-! A run by recursion on a number of steps, which can be evaluated on a given input. -/

def runWithin (parser : Parser T N) : Nat → State T N → Option (Except (SyntaxError T N) (Arena T N))
  | 0, _ => none
  | limit + 1, state =>
    match parser.step state with
    | .next state => parser.runWithin limit state
    | .accept arena => some (.ok arena)
    | .reject error => some (.error error)

theorem run_of_runWithin {parser : Parser T N} {limit : Nat} {state : State T N}
    {answer : Except (SyntaxError T N) (Arena T N)} (done : parser.runWithin limit state = some answer) :
    parser.run state = answer := by
  induction limit generalizing state with
  | zero => cases done
  | succ limit ih =>
    rw [run_eq]
    rw [runWithin] at done
    cases moved : parser.step state with
    | next state =>
      rw [moved] at done
      exact ih done
    | accept arena =>
      rw [moved] at done
      exact Option.some.inj done
    | reject error =>
      rw [moved] at done
      exact Option.some.inj done

def parseWithin (parser : Parser T N) (limit : Nat) (tokens : List (Token T)) :
    Option (Except (SyntaxError T N) (Tree T N)) :=
  let start := parser.initial tokens
  (parser.runWithin limit start).map fun answer =>
    answer.map (·.assemble?.getD (.node ⟨.nonTerminal parser.grammar.start, none, none, start.line⟩ []))

theorem parse_of_parseWithin {parser : Parser T N} {limit : Nat} {tokens : List (Token T)}
    {answer : Except (SyntaxError T N) (Tree T N)} (done : parser.parseWithin limit tokens = some answer) :
    parser.parse tokens = answer := by
  obtain ⟨run, ran, rfl⟩ := Option.map_eq_some_iff.mp done
  rw [parse, run_of_runWithin ran]
  cases run <;> rfl

end Parser

namespace Language

theorem grammar_accepted : Grammar.ofProductions .program Rule.productions = .ok grammar := by
  decide +kernel

theorem table_built : Table.build grammar (.ofGrammar grammar) = .ok table := by
  have built : (Table.build grammar lookahead).isOk = true := by decide +kernel
  change Table.build grammar lookahead = .ok table
  unfold table
  generalize Table.build grammar lookahead = result at built
  cases result with
  | ok found => rfl
  | error fault => cases built

theorem parser_grammar : parser.grammar = grammar := rfl

theorem grammar_valid : parser.grammar.Valid :=
  Grammar.valid_of_ofProductions grammar_accepted

theorem parser_table : parser.table = table := by
  unfold parser
  dsimp only

theorem parser_built : Table.build parser.grammar (.ofGrammar parser.grammar) = .ok parser.table := by
  rw [parser_grammar, parser_table]
  exact table_built

theorem parseTokens_eq_ok {tokens : List (Token Terminal)} {tree : ParseTree} :
    parseTokens tokens = .ok tree ↔ parser.parse tokens = .ok tree := by
  rw [parseTokens]
  cases parser.parse tokens with
  | error error => simp [Except.mapError]
  | ok tree => simp [Except.mapError]

end Language

/-- A grammar whose table can be built is decided by its parser, and the tree that the parser gives is the only
one: a parse succeeds on the words of the grammar and no others, its tree conforms to the grammar and stands over
the tokens with their texts and lines, and any conforming tree over the same kinds has the same form, signs and
productions. -/
theorem Parser.parse_iff_accepts {T N : Type} [Ord T] [Ord N] [Std.TransOrd T] [Std.TransOrd N]
    [Std.LawfulEqOrd T] [Std.LawfulEqOrd N] [DecidableEq T] [DecidableEq N] {start : N}
    {productions : List (Production T N)} {parser : Parser T N}
    (accepted : Grammar.ofProductions start productions = .ok parser.grammar)
    (built : Table.build parser.grammar (.ofGrammar parser.grammar) = .ok parser.table) :
    (∀ tokens : List (Token T), (∃ tree, parser.parse tokens = .ok tree) ↔
      parser.grammar.Accepts (tokens.map Token.kind)) ∧
    (∀ (tokens : List (Token T)) (tree : Tree T N), parser.parse tokens = .ok tree →
      tree.sign = .nonTerminal parser.grammar.start ∧ tree.conforms parser.grammar = true ∧
        tree.leafLabels = tokens.map (Token.label N)) ∧
    (∀ tree : Tree T N, tree.sign = .nonTerminal parser.grammar.start → tree.conforms parser.grammar = true →
      ∀ tokens : List (Token T), tokens.map Token.kind = tree.leaves →
        ∃ parsed, parser.parse tokens = .ok parsed ∧ parsed.skeleton = tree.skeleton) ∧
    (∀ tree other : Tree T N, tree.sign = .nonTerminal parser.grammar.start → tree.conforms parser.grammar = true →
      other.sign = .nonTerminal parser.grammar.start → other.conforms parser.grammar = true →
      tree.leaves = other.leaves →
        tree.skeleton = other.skeleton) := by
  have valid := Grammar.valid_of_ofProductions accepted
  have sound : ∀ (tokens : List (Token T)) (tree : Tree T N), parser.parse tokens = .ok tree →
      tree.sign = .nonTerminal parser.grammar.start ∧ tree.conforms parser.grammar = true ∧
        tree.leafLabels = tokens.map (Token.label N) :=
    fun tokens tree parsed => parse_sound valid (typed_of_build built) parsed
  refine ⟨?_, sound, ?_, ?_⟩
  · intro tokens
    rw [Grammar.accepts_iff_tree]
    constructor
    · rintro ⟨tree, parsed⟩
      obtain ⟨rooted, conforming, labels⟩ := sound tokens tree parsed
      exact ⟨tree, rooted, conforming, leaves_of_leafLabels labels⟩
    · rintro ⟨tree, rooted, conforming, leaves⟩
      exact parse_of_tree valid built rooted conforming leaves.symm
  · intro tree rooted conforming tokens spelled
    obtain ⟨parsed, same⟩ := parse_of_tree valid built rooted conforming spelled
    obtain ⟨rooted', conforming', labels⟩ := sound tokens parsed same
    refine ⟨parsed, same, ?_⟩
    apply skeleton_unique valid built rooted' conforming' rooted conforming
    rw [leaves_of_leafLabels labels, spelled]
  · intro tree other rooted conforming rooted' conforming' leaves
    exact skeleton_unique valid built rooted conforming rooted' conforming' leaves

theorem Language.parse_iff_accepts_grammar :
    Grammar.ofProductions .program Rule.productions = .ok parser.grammar ∧
      Table.build parser.grammar (.ofGrammar parser.grammar) = .ok parser.table ∧
      ∀ tokens : List (Token Terminal),
        (∃ tree, parser.parse tokens = .ok tree) ↔ parser.grammar.Accepts (tokens.map Token.kind) :=
  ⟨grammar_accepted, parser_built, (Parser.parse_iff_accepts grammar_accepted parser_built).1⟩

end Minuscule
