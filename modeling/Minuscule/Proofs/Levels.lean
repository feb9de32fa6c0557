import Minuscule.Proofs.Lists
import Minuscule.Proofs.Prediction
import Minuscule.Proofs.Rounds
import Mathlib.Data.Finset.Card
import Mathlib.Data.Prod.Lex
import Mathlib.Order.Lattice.Nat
import Mathlib.Order.Nat

/-!
A parser with a grammar's own table never expands a non-terminal below itself with nothing read in between.
Under one sign of lookahead a non-terminal is expanded either to start with that sign or to vanish in front of
it, and not both, for then two productions would claim one cell. Expansions of the first kind lead to ones of
smaller height until the sign is reached, those of the second kind to ones of smaller height until all is gone;
so the non-terminals below each other are all different, and there are no more of them than productions.
-/

namespace Minuscule.Lookahead
variable {T N : Type}

section Unique
variable [Ord T] [Ord N] [Std.TransOrd T] [Std.TransOrd N] [Std.LawfulEqOrd T] [Std.LawfulEqOrd N]
  {grammar : Grammar T N} {table : Table T N}

/-- A production that may start with a terminal has it as a lookahead. -/
theorem predict_of_starts (valid : grammar.Valid) {production : Production T N} {front back : List (Sign T N)}
    {sign : Sign T N} {kind : T} {height : Nat} (right : production.right = front ++ sign :: back)
    (vanish : ∀ other ∈ front, ∃ height, grammar.Vanishes height other) (starts : grammar.Starts kind height sign) :
    .terminal kind ∈ (ofGrammar grammar).predict production := by
  rw [Table.mem_predict]
  refine .inl ⟨rfl, (mem_firstOfAll (by simp)).mpr ⟨front, sign, back, right, ?_, mem_of_starts valid starts⟩⟩
  intro other inside
  obtain ⟨height, vanishes⟩ := vanish other inside
  exact epsilon_of_vanishes valid vanishes

/-- A production that may vanish has what follows its left-hand side as a lookahead. -/
theorem predict_of_vanishes (valid : grammar.Valid) {production : Production T N} {height : Nat}
    (below : ∀ sign ∈ production.right, grammar.Vanishes height sign) {sign : Sign T N}
    (follows : sign ∈ (ofGrammar grammar).follow.of production.left) :
    sign ∈ (ofGrammar grammar).predict production := by
  rw [Table.mem_predict]
  refine .inr ⟨epsilon_mem_firstOfAll.mpr ?_, follows⟩
  intro other inside
  exact epsilon_of_vanishes valid (below other inside)

theorem production_unique (built : Table.build grammar (ofGrammar grammar) = .ok table)
    {one other : Production T N} (member : one ∈ grammar.productions) (member' : other ∈ grammar.productions)
    (same : one.left = other.left) {sign : Sign T N} (predicted : sign ∈ (ofGrammar grammar).predict one)
    (predicted' : sign ∈ (ofGrammar grammar).predict other) : one = other := by
  obtain ⟨index, found⟩ := List.getElem?_of_mem member
  obtain ⟨index', found'⟩ := List.getElem?_of_mem member'
  have indices := Table.index_unique built found found' same predicted predicted'
  rw [indices, found'] at found
  exact (Option.some.inj found).symm

/-- A non-terminal that may vanish in front of a terminal does not start with it. The production that starts with the
terminal would be the one that vanishes, so that the part of it that starts with the terminal would vanish in front of
it as well. -/
theorem not_starts_of_vanishing (valid : grammar.Valid)
    (built : Table.build grammar (ofGrammar grammar) = .ok table) {kind : T} {nonTerminal : N} {height : Nat}
    (starts : grammar.Starts kind height (.nonTerminal nonTerminal))
    (vanishing : .epsilon ∈ (firstSets grammar).of nonTerminal)
    (follows : .terminal kind ∈ (ofGrammar grammar).follow.of nonTerminal) : False := by
  induction height generalizing nonTerminal with
  | zero =>
    obtain ⟨below, _, _, _, _, impossible, _⟩ := starts.production
    omega
  | succ height ih =>
    obtain ⟨below, production, front, sign, back, bound, member, rfl, right, vanish, inner⟩ := starts.production
    obtain ⟨_, vanishes⟩ := (justified_firstSets valid).vanishes _ vanishing
    obtain ⟨_, other, _, member', left, vanishes⟩ := vanishes.production
    have predicted := predict_of_starts valid right vanish inner
    have predicted' := predict_of_vanishes valid vanishes (left ▸ follows)
    obtain rfl := production_unique built member member' left.symm predicted predicted'
    have empty : ∀ sign ∈ production.right, .epsilon ∈ firstOf (firstSets grammar) sign :=
      fun sign inside => epsilon_of_vanishes valid (vanishes sign inside)
    rcases valid.right production member sign (by simp [right]) with ⟨terminal, rfl⟩ | ⟨part, _, rfl⟩
    · cases mem_firstOf_terminal.mp (empty (.terminal terminal) (by simp [right]))
    · obtain rfl : below = height := by omega
      apply ih inner (empty (.nonTerminal part) (by simp [right]))
      apply (closed_ofGrammar valid).last production member front part back right
      · exact epsilon_mem_firstOfAll.mpr fun sign inside => empty sign (by simp [right, inside])
      · exact follows

end Unique

/-! Ranks of non-terminals under a sign of lookahead. -/

variable {grammar : Grammar T N}

/-- The height of the lowest expansion that starts with a terminal. -/
noncomputable def startHeight (grammar : Grammar T N) (terminal : T) (kind : N) : Nat :=
  sInf {height | grammar.Starts terminal height (.nonTerminal kind)}

/-- The height of the lowest expansion that vanishes. -/
noncomputable def vanishHeight (grammar : Grammar T N) (kind : N) : Nat :=
  sInf {height | grammar.Vanishes height (.nonTerminal kind)}

theorem startHeight_le {terminal : T} {height : Nat} {kind : N}
    (starts : grammar.Starts terminal height (.nonTerminal kind)) : startHeight grammar terminal kind ≤ height :=
  Nat.sInf_le starts

theorem vanishHeight_le {height : Nat} {kind : N} (vanishes : grammar.Vanishes height (.nonTerminal kind)) :
    vanishHeight grammar kind ≤ height :=
  Nat.sInf_le vanishes

variable [Ord T] [Ord N]

/-- Signs that vanish in front of a lookahead. -/
def Vanishing (grammar : Grammar T N) (lookahead sign : Sign T N) : Prop :=
  .epsilon ∈ firstOf (firstSets grammar) sign ∧ lookahead ∉ firstOf (firstSets grammar) sign

open Classical in
/-- Non-terminals that start with the lookahead rank above the others, and within each kind the height of the
lowest expansion decides. -/
noncomputable def rank (grammar : Grammar T N) (lookahead : Sign T N) (kind : N) : Nat ×ₗ Nat :=
  match lookahead with
  | .terminal terminal =>
    if .terminal terminal ∈ (firstSets grammar).of kind then toLex (1, startHeight grammar terminal kind)
    else toLex (0, vanishHeight grammar kind)
  | _ => toLex (0, vanishHeight grammar kind)

theorem rank_starting {terminal : T} {kind : N} (first : .terminal terminal ∈ (firstSets grammar).of kind) :
    rank grammar (.terminal terminal) kind = toLex (1, startHeight grammar terminal kind) :=
  if_pos first

theorem rank_other {lookahead : Sign T N} {kind : N} (absent : lookahead ∉ (firstSets grammar).of kind) :
    rank grammar lookahead kind = toLex (0, vanishHeight grammar kind) := by
  cases lookahead with
  | terminal terminal => exact if_neg absent
  | _ => rfl

section Lowest
variable [Std.TransOrd T] [Std.TransOrd N] [Std.LawfulEqOrd T] [Std.LawfulEqOrd N] {table : Table T N}

theorem starts_lowest (valid : grammar.Valid) {terminal : T} {kind : N}
    (first : .terminal terminal ∈ (firstSets grammar).of kind) :
    grammar.Starts terminal (startHeight grammar terminal kind) (.nonTerminal kind) :=
  Nat.sInf_mem (s := {height | grammar.Starts terminal height (.nonTerminal kind)})
    ((justified_firstSets valid).starts kind terminal first)

theorem vanishes_lowest (valid : grammar.Valid) {kind : N} (vanishing : .epsilon ∈ (firstSets grammar).of kind) :
    grammar.Vanishes (vanishHeight grammar kind) (.nonTerminal kind) :=
  Nat.sInf_mem (s := {height | grammar.Vanishes height (.nonTerminal kind)})
    ((justified_firstSets valid).vanishes kind vanishing)

/-- Below an expansion that starts with the lookahead, what can be reached with nothing read either does not
start with the lookahead or is the sign by which the lowest expansion starts with it. -/
theorem rank_lt_of_starting (valid : grammar.Valid)
    (built : Table.build grammar (ofGrammar grammar) = .ok table) {terminal : T} {production : Production T N}
    (member : production ∈ grammar.productions)
    (predicted : .terminal terminal ∈ (ofGrammar grammar).predict production) {front back : List (Sign T N)}
    {kind : N} (right : production.right = front ++ .nonTerminal kind :: back)
    (vanish : ∀ sign ∈ front, Vanishing grammar (.terminal terminal) sign)
    (first : .terminal terminal ∈ (firstSets grammar).of production.left) :
    rank grammar (.terminal terminal) kind < rank grammar (.terminal terminal) production.left := by
  rw [rank_starting first]
  by_cases inner : .terminal terminal ∈ (firstSets grammar).of kind
  · obtain ⟨below, lowest, front', sign, back', height, member', left, right', vanish', starts⟩ :=
      (starts_lowest valid first).production
    obtain rfl := production_unique built member' member left (predict_of_starts valid right' vanish' starts) predicted
    have source := mem_of_starts valid starts
    rcases places_compare (right.symm.trans right') with
      ⟨_, rfl, _⟩ | ⟨between, rfl⟩ | ⟨between, rfl, rfl⟩
    · rw [rank_starting inner, Prod.Lex.toLex_lt_toLex]
      have lower := startHeight_le starts
      exact .inr ⟨rfl, by change startHeight grammar terminal kind < startHeight grammar terminal lowest.left; omega⟩
    · exact absurd source (vanish sign (by simp)).2
    · obtain ⟨_, vanishes⟩ := vanish' (.nonTerminal kind) (by simp)
      obtain ⟨_, starts'⟩ := (justified_firstSets valid).starts _ _ inner
      exfalso
      apply not_starts_of_vanishing valid built starts' (epsilon_of_vanishes valid vanishes)
      apply (closed_ofGrammar valid).next lowest member' front kind _ right
      · rw [mem_firstOfAll (by simp)]
        refine ⟨between, sign, back', rfl, ?_, source⟩
        intro gap inside
        obtain ⟨_, vanishes⟩ := vanish' gap (by simp [inside])
        exact epsilon_of_vanishes valid vanishes
      · simp
  · rw [rank_other inner, Prod.Lex.toLex_lt_toLex]
    exact .inl Nat.zero_lt_one

/-- Below an expansion that vanishes in front of the lookahead, everything vanishes by lower expansions. -/
theorem rank_lt_of_vanishing (valid : grammar.Valid)
    (built : Table.build grammar (ofGrammar grammar) = .ok table) {lookahead : Sign T N}
    {production : Production T N} (member : production ∈ grammar.productions)
    (predicted : lookahead ∈ (ofGrammar grammar).predict production) {kind : N}
    (inside : .nonTerminal kind ∈ production.right)
    (absent : lookahead ∉ (firstSets grammar).of production.left) :
    rank grammar lookahead kind < rank grammar lookahead production.left := by
  have expand := (closed_ofGrammar valid).first production member
  rcases Table.mem_predict.mp predicted with ⟨_, first⟩ | ⟨vanishing, follows⟩
  · exact absurd (expand lookahead first) absent
  · obtain ⟨below, lowest, height, member', left, vanish⟩ := (vanishes_lowest valid (expand _ vanishing)).production
    obtain rfl := production_unique built member' member left
      (predict_of_vanishes valid vanish (left ▸ follows)) predicted
    have hidden : lookahead ∉ (firstSets grammar).of kind := by
      intro first
      apply absent
      apply expand
      have solid : lookahead ≠ .epsilon := fun same => absent (same ▸ expand _ vanishing)
      obtain ⟨front, back, right⟩ := List.append_of_mem inside
      rw [mem_firstOfAll solid]
      refine ⟨front, .nonTerminal kind, back, right, ?_, first⟩
      exact fun other present => epsilon_mem_firstOfAll.mp vanishing other (by simp [right, present])
    rw [rank_other hidden, rank_other absent, Prod.Lex.toLex_lt_toLex]
    have lower := vanishHeight_le (vanish _ inside)
    exact .inr ⟨rfl, by change vanishHeight grammar kind < vanishHeight grammar lowest.left; omega⟩

/-- The rank drops from a non-terminal to whatever is reached below it with nothing read. -/
theorem rank_lt (valid : grammar.Valid) (built : Table.build grammar (ofGrammar grammar) = .ok table)
    {lookahead : Sign T N} (solid : lookahead ≠ .epsilon) {production : Production T N}
    (member : production ∈ grammar.productions) (predicted : lookahead ∈ (ofGrammar grammar).predict production)
    {front back : List (Sign T N)} {kind : N} (right : production.right = front ++ .nonTerminal kind :: back)
    (vanish : ∀ sign ∈ front, Vanishing grammar lookahead sign) :
    rank grammar lookahead kind < rank grammar lookahead production.left := by
  by_cases first : lookahead ∈ (firstSets grammar).of production.left
  · rcases (over_firstSets valid).members _ _ first with same | ⟨terminal, _, rfl⟩
    · exact absurd same solid
    · exact rank_lt_of_starting valid built member predicted right vanish first
  · exact rank_lt_of_vanishing valid built member predicted (by simp [right]) first

/-- A non-terminal whose predicted expansion vanishes in front of the lookahead does so itself. -/
theorem vanishing_of_right (valid : grammar.Valid) (built : Table.build grammar (ofGrammar grammar) = .ok table)
    {lookahead : Sign T N} (solid : lookahead ≠ .epsilon) {production : Production T N}
    (member : production ∈ grammar.productions) (predicted : lookahead ∈ (ofGrammar grammar).predict production)
    (vanish : ∀ sign ∈ production.right, Vanishing grammar lookahead sign) :
    Vanishing grammar lookahead (.nonTerminal production.left) := by
  constructor
  · exact firstSets_closed valid member (epsilon_mem_firstOfAll.mpr fun sign inside => (vanish sign inside).1)
  · intro first
    rcases (over_firstSets valid).members _ _ first with same | ⟨terminal, _, rfl⟩
    · exact absurd same solid
    · obtain ⟨_, starts⟩ := (justified_firstSets valid).starts _ _ first
      obtain ⟨_, other, front, sign, back, _, member', left, right, vanish', source⟩ := starts.production
      obtain rfl := production_unique built member' member left (predict_of_starts valid right vanish' source) predicted
      exact (vanish sign (by simp [right])).2 (mem_of_starts valid source)

end Lowest

variable [DecidableEq N]

open Classical in
/-- The number of non-terminals of smaller rank. -/
noncomputable def position (grammar : Grammar T N) (lookahead : Sign T N) (kind : N) : Nat :=
  ((Grammar.lefts grammar.productions).toFinset.filter fun other =>
    rank grammar lookahead other < rank grammar lookahead kind).card

theorem position_lt_position {lookahead : Sign T N} {low high : N}
    (known : low ∈ Grammar.lefts grammar.productions)
    (below : rank grammar lookahead low < rank grammar lookahead high) :
    position grammar lookahead low < position grammar lookahead high := by
  classical
  apply Finset.card_lt_card
  rw [Finset.ssubset_iff_of_subset]
  · exact ⟨low, by simp [known, below], by simp⟩
  · intro other inside
    simp only [Finset.mem_filter] at inside ⊢
    exact ⟨inside.1, inside.2.trans below⟩

theorem position_lt_length {lookahead : Sign T N} {kind : N} (known : kind ∈ Grammar.lefts grammar.productions) :
    position grammar lookahead kind < grammar.productions.length := by
  classical
  have fewer : position grammar lookahead kind < (Grammar.lefts grammar.productions).toFinset.card := by
    apply Finset.card_lt_card
    rw [Finset.ssubset_iff_of_subset (Finset.filter_subset _ _)]
    exact ⟨kind, by simp [known], by simp⟩
  have most := List.toFinset_card_le (Grammar.lefts grammar.productions)
  rw [Grammar.lefts, List.length_map] at most
  exact lt_of_lt_of_le fewer most

end Minuscule.Lookahead

namespace Minuscule.Parser
variable {T N : Type}

theorem map_sign_subgoals (state : State T N) (goal : Goal T N) (right : List (Sign T N)) :
    (state.subgoals goal right).map Goal.sign = right := by
  rw [State.subgoals, List.map_map]
  exact List.zipIdx_map_fst _ _

theorem mem_subgoals {state : State T N} {goal sub : Goal T N} {right : List (Sign T N)}
    (member : sub ∈ state.subgoals goal right) : sub.since = state.read ∧ sub.level = state.level goal + 1 := by
  obtain ⟨⟨sign, place⟩, _, rfl⟩ := List.mem_map.mp member
  exact ⟨rfl, rfl⟩

theorem lookahead_solid (state : State T N) : state.lookahead ≠ .epsilon := by
  unfold State.lookahead
  split <;> simp

variable [Ord T] [Ord N] [DecidableEq N]

/-- Every goal that can be reached with nothing read has room below it for all non-terminals of smaller rank. -/
structure Shallow (parser : Parser T N) (state : State T N) : Prop where
  signs : ∀ goal ∈ state.goals, (∃ kind, goal.sign = .terminal kind) ∨
    ∃ kind ∈ Grammar.lefts parser.grammar.productions, goal.sign = .nonTerminal kind
  since : ∀ goal ∈ state.goals, goal.since ≤ state.read
  level : ∀ front goal back kind, state.goals = front ++ goal :: back →
    (∀ other ∈ front, Lookahead.Vanishing parser.grammar state.lookahead other.sign) →
    goal.sign = .nonTerminal kind →
      state.level goal + Lookahead.position parser.grammar state.lookahead kind < parser.grammar.productions.length

variable {parser : Parser T N} {state : State T N}

theorem shallow_initial (valid : parser.grammar.Valid) (tokens : List (Token T)) :
    Shallow parser (parser.initial tokens) where
  signs goal member := by
    cases List.mem_singleton.mp member
    exact .inr ⟨_, valid.start, rfl⟩
  since goal member := by
    cases List.mem_singleton.mp member
    exact Nat.le_refl 0
  level front goal back kind goals _ signed := by
    have member : goal ∈ (parser.initial tokens).goals := by simp [goals]
    cases List.mem_singleton.mp member
    cases signed
    have zero : (parser.initial tokens).level ⟨.nonTerminal parser.grammar.start, 0, 0, 0⟩ = 0 := by simp [State.level]
    rw [zero, Nat.zero_add]
    exact Lookahead.position_lt_length valid.start

theorem shallow_take (shallow : Shallow parser state) {goal : Goal T N} {rest : List (Goal T N)} {token : Token T}
    {tokens : List (Token T)} (goals : state.goals = goal :: rest) :
    Shallow parser (state.take goal rest token tokens) where
  signs other member := shallow.signs other (by simp [goals, show other ∈ rest from member])
  since other member := Nat.le_succ_of_le (shallow.since other (by simp [goals, show other ∈ rest from member]))
  level front other back kind split _ signed := by
    have member : other ∈ state.goals := by
      rw [goals, show rest = front ++ other :: back from split]
      simp
    have zero : (state.take goal rest token tokens).level other = 0 := by
      have before := shallow.since other member
      rw [State.level, if_neg]
      change ¬ other.since = state.read + 1
      omega
    rw [zero, Nat.zero_add]
    rcases shallow.signs other member with ⟨_, terminal⟩ | ⟨_, known, same⟩
    · rw [signed] at terminal
      cases terminal
    · rw [signed] at same
      cases same
      exact Lookahead.position_lt_length known

section Expand
variable [Std.TransOrd T] [Std.TransOrd N] [Std.LawfulEqOrd T] [Std.LawfulEqOrd N]
  {goal : Goal T N} {rest : List (Goal T N)} {production : Production T N}

/-- A goal behind the new ones was in reach before: all of the new ones vanish only if the old one did. -/
theorem Shallow.level_behind (valid : parser.grammar.Valid)
    (built : Table.build parser.grammar (.ofGrammar parser.grammar) = .ok parser.table)
    (shallow : Shallow parser state) (goals : state.goals = goal :: rest)
    (signed : goal.sign = .nonTerminal production.left) (member : production ∈ parser.grammar.productions)
    (predicted : state.lookahead ∈ (Lookahead.ofGrammar parser.grammar).predict production)
    {between back : List (Goal T N)} {other : Goal T N} {kind : N} (split : rest = between ++ other :: back)
    (vanish : ∀ above ∈ state.subgoals goal production.right ++ between,
      Lookahead.Vanishing parser.grammar state.lookahead above.sign) (signed' : other.sign = .nonTerminal kind) :
    state.level other + Lookahead.position parser.grammar state.lookahead kind <
      parser.grammar.productions.length := by
  apply shallow.level (goal :: between) other back kind (by simp [goals, split]) _ signed'
  intro above inside
  rcases List.mem_cons.mp inside with rfl | between
  · rw [signed]
    apply Lookahead.vanishing_of_right valid built (lookahead_solid state) member predicted
    intro sign present
    rw [← map_sign_subgoals state above production.right] at present
    obtain ⟨sub, new, rfl⟩ := List.mem_map.mp present
    exact vanish sub (List.mem_append_left _ new)
  · exact vanish above (List.mem_append_right _ between)

/-- A new goal stands one level below the old one, and its non-terminal one place below at least. -/
theorem Shallow.level_subgoal (valid : parser.grammar.Valid)
    (built : Table.build parser.grammar (.ofGrammar parser.grammar) = .ok parser.table)
    (shallow : Shallow parser state) (goals : state.goals = goal :: rest)
    (signed : goal.sign = .nonTerminal production.left) (member : production ∈ parser.grammar.productions)
    (predicted : state.lookahead ∈ (Lookahead.ofGrammar parser.grammar).predict production)
    {front behind : List (Goal T N)} {other : Goal T N} {kind : N}
    (split : state.subgoals goal production.right = front ++ other :: behind)
    (vanish : ∀ above ∈ front, Lookahead.Vanishing parser.grammar state.lookahead above.sign)
    (signed' : other.sign = .nonTerminal kind) :
    state.level other + Lookahead.position parser.grammar state.lookahead kind <
      parser.grammar.productions.length := by
  have place : production.right = front.map Goal.sign ++ .nonTerminal kind :: behind.map Goal.sign := by
    rw [← map_sign_subgoals state goal production.right, split, List.map_append, List.map_cons, signed']
  have lower := Lookahead.rank_lt valid built (lookahead_solid state) member predicted place (by
    intro sign inside
    obtain ⟨above, present, rfl⟩ := List.mem_map.mp inside
    exact vanish above present)
  have known : kind ∈ Grammar.lefts parser.grammar.productions := by
    rcases valid.right production member (.nonTerminal kind) (by simp [place]) with ⟨_, same⟩ | ⟨_, known, same⟩
    · cases same
    · cases same
      exact known
  have fewer := Lookahead.position_lt_position known lower
  have present : other ∈ state.subgoals goal production.right := by simp [split]
  have fresh := mem_subgoals present
  have top := shallow.level [] goal rest production.left goals (by simp) signed
  rw [State.level, if_pos fresh.1, fresh.2]
  omega

theorem shallow_expand (valid : parser.grammar.Valid)
    (built : Table.build parser.grammar (.ofGrammar parser.grammar) = .ok parser.table)
    (shallow : Shallow parser state) {index : Nat} (goals : state.goals = goal :: rest)
    (signed : goal.sign = .nonTerminal production.left) (found : parser.grammar.productions[index]? = some production)
    (predicted : state.lookahead ∈ (Lookahead.ofGrammar parser.grammar).predict production) :
    Shallow parser (state.expand goal rest index production.right) := by
  have member := List.mem_of_getElem? found
  have old : ∀ other ∈ rest, other ∈ state.goals := fun other inside => by simp [goals, inside]
  refine ⟨?_, ?_, ?_⟩
  · intro other inside
    rcases List.mem_append.mp inside with new | later
    · apply valid.right production member
      rw [← map_sign_subgoals state goal production.right]
      exact List.mem_map_of_mem new
    · exact shallow.signs other (old other later)
  · intro other inside
    rcases List.mem_append.mp inside with new | later
    · exact Nat.le_of_eq (mem_subgoals new).1
    · exact shallow.since other (old other later)
  · intro front other back kind split vanish signed'
    change state.subgoals goal production.right ++ rest = front ++ other :: back at split
    rcases List.append_eq_append_iff.mp split with ⟨between, rfl, rest'⟩ | ⟨between, subgoals, rest'⟩
    · exact shallow.level_behind valid built goals signed member predicted rest' vanish signed'
    · cases between with
      | nil =>
        rw [List.append_nil] at subgoals
        subst subgoals
        have behind : rest = [] ++ other :: back := rest'.symm
        rw [← List.append_nil (state.subgoals goal production.right)] at vanish
        exact shallow.level_behind valid built goals signed member predicted behind vanish signed'
      | cons head between =>
        cases rest'
        exact shallow.level_subgoal valid built goals signed member predicted subgoals vanish signed'

end Expand

variable [DecidableEq T]

/-- The level of a goal never stands in the way of its expansion. -/
theorem Shallow.step_expand (shallow : Shallow parser state) {goal : Goal T N} {rest : List (Goal T N)} {kind : N}
    {index : Nat} {production : Production T N} (goals : state.goals = goal :: rest)
    (signed : goal.sign = .nonTerminal kind) (cell : parser.table.get? kind state.lookahead = some index)
    (found : parser.grammar.productions[index]? = some production) :
    parser.step state = .next (state.expand goal rest index production.right) := by
  have top := shallow.level [] goal rest kind goals (by simp) signed
  have room : state.level goal < parser.grammar.productions.length := by omega
  have chosen : parser.choose? kind state.lookahead = some (index, production) := by
    simp [choose?, cell, found]
  simp only [step, goals, signed, chosen, if_pos room]

/-- Levels never make a difference, so the parser's steps are the rounds of the loop. -/
theorem Shallow.step_eq_advance (shallow : Shallow parser state) : parser.step state = parser.advance state := by
  rcases step_eq_or_endless parser state with same | ⟨goal, rest, kind, goals, signed, deep, _⟩
  · exact same
  · have room := shallow.level [] goal rest kind goals (by simp) signed
    omega

variable [Std.TransOrd T] [Std.TransOrd N] [Std.LawfulEqOrd T] [Std.LawfulEqOrd N]

theorem Shallow.step (valid : parser.grammar.Valid)
    (built : Table.build parser.grammar (.ofGrammar parser.grammar) = .ok parser.table)
    (shallow : Shallow parser state) {next : State T N} (moved : parser.step state = .next next) :
    Shallow parser next := by
  rcases step_next_cases moved with ⟨goal, rest, token, tokens, goals, _, _, rfl⟩ |
    ⟨goal, rest, kind, index, production, goals, signed, cell, found, rfl⟩ | ⟨goal, rest, goals, mark, _⟩
  · exact shallow_take shallow goals
  · obtain ⟨production', found', rfl, predicted⟩ := (Table.get?_eq_some_iff built).mp cell
    obtain rfl : production = production' := Option.some.inj (found.symm.trans found')
    exact shallow_expand valid built shallow goals signed found predicted
  · rcases shallow.signs goal (by simp [goals]) with ⟨_, signed⟩ | ⟨_, _, signed⟩
    · rcases mark with same | same <;> rw [signed] at same <;> cases same
    · rcases mark with same | same <;> rw [signed] at same <;> cases same

end Minuscule.Parser
