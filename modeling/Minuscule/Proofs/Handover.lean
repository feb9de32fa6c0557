import Minuscule.Proofs.Ownership
import Minuscule.Proofs.Transcript
import Mathlib.Logic.Relation

/-!
Trees that change hands. When an arena is assembled, the tree of a node is built once and asked for once, so it need not
be copied: it can wait in a slot until the node's owner takes it away and leaves the slot empty. Where every node has
its owner, this gives the same tree, no slot is found empty that should be full, and in the end all slots are empty but
the first. The arenas that a parser builds are of this kind in every round of its loop.
-/

namespace Minuscule

namespace Arena
variable {T N : Type} {arena : Arena T N}

/-- One slot for each place, full while a tree waits there for its owner. -/
abbrev Slots (T N : Type) := Array (Option (Tree T N))

/-- The trees that are found when slots are emptied one after the other; a slot that is empty gives none. -/
def taken (slots : Slots T N) : List Nat → List (Tree T N)
  | [] => []
  | place :: rest => slots[place]?.join.toList ++ taken (slots.setIfInBounds place none) rest

/-- The slots when those of some places have been emptied. -/
def cleared (slots : Slots T N) (places : List Nat) : Slots T N :=
  places.foldl (fun slots place => slots.setIfInBounds place none) slots

/-- Takes the children of a node out of their slots and puts the tree over them into the slot of the node. -/
def settle (entry : Pending T N × Nat) (slots : Slots T N) : Slots T N :=
  (cleared slots entry.1.children).setIfInBounds entry.2
    (some (.node entry.1.label (taken slots entry.1.children)))

/-- The slots when some nodes, of which the first has the given place, are settled from the last to the first. -/
def settledFrom (arena : Arena T N) (place : Nat) (nodes : List (Pending T N)) : Slots T N :=
  (nodes.zipIdx place).foldr settle (Array.replicate arena.size none)

/-- The slots when all nodes of an arena are settled. -/
def settled (arena : Arena T N) : Slots T N :=
  settledFrom arena 0 arena.toList

theorem settledFrom_cons (arena : Arena T N) (place : Nat) (node : Pending T N) (rest : List (Pending T N)) :
    settledFrom arena place (node :: rest) = settle (node, place) (settledFrom arena (place + 1) rest) := by
  rw [settledFrom, List.zipIdx_cons, List.foldr_cons]
  rfl

theorem cleared_cons (slots : Slots T N) (place : Nat) (rest : List Nat) :
    cleared slots (place :: rest) = cleared (slots.setIfInBounds place none) rest :=
  rfl

theorem getElem?_cleared (slots : Slots T N) (places : List Nat) (place : Nat) :
    (cleared slots places)[place]? = if place ∈ places then slots[place]?.map fun _ => none else slots[place]? := by
  induction places generalizing slots with
  | nil => simp [cleared]
  | cons first rest ih =>
    rw [cleared_cons, ih, Array.getElem?_setIfInBounds]
    by_cases same : first = place
    · subst same
      by_cases inside : first < slots.size
      · simp [inside]
      · simp [inside]
    · simp [same, Ne.symm same]

theorem size_cleared (slots : Slots T N) (places : List Nat) : (cleared slots places).size = slots.size := by
  induction places generalizing slots with
  | nil => rfl
  | cons first rest ih => rw [cleared_cons, ih, Array.size_setIfInBounds]

/-- Trees that wait in different slots are all found, in the order in which they are asked for. -/
theorem taken_eq {slots : Slots T N} {places : List Nat} {children : List (Tree T N)} (distinct : places.Nodup)
    (represented : List.Forall₂ arena.Represents places children)
    (full : ∀ place ∈ places, ∀ tree, arena.Represents place tree → slots[place]? = some (some tree)) :
    taken slots places = children := by
  induction represented generalizing slots with
  | nil => rfl
  | @cons place tree rest children here _ ih =>
    obtain ⟨apart, distinct⟩ := List.nodup_cons.mp distinct
    rw [taken, full place (List.mem_cons_self ..) tree here, ih distinct]
    · rfl
    · intro other member tree' there
      have different : place ≠ other := fun same => apart (same ▸ member)
      rw [Array.getElem?_setIfInBounds, if_neg different]
      exact full other (List.mem_cons_of_mem _ member) tree' there

theorem represents_unique {place : Nat} {tree other : Tree T N} (represented : arena.Represents place tree)
    (represented' : arena.Represents place other) : tree = other := by
  have built := builtFrom_represented arena.toList [] rfl place (Nat.zero_le _)
  exact Option.some.inj ((built tree represented).symm.trans (built other represented'))

/-! An arena that is cut in two. -/

theorem getElem?_of_split {front nodes : List (Pending T N)} (split : arena.toList = front ++ nodes) (offset : Nat) :
    arena[front.length + offset]? = nodes[offset]? := by
  rw [← Array.getElem?_toList, split, List.getElem?_append_right (Nat.le_add_right ..), Nat.add_sub_cancel_left]

theorem Linked.behind_split (linked : arena.Linked) {front nodes : List (Pending T N)}
    (split : arena.toList = front ++ nodes) {child : Nat} (member : child ∈ nodes.flatMap Pending.children) :
    front.length < child := by
  obtain ⟨node, present, named⟩ := List.mem_flatMap.mp member
  obtain ⟨offset, found⟩ := List.getElem?_of_mem present
  have bounds := linked (front.length + offset) node ((getElem?_of_split split offset).trans found) child named
  omega

/-- A node names each of its children once, and no later node names them again. -/
theorem Owned.children_apart (owned : arena.Owned) {front rest : List (Pending T N)} {node : Pending T N}
    (split : arena.toList = front ++ node :: rest) :
    node.children.Nodup ∧ ∀ child ∈ node.children, child ∉ rest.flatMap Pending.children := by
  have distinct := owned.nodup_named
  rw [named, split, List.flatMap_append, List.flatMap_cons, List.nodup_append, List.nodup_append] at distinct
  obtain ⟨_, ⟨row, _, apart⟩, _⟩ := distinct
  exact ⟨row, fun child member again => apart child member child again rfl⟩

/-- The slots after some nodes, of which the first has the given place, are settled: a slot is full if its tree is built
and no settled node has taken it. -/
structure Waiting (arena : Arena T N) (first : Nat) (nodes : List (Pending T N)) (slots : Slots T N) : Prop where
  size : slots.size = arena.size
  slot : ∀ place tree, arena.Represents place tree → slots[place]? =
    some (if first ≤ place ∧ place ∉ nodes.flatMap Pending.children then some tree else none)

/-- The children of the next node wait for it, so the tree that is put into its slot is the tree of the node. -/
theorem Owned.slot_settle_own (owned : arena.Owned) {front rest : List (Pending T N)} {node : Pending T N}
    (split : arena.toList = front ++ node :: rest) {slots : Slots T N}
    (waiting : Waiting arena (front.length + 1) rest slots) {tree : Tree T N}
    (represented : arena.Represents front.length tree) :
    (settle (node, front.length) slots)[front.length]? = some (some tree) := by
  have found : arena[front.length]? = some node := getElem?_of_split split 0
  obtain ⟨row, apart⟩ := owned.children_apart split
  obtain ⟨label, children⟩ := tree
  obtain ⟨places, found', _, below⟩ := represents_node.mp represented
  rw [found] at found'
  cases found'
  have full : taken slots places = children := by
    refine taken_eq row below ?_
    intro child member tree represented
    have behind := (owned.linked _ _ found child member).1
    rw [waiting.slot child tree represented, if_pos ⟨behind, apart child member⟩]
  have own : front.length < slots.size := waiting.size ▸ represented.inside
  rw [settle, Array.getElem?_setIfInBounds, if_pos rfl, size_cleared, if_pos own, full]

/-- Only nodes in front of a node can name it. -/
theorem Owned.waiting_settle (owned : arena.Owned) {front rest : List (Pending T N)} {node : Pending T N}
    (split : arena.toList = front ++ node :: rest) {slots : Slots T N}
    (waiting : Waiting arena (front.length + 1) rest slots) :
    Waiting arena front.length (node :: rest) (settle (node, front.length) slots) where
  size := by rw [settle, Array.size_setIfInBounds, size_cleared, waiting.size]
  slot place tree represented := by
    by_cases here : front.length = place
    · subst here
      have unnamed : front.length ∉ (node :: rest).flatMap Pending.children :=
        fun member => Nat.lt_irrefl _ (owned.linked.behind_split split member)
      rw [owned.slot_settle_own split waiting represented, if_pos ⟨Nat.le_refl _, unnamed⟩]
    · rw [settle, Array.getElem?_setIfInBounds, if_neg here, getElem?_cleared, List.flatMap_cons]
      by_cases member : place ∈ node.children
      · rw [if_pos member, if_neg fun free => free.2 (List.mem_append_left _ member),
          waiting.slot place tree represented]
        rfl
      · have same : front.length + 1 ≤ place ∧ place ∉ rest.flatMap Pending.children ↔
            front.length ≤ place ∧ place ∉ node.children ++ rest.flatMap Pending.children := by
          have order : front.length + 1 ≤ place ↔ front.length ≤ place := by omega
          rw [List.mem_append, not_or, order]
          simp [member]
        rw [if_neg member, waiting.slot place tree represented]
        simp only [same]

theorem Owned.waiting_settledFrom (owned : arena.Owned) (nodes front : List (Pending T N))
    (split : arena.toList = front ++ nodes) :
    Waiting arena front.length nodes (settledFrom arena front.length nodes) := by
  induction nodes generalizing front with
  | nil =>
    have size : arena.size = front.length := by rw [← Array.length_toList, split, List.append_nil]
    refine ⟨Array.size_replicate, ?_⟩
    intro place tree represented
    have inside := represented.inside
    rw [if_neg (by omega)]
    simp [settledFrom, inside]
  | cons node rest ih =>
    have later := ih (front ++ [node]) (by rw [split, List.append_assoc]; rfl)
    rw [List.length_append, List.length_singleton] at later
    rw [settledFrom_cons]
    exact owned.waiting_settle split later

/-- In the end the tree of the arena waits in the first slot, and all others have been taken. -/
theorem Owned.toList_settled (owned : arena.Owned) {tree : Tree T N} (represented : arena.Represents 0 tree) :
    arena.settled.toList = some tree :: List.replicate (arena.size - 1) none := by
  have waiting : Waiting arena 0 arena.toList arena.settled := owned.waiting_settledFrom arena.toList [] rfl
  apply List.ext_getElem?
  intro place
  rw [Array.getElem?_toList]
  by_cases inside : place < arena.size
  · obtain ⟨tree', represented'⟩ := owned.linked.exists_represents place inside
    rw [waiting.slot place tree' represented']
    cases place with
    | zero =>
      have unnamed : 0 ∉ arena.toList.flatMap Pending.children := fun member => (owned.linked.bounds member).1 rfl
      rw [if_pos ⟨Nat.le_refl 0, unnamed⟩, represents_unique represented' represented]
      rfl
    | succ place =>
      have member : place + 1 ∈ arena.toList.flatMap Pending.children :=
        owned.mem_named_iff.mpr ⟨Nat.succ_ne_zero place, inside⟩
      rw [if_neg fun free => free.2 member, List.getElem?_cons_succ, List.getElem?_replicate_of_lt (by omega)]
  · have nonempty := owned.nonempty
    have size := waiting.size
    rw [Array.getElem?_eq_none (by omega), List.getElem?_eq_none]
    rw [List.length_cons, List.length_replicate]
    omega

/-- A node that is named twice is copied when it is looked up, and found only once when it is moved. -/
example :
    let shared : Arena Nat Nat := #[⟨⟨.epsilon, none, none, 1⟩, [1, 1]⟩, .bare .epsilon 1]
    shared.assemble?.map Tree.count = some 3 ∧ shared.settled[0]?.join.map Tree.count = some 2 := by
  decide

theorem Owned.exists_assembled (owned : arena.Owned) :
    ∃ tree, arena.assemble? = some tree ∧ arena.Represents 0 tree := by
  obtain ⟨tree, represented⟩ := owned.linked.exists_represents 0 owned.nonempty
  exact ⟨tree, assemble?_of_represents represented, represented⟩

end Arena

namespace Parser
variable {T N : Type} {state next : State T N}

/-- In an arena where every node has its owner, every goal has a place of its own, and the node there has no children
yet. -/
structure Tended (state : State T N) : Prop where
  owned : state.arena.Owned
  distinct : (state.goals.map Goal.place).Nodup
  childless : ∀ goal ∈ state.goals, ∃ node, state.arena[goal.place]? = some node ∧ node.children = []

theorem Tended.inside (tended : Tended state) {goal : Goal T N} (member : goal ∈ state.goals) :
    goal.place < state.arena.size := by
  obtain ⟨node, found, _⟩ := tended.childless goal member
  exact (Array.getElem?_eq_some_iff.mp found).1

/-- The goals behind the first have places other than its own and than each other's. -/
theorem Tended.apart (tended : Tended state) {goal : Goal T N} {rest : List (Goal T N)}
    (goals : state.goals = goal :: rest) :
    (∀ other ∈ rest, other ∈ state.goals ∧ other.place ≠ goal.place) ∧ (rest.map Goal.place).Nodup := by
  have distinct := tended.distinct
  rw [goals, List.map_cons, List.nodup_cons] at distinct
  refine ⟨?_, distinct.2⟩
  intro other member
  exact ⟨goals ▸ List.mem_cons_of_mem goal member, fun same => distinct.1 (List.mem_map.mpr ⟨other, member, same⟩)⟩

theorem Tended.take (tended : Tended state) {goal : Goal T N} {rest : List (Goal T N)}
    (goals : state.goals = goal :: rest) (token : Token T) (tokens : List (Token T)) :
    Tended (state.take goal rest token tokens) := by
  obtain ⟨others, distinct⟩ := tended.apart goals
  obtain ⟨node, found, _⟩ := tended.childless goal (goals ▸ List.mem_cons_self ..)
  refine ⟨tended.owned.fill found token.lexeme token.line, distinct, ?_⟩
  intro other member
  obtain ⟨present, different⟩ := others other member
  obtain ⟨node', found', childless⟩ := tended.childless other present
  exact ⟨node', (Arena.getElem?_fill_other _ _ _ different).trans found', childless⟩

theorem Tended.expand (tended : Tended state) {goal : Goal T N} {rest : List (Goal T N)}
    (goals : state.goals = goal :: rest) (index : Nat) (right : List (Sign T N)) :
    Tended (state.expand goal rest index right) := by
  obtain ⟨others, distinct⟩ := tended.apart goals
  obtain ⟨node, found, childless⟩ := tended.childless goal (goals ▸ List.mem_cons_self ..)
  refine ⟨tended.owned.expand found childless index right state.line, ?_, ?_⟩
  · exact nodup_places_expand distinct (fun other member => tended.inside (others other member).1) goal right
  · intro other member
    rcases List.mem_append.mp member with new | old
    · obtain ⟨offset, place, sign⟩ := place_subgoals new
      exact ⟨_, place ▸ Arena.getElem?_expand_new _ _ _ _ sign, rfl⟩
    · obtain ⟨present, different⟩ := others other old
      obtain ⟨node', found', childless'⟩ := tended.childless other present
      exact ⟨node', (Arena.getElem?_expand_other _ _ _ (tended.inside present) different).trans found', childless'⟩

variable [Ord T] [Ord N]

theorem tended_initial (parser : Parser T N) (tokens : List (Token T)) : Tended (parser.initial tokens) where
  owned := by
    refine ⟨Nat.one_pos, linked_initial parser tokens, ?_⟩
    intro place behind inside
    exact absurd (Nat.lt_one_iff.mp inside) behind
  distinct := List.nodup_singleton _
  childless goal member := by
    cases List.mem_singleton.mp member
    exact ⟨_, rfl, rfl⟩

variable [DecidableEq T] {parser : Parser T N}

theorem Tended.advance (tended : Tended state) (moved : parser.advance state = .next next) : Tended next := by
  rcases advance_next_cases moved with ⟨goal, rest, token, tokens, goals, _, _, rfl⟩ |
    ⟨goal, rest, _, index, production, goals, _, _, _, rfl⟩ | ⟨goal, rest, goals, _, rfl⟩
  · exact tended.take goals token tokens
  · exact tended.expand goals index production.right
  · obtain ⟨others, distinct⟩ := tended.apart goals
    exact ⟨tended.owned, distinct, fun other member => tended.childless other (others other member).1⟩

theorem owned_after {tokens : List (Token T)} {count : Nat}
    (reached : parser.after count (parser.initial tokens) = some state) : state.arena.Owned :=
  (after_induction (fun _ _ tended moved => tended.advance moved) (tended_initial parser tokens) reached).owned

/-- The steps of a run are rounds of the loop. -/
theorem owned_of_steps {tokens : List (Token T)}
    (steps : Relation.ReflTransGen (fun before next => parser.step before = .next next) (parser.initial tokens) state) :
    state.arena.Owned := by
  suffices tended : Tended state from tended.owned
  induction steps with
  | refl => exact tended_initial parser tokens
  | tail _ moved ih => exact ih.advance (advance_of_step_next moved)

theorem owned_of_run {tokens : List (Token T)} {arena : Arena T N}
    (ran : parser.run (parser.initial tokens) = .ok arena) : arena.Owned := by
  obtain ⟨count, last, reached, accepted⟩ := rounds_of_run ran
  obtain ⟨_, _, rfl⟩ := advance_accept accepted
  exact owned_after reached

/-- The tree of a parse is assembled from the arena of its run; there is always one. -/
theorem assembled_of_parse {tokens : List (Token T)} {tree : Tree T N} (parsed : parser.parse tokens = .ok tree) :
    ∃ arena, parser.run (parser.initial tokens) = .ok arena ∧ arena.assemble? = some tree := by
  rw [parse] at parsed
  cases ran : parser.run (parser.initial tokens) with
  | error error =>
    rw [ran] at parsed
    cases parsed
  | ok arena =>
    obtain ⟨assembled, same, _⟩ := (owned_of_run ran).exists_assembled
    rw [ran] at parsed
    simp only [bind, Except.bind, pure, Except.pure, Except.ok.injEq, same, Option.getD_some] at parsed
    exact ⟨arena, rfl, parsed ▸ same⟩

end Parser

/-- Assembly loses no node and duplicates none. Where children stand behind their parent, and every node but the first
is named once among all children, there is a tree: at every address it has the label of the node that the address leads
to from the first, and nothing where the address leads nowhere; every place is reached along one address; the tree has
as many nodes as the arena. Trees that are moved from slot to slot, instead of being looked up, come out the same, and
none is left behind. All arenas of a parser are such, in every round of its loop and so after every step of a run, and
the tree of a parse is what the last of them is assembled into. -/
theorem Arena.assembly_lossless {T N : Type} [Ord T] [Ord N] [DecidableEq T] [DecidableEq N] :
    (∀ arena : Arena T N, arena.Owned → ∃ tree, arena.assemble? = some tree ∧
      (∀ address, (tree.at? address).map Tree.label =
        (arena.placeAt? address 0).bind fun place => arena[place]?.map Pending.label) ∧
      (∀ place < arena.size, ∃! address, arena.placeAt? address 0 = some place) ∧
      tree.size = arena.size ∧
      arena.settled.toList = some tree :: List.replicate (arena.size - 1) none) ∧
    ∀ (parser : Parser T N) (tokens : List (Token T)),
      (∀ count state, parser.after count (parser.initial tokens) = some state → state.arena.Owned) ∧
      (∀ state, Relation.ReflTransGen (fun before next => parser.step before = .next next) (parser.initial tokens) state →
        state.arena.Owned) ∧
      (∀ arena, parser.run (parser.initial tokens) = .ok arena → arena.Owned) ∧
      ∀ tree, parser.parse tokens = .ok tree →
        ∃ arena, parser.run (parser.initial tokens) = .ok arena ∧ arena.assemble? = some tree := by
  refine ⟨?_, ?_⟩
  · intro arena owned
    obtain ⟨tree, assembled, represented⟩ := owned.exists_assembled
    refine ⟨tree, assembled, represented.label_at?, ?_, owned.size_eq represented, owned.toList_settled represented⟩
    intro place inside
    obtain ⟨address, reached⟩ := owned.exists_address place inside
    exact ⟨address, reached, fun other reached' => owned.address_unique reached' reached⟩
  · intro parser tokens
    exact ⟨fun _ _ reached => Parser.owned_after reached, fun _ steps => Parser.owned_of_steps steps,
      fun _ ran => Parser.owned_of_run ran, fun _ parsed => Parser.assembled_of_parse parsed⟩

/-- Six nodes whose children stand in no order but behind their parents. -/
def Arena.crossed : Arena Nat Nat :=
  let node (line : Nat) (children : List Nat) : Pending Nat Nat := ⟨⟨.nonTerminal line, none, none, line⟩, children⟩
  #[node 0 [3, 1], node 1 [5, 2], node 2 [], node 3 [4], node 4 [], node 5 []]

/-- A list of sevens, each of which stands beside the list of those behind it. -/
def Parser.sevens : Parser Nat Nat :=
  let grammar : Grammar Nat Nat := ⟨0, [⟨0, [.terminal 7, .nonTerminal 0]⟩, ⟨0, []⟩]⟩
  ⟨grammar, (Table.build grammar (.ofGrammar grammar)).toOption.getD .empty⟩

def Parser.threeSevens : List (Token Nat) :=
  [⟨7, "seven", 1⟩, ⟨7, "7", 1⟩, ⟨7, "VII", 2⟩]

theorem Arena.assembly_lossless_crossed :
    (crossed.Owned ∧ ∃ tree, crossed.assemble? = some tree ∧ tree.size = 6 ∧
      (tree.at? [1, 0]).map (fun below => below.label.line) = some 5) ∧
    (∃ state, Parser.sevens.after 3 (Parser.sevens.initial Parser.threeSevens) = some state ∧ state.arena.Owned) ∧
    (∃ next, Parser.sevens.step (Parser.sevens.initial Parser.threeSevens) = .next next ∧ next.arena.Owned) ∧
    ∃ (tree : Tree Nat Nat) (arena : Arena Nat Nat), Parser.sevens.parse Parser.threeSevens = .ok tree ∧ arena.Owned ∧
      arena.assemble? = some tree ∧ arena.size = 7 := by
  have goesOn : (Parser.sevens.after 3 (Parser.sevens.initial Parser.threeSevens)).isSome = true := by decide +kernel
  have moves : ∃ next, Parser.sevens.step (Parser.sevens.initial Parser.threeSevens) = .next next := ⟨_, rfl⟩
  have runs : (Parser.sevens.runWithin 9 (Parser.sevens.initial Parser.threeSevens)).map
      (fun answer => answer.toOption.map Array.size) = some (some 7) := by decide +kernel
  obtain ⟨assembles, parses⟩ := @assembly_lossless Nat Nat _ _ _ _
  obtain ⟨rounds, steps, accepted, parsed⟩ := parses Parser.sevens Parser.threeSevens
  refine ⟨?_, ?_, ?_, ?_⟩
  · have owned : crossed.Owned := by decide
    obtain ⟨tree, assembled, labels, _, size, _⟩ := assembles crossed owned
    refine ⟨owned, tree, assembled, size, ?_⟩
    have label := congrArg (Option.map Label.line) (labels [1, 0])
    rw [Option.map_map] at label
    exact label
  · obtain ⟨state, reached⟩ := Option.isSome_iff_exists.mp goesOn
    exact ⟨state, reached, rounds 3 state reached⟩
  · obtain ⟨next, moved⟩ := moves
    exact ⟨next, moved, steps next (.single moved)⟩
  · obtain ⟨answer, done, size⟩ := Option.map_eq_some_iff.mp runs
    cases answer with
    | error error => cases size
    | ok arena =>
      have ran := Parser.run_of_runWithin done
      obtain ⟨tree, succeeds⟩ : ∃ tree, Parser.sevens.parse Parser.threeSevens = .ok tree :=
        ⟨_, by rw [Parser.parse, ran]; rfl⟩
      obtain ⟨arena', ran', assembled⟩ := parsed tree succeeds
      rw [ran] at ran'
      cases ran'
      exact ⟨tree, arena, succeeds, accepted arena ran, assembled, Option.some.inj size⟩

end Minuscule
