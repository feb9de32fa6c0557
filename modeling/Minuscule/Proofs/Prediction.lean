import Minuscule.Grammar.Table
import Minuscule.Proofs.Derivation
import Minuscule.Proofs.Lookahead

/-!
What a table predicts. A table that is built holds a production in a cell exactly when the sign of the cell
is a lookahead of that production, so no two productions of a non-terminal share a lookahead. The first leaf
behind a conforming tree's place is a lookahead of the tree's own production; the table therefore names the
production of every tree that can stand over given leaves, and there is only one such tree.
-/

namespace Minuscule

namespace Table
variable {T N : Type} [Ord T] [Ord N]

theorem mem_claims {grammar : Grammar T N} {sets : Lookahead T N} {left : N} {sign : Sign T N} {index : Nat} :
    ((left, sign), index) ∈ claims grammar sets ↔ ∃ production, grammar.productions[index]? = some production ∧
      production.left = left ∧ sign ∈ sets.predict production := by
  simp only [claims, List.mem_flatMap, List.mem_map, Prod.exists, List.mem_zipIdx_iff_getElem?, Prod.mk.injEq]
  constructor
  · rintro ⟨production, place, found, lookahead, predicted, ⟨rfl, rfl⟩, rfl⟩
    exact ⟨production, found, rfl, predicted⟩
  · rintro ⟨production, found, rfl, predicted⟩
    exact ⟨production, index, found, sign, predicted, ⟨rfl, rfl⟩, rfl⟩

variable [Std.TransOrd T] [Std.TransOrd N] [Std.LawfulEqOrd T] [Std.LawfulEqOrd N]

instance : Std.TransCmp (cellOrder (T := T) (N := N)) :=
  inferInstanceAs (Std.TransCmp (compareLex (compareOn Prod.fst) (compareOn Prod.snd)))

instance : Std.LawfulEqCmp (cellOrder (T := T) (N := N)) where
  eq_of_compare {a b} same := by
    simp only [cellOrder, compareLex_eq_eq, compareOn] at same
    exact Prod.ext (Std.LawfulEqCmp.eq_of_compare same.1) (Std.LawfulEqCmp.eq_of_compare same.2)

theorem mem_predict {sets : Lookahead T N} {production : Production T N} {sign : Sign T N} :
    sign ∈ sets.predict production ↔
      (sign.isTerminal = true ∧ sign ∈ Lookahead.firstOfAll sets.first production.right) ∨
        (.epsilon ∈ Lookahead.firstOfAll sets.first production.right ∧ sign ∈ sets.follow.of production.left) := by
  rw [Lookahead.predict, List.mem_append, List.mem_filter, Std.TreeSet.mem_toList, and_comm]
  apply or_congr_right
  split
  · next contained => simp [Std.TreeSet.contains_iff_mem.mp contained]
  · next absent => simp [mt Std.TreeSet.contains_iff_mem.mpr absent]

/-- A claim fills its own cell, or finds it filled by itself, and leaves the others alone. -/
theorem claim_ok {table next : Table T N} {entry : (N × Sign T N) × Nat} (entered : table.claim entry = .ok next)
    (cell : N × Sign T N) (index : Nat) :
    next.cells[cell]? = some index ↔ table.cells[cell]? = some index ∨ (cell, index) = entry := by
  obtain ⟨place, claimant⟩ := entry
  simp only [claim] at entered
  split at entered
  · next empty =>
    cases entered
    rw [Std.TreeMap.getElem?_insert]
    by_cases same : place = cell
    · subst same
      rw [if_pos Std.ReflCmp.compare_self]
      simp [empty, eq_comm]
    · simp [same, Ne.symm same]
  · next existing found =>
    split at entered
    · next same =>
      cases entered
      subst same
      constructor
      · exact .inl
      · rintro (old | new)
        · exact old
        · cases new
          exact found
    · cases entered

theorem foldlM_claim {entries : List ((N × Sign T N) × Nat)} {table final : Table T N}
    (built : entries.foldlM claim table = .ok final) (cell : N × Sign T N) (index : Nat) :
    final.cells[cell]? = some index ↔ table.cells[cell]? = some index ∨ (cell, index) ∈ entries := by
  induction entries generalizing table with
  | nil =>
    cases built
    simp
  | cons entry rest ih =>
    rw [List.foldlM_cons] at built
    cases entered : table.claim entry with
    | error conflict =>
      rw [entered] at built
      cases built
    | ok next =>
      rw [entered] at built
      rw [ih built, claim_ok entered, or_assoc, List.mem_cons]

/-- A cell holds the production whose lookahead it is. -/
theorem get?_eq_some_iff {grammar : Grammar T N} {sets : Lookahead T N} {table : Table T N}
    (built : build grammar sets = .ok table) {left : N} {sign : Sign T N} {index : Nat} :
    table.get? left sign = some index ↔ ∃ production, grammar.productions[index]? = some production ∧
      production.left = left ∧ sign ∈ sets.predict production := by
  rw [get?, foldlM_claim built, mem_claims]
  simp [empty]

/-- Two productions of one non-terminal have no lookahead in common. -/
theorem index_unique {grammar : Grammar T N} {sets : Lookahead T N} {table : Table T N}
    (built : build grammar sets = .ok table) {one other : Nat} {production production' : Production T N}
    (found : grammar.productions[one]? = some production) (found' : grammar.productions[other]? = some production')
    (same : production.left = production'.left) {sign : Sign T N} (predicted : sign ∈ sets.predict production)
    (predicted' : sign ∈ sets.predict production') : one = other := by
  have cell := (get?_eq_some_iff built).mpr ⟨production, found, rfl, predicted⟩
  have cell' := (get?_eq_some_iff built).mpr ⟨production', found', same.symm, predicted'⟩
  rw [cell] at cell'
  exact Option.some.inj cell'

end Table

namespace Tree
variable {T N : Type}

mutual

/-- A tree without texts and lines: what is left is its form, its signs and its productions. -/
def skeleton : Tree T N → Tree T N
  | node label children => node ⟨label.sign, label.production, none, 0⟩ (skeletons children)

def skeletons : List (Tree T N) → List (Tree T N)
  | [] => []
  | tree :: rest => skeleton tree :: skeletons rest

end

theorem skeletons_eq_map (forest : List (Tree T N)) : skeletons forest = forest.map skeleton := by
  induction forest with
  | nil => rfl
  | cons tree rest ih => rw [skeletons, ih, List.map_cons]

/-- The sign of lookahead in front of a word. -/
def front : List T → Sign T N
  | [] => .endMark
  | kind :: _ => .terminal kind

section Lookaheads
variable [Ord T] [Ord N] [Std.TransOrd T] [Std.TransOrd N] [Std.LawfulEqOrd T] [Std.LawfulEqOrd N]
  {grammar : Grammar T N} {sets : Lookahead T N}

/-- What the leaves of a tree say of First: their first one is a member, and `ε` is if there are none. -/
def Witnessed (sets : Lookahead T N) (tree : Tree T N) : Prop :=
  (tree.leaves = [] → .epsilon ∈ Lookahead.firstOf sets.first tree.sign) ∧
    ∀ kind rest, tree.leaves = kind :: rest → .terminal kind ∈ Lookahead.firstOf sets.first tree.sign

theorem epsilon_of_forest {forest : List (Tree T N)} (each : ∀ tree ∈ forest, Witnessed sets tree)
    (none : forest.flatMap leaves = []) : .epsilon ∈ Lookahead.firstOfAll sets.first (forest.map sign) := by
  rw [Lookahead.epsilon_mem_firstOfAll]
  intro sign member
  obtain ⟨tree, present, rfl⟩ := List.mem_map.mp member
  exact (each tree present).1 (List.flatMap_eq_nil_iff.mp none tree present)

theorem terminal_of_forest {forest : List (Tree T N)} (each : ∀ tree ∈ forest, Witnessed sets tree) {kind : T}
    {rest : List T} (some : forest.flatMap leaves = kind :: rest) :
    .terminal kind ∈ Lookahead.firstOfAll sets.first (forest.map sign) := by
  induction forest with
  | nil => simp at some
  | cons tree trees ih =>
    rw [List.map_cons, Lookahead.mem_firstOfAll_cons]
    have here := each tree (List.mem_cons_self ..)
    rw [List.flatMap_cons] at some
    cases own : tree.leaves with
    | nil =>
      rw [own, List.nil_append] at some
      exact .inr ⟨here.1 own, ih (fun other member => each other (List.mem_cons_of_mem _ member)) some⟩
    | cons first others =>
      rw [own, List.cons_append] at some
      cases some
      exact .inl ⟨by simp, here.2 _ _ own⟩

variable [DecidableEq T] [DecidableEq N]

theorem witnessed_of_conforms (closed : sets.Closed grammar) (tree : Tree T N)
    (conforming : tree.conforms grammar = true) : Witnessed sets tree := by
  induction tree using by_children with
  | node label children ih =>
    rw [Witnessed, leaves_node]
    change (_ → _ ∈ Lookahead.firstOf sets.first label.sign) ∧
      ∀ kind rest, _ → _ ∈ Lookahead.firstOf sets.first label.sign
    rcases conforms_cases conforming with
      ⟨kind, signed, _, rfl⟩ | ⟨index, production, signed, _, found, right, below⟩
    · rw [signed]
      simp [ownLeaf, Lookahead.mem_firstOf_terminal]
    · have each : ∀ child ∈ children, Witnessed sets child :=
        fun child member => ih child member (below child member)
      have expand := closed.first production (List.mem_of_getElem? found)
      rw [right] at expand
      rw [signed]
      constructor
      · intro none
        exact expand _ (epsilon_of_forest each none)
      · intro kind rest some
        exact expand _ (terminal_of_forest each some)

/-- Behind each non-terminal of a row of trees stands a sign that may follow it. -/
def Followed (sets : Lookahead T N) : List (Tree T N) → Prop
  | [] => True
  | tree :: rest =>
    (∀ kind, tree.sign = .nonTerminal kind → front (rest.flatMap leaves) ∈ sets.follow.of kind) ∧
      Followed sets rest

/-- The production of the first tree of a row has the first leaf of the row as a lookahead. -/
theorem front_mem_predict (closed : sets.Closed grammar) {label : Label T N} {children rest : List (Tree T N)}
    (followed : Followed sets (node label children :: rest)) {production : Production T N}
    (signed : label.sign = .nonTerminal production.left) (right : production.right = children.map sign)
    (below : ∀ child ∈ children, child.conforms grammar = true) :
    front ((node label children :: rest).flatMap leaves) ∈ sets.predict production := by
  have each : ∀ child ∈ children, Witnessed sets child :=
    fun child member => witnessed_of_conforms closed child (below child member)
  rw [List.flatMap_cons, leaves_node, signed, Table.mem_predict, right]
  cases own : children.flatMap leaves with
  | nil => exact .inr ⟨epsilon_of_forest each own, followed.1 production.left signed⟩
  | cons kind others => exact .inl ⟨rfl, terminal_of_forest each own⟩

/-- A row stays followed when its first tree is replaced by the trees below it. The suffixes of the children are
followed one after the other, from the last to the first. -/
theorem followed_children (closed : sets.Closed grammar) {label : Label T N} {children rest : List (Tree T N)}
    (followed : Followed sets (node label children :: rest)) {production : Production T N}
    (member : production ∈ grammar.productions) (signed : label.sign = .nonTerminal production.left)
    (right : production.right = children.map sign) (below : ∀ child ∈ children, child.conforms grammar = true) :
    Followed sets (children ++ rest) := by
  suffices each : ∀ front back, children = front ++ back → Followed sets (back ++ rest) from each [] children rfl
  intro before back
  induction back generalizing before with
  | nil => exact fun _ => followed.2
  | cons child back ih =>
    intro split
    refine ⟨?_, ih (before ++ [child]) (by simp [split])⟩
    intro kind own
    have place : production.right = before.map sign ++ .nonTerminal kind :: back.map sign := by
      rw [right, split, List.map_append, List.map_cons, own]
    have witnessed : ∀ other ∈ back, Witnessed sets other := fun other inside =>
      witnessed_of_conforms closed other (below other (by simp [split, inside]))
    change front ((back ++ rest).flatMap leaves) ∈ _
    rw [List.flatMap_append]
    cases behind : back.flatMap leaves with
    | nil =>
      apply closed.last production member _ kind _ place (epsilon_of_forest witnessed behind)
      exact followed.1 production.left signed
    | cons first others =>
      exact closed.next production member _ kind _ place _ (terminal_of_forest witnessed behind) (by simp [front])

/-- The productions of two first trees have the first leaf as a lookahead, so they are one if the leaves are the same. -/
theorem index_eq_of_leaves (closed : sets.Closed grammar) {table : Table T N}
    (built : Table.build grammar sets = .ok table) {label label' : Label T N}
    {children children' rest rest' : List (Tree T N)} {index index' : Nat} {production production' : Production T N}
    (followed : Followed sets (node label children :: rest))
    (followed' : Followed sets (node label' children' :: rest'))
    (signed : label.sign = .nonTerminal production.left) (signed' : label'.sign = .nonTerminal production'.left)
    (found : grammar.productions[index]? = some production) (found' : grammar.productions[index']? = some production')
    (right : production.right = children.map sign) (right' : production'.right = children'.map sign)
    (below : ∀ child ∈ children, child.conforms grammar = true)
    (below' : ∀ child ∈ children', child.conforms grammar = true) (same : label'.sign = label.sign)
    (leaves : (node label children :: rest).flatMap leaves = (node label' children' :: rest').flatMap leaves) :
    index = index' := by
  have left : production.left = production'.left := by
    rw [same, signed] at signed'
    exact Sign.nonTerminal.inj signed'
  have predicted := front_mem_predict closed followed signed right below
  have predicted' := front_mem_predict closed followed' signed' right' below'
  rw [← leaves] at predicted'
  exact Table.index_unique built found found' left predicted predicted'

/-- Over given leaves there is at most one row of trees with given signs. -/
theorem skeletons_unique (closed : sets.Closed grammar) {table : Table T N}
    (built : Table.build grammar sets = .ok table) (forest other : List (Tree T N))
    (conforming : ∀ tree ∈ forest, tree.conforms grammar = true)
    (conforming' : ∀ tree ∈ other, tree.conforms grammar = true) (followed : Followed sets forest)
    (followed' : Followed sets other) (signs : forest.map sign = other.map sign)
    (leaves : forest.flatMap leaves = other.flatMap leaves) : forest.map skeleton = other.map skeleton := by
  induction size : countAll forest using Nat.strong_induction_on generalizing forest other with
  | _ size ih =>
    cases forest with
    | nil =>
      rw [List.map_nil, eq_comm, List.map_eq_nil_iff] at signs
      rw [signs]
    | cons tree rest =>
      obtain ⟨tree', rest', rfl, sign', signs'⟩ := List.map_eq_cons_iff.mp signs.symm
      obtain ⟨label, children⟩ := tree
      obtain ⟨label', children'⟩ := tree'
      replace sign' : label'.sign = label.sign := sign'
      have later : ∀ tree ∈ rest, tree.conforms grammar = true :=
        fun tree member => conforming tree (List.mem_cons_of_mem _ member)
      have later' : ∀ tree ∈ rest', tree.conforms grammar = true :=
        fun tree member => conforming' tree (List.mem_cons_of_mem _ member)
      rcases conforms_cases (conforming _ (List.mem_cons_self ..)) with
        ⟨kind, signed, bare, rfl⟩ | ⟨index, production, signed, recorded, found, right, below⟩
      · rcases conforms_cases (conforming' _ (List.mem_cons_self ..)) with
          ⟨kind', signed', bare', rfl⟩ | ⟨index', production', signed', _⟩
        · have shorter : rest.flatMap Tree.leaves = rest'.flatMap Tree.leaves := by
            simpa [leaves_node, sign', signed, ownLeaf] using leaves
          have same := ih _ (by simp only [countAll, count] at size; omega) rest rest' later later' followed.2
            followed'.2 signs'.symm shorter rfl
          simp [skeleton, skeletons, same, sign', bare, bare']
        · rw [sign', signed] at signed'
          cases signed'
      · rcases conforms_cases (conforming' _ (List.mem_cons_self ..)) with
          ⟨kind', signed', _⟩ | ⟨index', production', signed', recorded', found', right', below'⟩
        · rw [sign', signed] at signed'
          cases signed'
        · obtain rfl := index_eq_of_leaves closed built followed followed' signed signed' found found' right right' below
            below' sign' leaves
          obtain rfl : production = production' := Option.some.inj (found.symm.trans found')
          have shorter : (children ++ rest).flatMap Tree.leaves = (children' ++ rest').flatMap Tree.leaves := by
            simpa [leaves_node, sign', signed, ownLeaf] using leaves
          have same := ih _ (by simp only [countAll, count, countAll_append] at size ⊢; omega) (children ++ rest)
            (children' ++ rest') (by simpa [or_imp, forall_and] using ⟨below, later⟩)
            (by simpa [or_imp, forall_and] using ⟨below', later'⟩)
            (followed_children closed followed (List.mem_of_getElem? found) signed right below)
            (followed_children closed followed' (List.mem_of_getElem? found) signed' right' below')
            (by rw [List.map_append, List.map_append, ← right, ← right', signs']) shorter rfl
          rw [List.map_append, List.map_append] at same
          obtain ⟨top, bottom⟩ := List.append_inj same (by
            have lengths := congrArg List.length (right.symm.trans right')
            simpa using lengths)
          simp [skeleton, skeletons_eq_map, top, bottom, sign', recorded, recorded']

end Lookaheads

end Tree

end Minuscule
