import Minuscule.Tree.Arena
import Mathlib.Data.List.Forall2

/-!
What an arena stands for. A place of an arena represents a tree when the node in that place has the label of
the tree and names, behind itself, places that represent the children. An arena whose first place represents a
tree is assembled into that tree. The three ways to fill in an arena change one node and leave every other
place as it was; the children that a node names stay behind it and inside the arena.
-/

namespace Minuscule.Arena
variable {T N : Type}

mutual

def Represents (arena : Arena T N) (place : Nat) : Tree T N → Prop
  | .node label children => ∃ places, arena[place]? = some ⟨label, places⟩ ∧ (∀ child ∈ places, place < child) ∧
      RepresentsAll arena places children

def RepresentsAll (arena : Arena T N) : List Nat → List (Tree T N) → Prop
  | [], [] => True
  | place :: places, tree :: trees => Represents arena place tree ∧ RepresentsAll arena places trees
  | _, _ => False

end

theorem representsAll_iff {arena : Arena T N} {places : List Nat} {trees : List (Tree T N)} :
    RepresentsAll arena places trees ↔ List.Forall₂ (Represents arena) places trees := by
  induction trees generalizing places with
  | nil => cases places <;> simp [RepresentsAll]
  | cons tree trees ih => cases places <;> simp [RepresentsAll, ih]

theorem represents_node {arena : Arena T N} {place : Nat} {label : Label T N} {children : List (Tree T N)} :
    Represents arena place (.node label children) ↔ ∃ places, arena[place]? = some ⟨label, places⟩ ∧
      (∀ child ∈ places, place < child) ∧ List.Forall₂ (Represents arena) places children := by
  rw [Represents]
  simp only [representsAll_iff]

/-- The trees that are built from the end of an arena, the last node first. -/
def builtFrom (arena : Arena T N) (nodes : List (Pending T N)) : Array (Tree T N) :=
  nodes.foldr (grow arena.size) #[]

theorem builtFrom_cons (arena : Arena T N) (node : Pending T N) (rest : List (Pending T N)) :
    builtFrom arena (node :: rest) = grow arena.size node (builtFrom arena rest) :=
  rfl

theorem size_builtFrom (arena : Arena T N) (nodes : List (Pending T N)) :
    (builtFrom arena nodes).size = nodes.length := by
  induction nodes with
  | nil => rfl
  | cons node rest ih =>
    rw [builtFrom_cons, grow, Array.size_push, List.length_cons, ih]

/-- Children that are built already are found in their order. -/
theorem filterMap_built {arena : Arena T N} {built : Array (Tree T N)} {places : List Nat}
    {children : List (Tree T N)} (represented : List.Forall₂ (Represents arena) places children)
    (found : ∀ place ∈ places, ∀ tree, Represents arena place tree → built[arena.size - 1 - place]? = some tree) :
    places.filterMap (fun child => built[arena.size - 1 - child]?) = children := by
  induction represented with
  | nil => rfl
  | cons here _ ih =>
    rw [List.filterMap_cons, found _ (List.mem_cons_self ..) _ here,
      ih fun place member => found place (List.mem_cons_of_mem _ member)]

/-- A tree is found at the place that counts from the other end. -/
theorem builtFrom_represented {arena : Arena T N} (nodes : List (Pending T N)) (front : List (Pending T N))
    (split : arena.toList = front ++ nodes) (place : Nat) (bound : front.length ≤ place) (tree : Tree T N)
    (represented : Represents arena place tree) :
    (builtFrom arena nodes)[arena.size - 1 - place]? = some tree := by
  induction nodes generalizing front place tree with
  | nil =>
    obtain ⟨label, children⟩ := tree
    obtain ⟨places, found, _⟩ := represents_node.mp represented
    rw [← Array.getElem?_toList, split, List.append_nil, List.getElem?_eq_none bound] at found
    cases found
  | cons node rest ih =>
    have size : arena.size = front.length + (rest.length + 1) := by
      rw [← Array.length_toList, split, List.length_append, List.length_cons]
    have built := size_builtFrom arena rest
    have later := ih (front ++ [node]) (by simp [split])
    rw [List.length_append, List.length_singleton] at later
    rw [builtFrom_cons, grow, Array.getElem?_push]
    obtain ⟨label, children⟩ := tree
    obtain ⟨places, found, order, below⟩ := represents_node.mp represented
    have inside := (Array.getElem?_eq_some_iff.mp found).1
    rcases Nat.eq_or_lt_of_le bound with rfl | behind
    · rw [← Array.getElem?_toList, split, List.getElem?_append_right (Nat.le_refl _), Nat.sub_self] at found
      cases found
      rw [if_pos (by omega), filterMap_built below fun child member => later child (order child member)]
    · rw [if_neg (by omega)]
      exact later place behind _ represented

theorem assemble?_of_represents {arena : Arena T N} {tree : Tree T N} (represented : Represents arena 0 tree) :
    arena.assemble? = some tree := by
  have built := builtFrom_represented arena.toList [] (List.nil_append _).symm 0 (Nat.zero_le _) tree represented
  rw [assemble?, ← Array.foldr_toList]
  change (builtFrom arena arena.toList).back? = _
  rw [Array.back?, size_builtFrom, Array.length_toList]
  exact built

/-! What becomes of the places of an arena. -/

theorem getElem?_fill_other (arena : Arena T N) {place other : Nat} (lexeme : String) (line : Nat)
    (different : other ≠ place) : (arena.fill place lexeme line)[other]? = arena[other]? := by
  rw [fill, Array.getElem?_modify, if_neg (Ne.symm different)]

theorem getElem?_fill_bare {arena : Arena T N} {place : Nat} {sign : Sign T N} {line : Nat}
    (bare : arena[place]? = some (.bare sign line)) (lexeme : String) (line' : Nat) :
    (arena.fill place lexeme line')[place]? = some ⟨⟨sign, none, some lexeme, line'⟩, []⟩ := by
  rw [fill, Array.getElem?_modify, if_pos rfl, bare]
  rfl

/-- An expansion marks one node and appends the nodes of a right-hand side. -/
theorem toList_expand (arena : Arena T N) (place index : Nat) (right : List (Sign T N)) (line : Nat) :
    (arena.expand place index right line).toList =
      (arena.modify place fun node =>
        ⟨{ node.label with production := some index, line := line }, List.range' arena.size right.length⟩).toList ++
        right.map (Pending.bare · line) :=
  Array.toList_appendList ..

theorem getElem?_expand_old {arena : Arena T N} {place other : Nat} (index : Nat) (right : List (Sign T N))
    (line : Nat) (inside : other < arena.size) :
    (arena.expand place index right line)[other]? = (arena.modify place fun node =>
      ⟨{ node.label with production := some index, line := line }, List.range' arena.size right.length⟩)[other]? := by
  rw [← Array.getElem?_toList, toList_expand, List.getElem?_append_left (by simpa using inside),
    Array.getElem?_toList]

theorem getElem?_expand_other {arena : Arena T N} {place other : Nat} (index : Nat) (right : List (Sign T N))
    (line : Nat) (inside : other < arena.size) (different : other ≠ place) :
    (arena.expand place index right line)[other]? = arena[other]? := by
  rw [getElem?_expand_old index right line inside, Array.getElem?_modify, if_neg (Ne.symm different)]

theorem getElem?_expand_bare {arena : Arena T N} {place : Nat} {sign : Sign T N} {line : Nat}
    (bare : arena[place]? = some (.bare sign line)) (index : Nat) (right : List (Sign T N)) (line' : Nat) :
    (arena.expand place index right line')[place]? =
      some ⟨⟨sign, some index, none, line'⟩, List.range' arena.size right.length⟩ := by
  have inside := (Array.getElem?_eq_some_iff.mp bare).1
  rw [getElem?_expand_old index right line' inside, Array.getElem?_modify, if_pos rfl, bare]
  rfl

theorem getElem?_expand_new (arena : Arena T N) (place index : Nat) {right : List (Sign T N)} (line : Nat)
    {offset : Nat} {sign : Sign T N} (found : right[offset]? = some sign) :
    (arena.expand place index right line)[arena.size + offset]? = some (.bare sign line) := by
  rw [← Array.getElem?_toList, toList_expand, List.getElem?_append_right (by simp)]
  simp [found]

theorem size_expand (arena : Arena T N) (place index : Nat) (right : List (Sign T N)) (line : Nat) :
    (arena.expand place index right line).size = arena.size + right.length := by
  rw [← Array.length_toList, toList_expand]
  simp

/-- Children stand behind their parent and inside the arena. -/
def Linked (arena : Arena T N) : Prop :=
  ∀ place node, arena[place]? = some node → ∀ child ∈ node.children, place < child ∧ child < arena.size

theorem Linked.fill {arena : Arena T N} (linked : arena.Linked) (place : Nat) (lexeme : String) (line : Nat) :
    (arena.fill place lexeme line).Linked := by
  intro other node found child member
  have size : (arena.fill place lexeme line).size = arena.size := by simp [Arena.fill]
  rw [size]
  by_cases same : other = place
  · subst same
    rw [Arena.fill, Array.getElem?_modify, if_pos rfl] at found
    obtain ⟨old, here, rfl⟩ := Option.map_eq_some_iff.mp found
    exact linked other old here child member
  · rw [getElem?_fill_other _ _ _ same] at found
    exact linked other node found child member

theorem Linked.expand {arena : Arena T N} (linked : arena.Linked) (place index : Nat) (right : List (Sign T N))
    (line : Nat) : (arena.expand place index right line).Linked := by
  intro other node found child member
  rw [size_expand]
  by_cases inside : other < arena.size
  · by_cases same : other = place
    · subst same
      rw [getElem?_expand_old _ _ _ inside, Array.getElem?_modify, if_pos rfl] at found
      obtain ⟨old, _, rfl⟩ := Option.map_eq_some_iff.mp found
      have fresh := List.mem_range'_1.mp member
      omega
    · rw [getElem?_expand_other _ _ _ inside same] at found
      have bounds := linked other node found child member
      omega
  · obtain ⟨offset, rfl⟩ := Nat.exists_eq_add_of_le (Nat.not_lt.mp inside)
    have bound := (Array.getElem?_eq_some_iff.mp found).1
    rw [size_expand] at bound
    have present : right[offset]? = some (right.get ⟨offset, by omega⟩) := List.getElem?_eq_getElem (by omega)
    rw [getElem?_expand_new _ _ _ _ present] at found
    cases found
    cases member

end Minuscule.Arena
