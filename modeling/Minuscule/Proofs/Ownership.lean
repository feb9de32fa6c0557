import Minuscule.Proofs.Addresses
import Minuscule.Proofs.Assembly
import Minuscule.Proofs.Lists
import Mathlib.Data.List.Nodup

/-!
Who owns the nodes of an arena. A node belongs to the one that names it among its children. Where nodes stand behind
their owners and each of them, but for the first, has one owner in whose row it stands once, a node is reached from the
first along one address and no other. The tree of such an arena has all nodes of the arena, each where its address says.
Filling in a node changes no owner; an expansion gives the new nodes to a node that had no children.
-/

namespace Minuscule

/-- No address comes twice in pre-order. -/
theorem Tree.nodup_addresses {T N : Type} (tree : Tree T N) : tree.addresses.Nodup :=
  tree.pairwise_addresses.imp fun less => (less.imp fun _ _ => Nat.ne_of_lt).to_ne

namespace Arena
variable {T N : Type} {arena : Arena T N}

/-- The places that nodes name as their children, node after node. -/
def named (arena : Arena T N) : List Nat :=
  arena.toList.flatMap Pending.children

theorem mem_named {place : Nat} :
    place ∈ arena.named ↔ ∃ (parent : Nat) (node : Pending T N), arena[parent]? = some node ∧ place ∈ node.children := by
  rw [named, List.mem_flatMap]
  constructor
  · rintro ⟨node, member, child⟩
    obtain ⟨parent, found⟩ := List.getElem?_of_mem member
    exact ⟨parent, node, by rwa [Array.getElem?_toList] at found, child⟩
  · rintro ⟨parent, node, found, child⟩
    rw [← Array.getElem?_toList] at found
    exact ⟨node, List.mem_of_getElem? found, child⟩

/-- There is a first node, children stand behind their parent and inside the arena, and every other node is a child
once. -/
structure Owned (arena : Arena T N) : Prop where
  nonempty : 0 < arena.size
  linked : arena.Linked
  once : ∀ place, place ≠ 0 → place < arena.size → arena.named.count place = 1

theorem linked_iff : arena.Linked ↔ ∀ entry ∈ arena.toList.zipIdx, ∀ child ∈ entry.1.children,
    entry.2 < child ∧ child < arena.size := by
  constructor
  · intro linked entry member
    rw [List.mem_zipIdx_iff_getElem?, Array.getElem?_toList] at member
    exact linked entry.2 entry.1 member
  · intro each place node found
    rw [← Array.getElem?_toList] at found
    exact each (node, place) (List.mem_zipIdx_iff_getElem?.mpr found)

instance : Decidable arena.Owned :=
  decidable_of_iff (0 < arena.size ∧ (∀ entry ∈ arena.toList.zipIdx, ∀ child ∈ entry.1.children,
      entry.2 < child ∧ child < arena.size) ∧
    ∀ place ∈ List.range arena.size, place ≠ 0 → arena.named.count place = 1) <| by
  rw [← linked_iff]
  constructor
  · rintro ⟨nonempty, linked, once⟩
    exact ⟨nonempty, linked, fun place behind inside => once place (List.mem_range.mpr inside) behind⟩
  · rintro ⟨nonempty, linked, once⟩
    exact ⟨nonempty, linked, fun place inside behind => once place behind (List.mem_range.mp inside)⟩

theorem Linked.bounds (linked : arena.Linked) {place : Nat} (member : place ∈ arena.named) :
    place ≠ 0 ∧ place < arena.size := by
  obtain ⟨parent, node, found, child⟩ := mem_named.mp member
  have bounds := linked parent node found place child
  omega

namespace Owned

theorem nodup_named (owned : arena.Owned) : arena.named.Nodup := by
  rw [List.nodup_iff_count_le_one]
  intro place
  by_cases member : place ∈ arena.named
  · obtain ⟨behind, inside⟩ := owned.linked.bounds member
    exact (owned.once place behind inside).le
  · rw [List.count_eq_zero_of_not_mem member]
    exact Nat.zero_le 1

theorem mem_named_iff (owned : arena.Owned) {place : Nat} : place ∈ arena.named ↔ place ≠ 0 ∧ place < arena.size := by
  constructor
  · exact owned.linked.bounds
  · rintro ⟨behind, inside⟩
    rw [← List.count_pos_iff, owned.once place behind inside]
    exact Nat.one_pos

/-- A node is named by one parent and in one position. -/
theorem link_unique (owned : arena.Owned) {place parent parent' index index' : Nat} {node node' : Pending T N}
    (found : arena[parent]? = some node) (child : node.children[index]? = some place)
    (found' : arena[parent']? = some node') (child' : node'.children[index']? = some place) :
    parent = parent' ∧ index = index' := by
  obtain ⟨rows, apart⟩ := List.nodup_flatMap.mp owned.nodup_named
  rw [← Array.getElem?_toList] at found found'
  have disjoint {one other : Nat} {first second : Pending T N} (here : arena.toList[one]? = some first)
      (there : arena.toList[other]? = some second) (earlier : one < other) (shared : place ∈ first.children) :
      place ∉ second.children := by
    obtain ⟨inside, rfl⟩ := List.getElem?_eq_some_iff.mp here
    obtain ⟨inside', rfl⟩ := List.getElem?_eq_some_iff.mp there
    exact fun both => List.pairwise_iff_getElem.mp apart one other inside inside' earlier shared both
  have member := List.mem_of_getElem? child
  have member' := List.mem_of_getElem? child'
  rcases Nat.lt_trichotomy parent parent' with earlier | rfl | later
  · exact absurd member' (disjoint found found' earlier member)
  · rw [found] at found'
    cases found'
    have row := rows node (List.mem_of_getElem? found)
    have inside := (List.getElem?_eq_some_iff.mp child).1
    exact ⟨rfl, (List.getElem?_inj inside row).mp (child.trans child'.symm)⟩
  · exact absurd member (disjoint found' found later member')

end Owned

/-! Addresses. -/

/-- The place that an address leads to when it is followed from a given one. -/
def placeAt? (arena : Arena T N) : List Nat → Nat → Option Nat
  | [], place => some place
  | index :: address, place => (arena[place]?.bind fun node => node.children[index]?).bind (placeAt? arena address)

theorem placeAt?_append (address below : List Nat) (place : Nat) :
    arena.placeAt? (address ++ below) place = (arena.placeAt? address place).bind (arena.placeAt? below) := by
  induction address generalizing place with
  | nil => rfl
  | cons index address ih =>
    rw [List.cons_append, placeAt?, placeAt?]
    cases arena[place]?.bind fun node => node.children[index]? with
    | none => rfl
    | some child => exact ih child

/-- The last step of an address goes from a parent to a child. -/
theorem placeAt?_concat {address : List Nat} {index place start : Nat} :
    arena.placeAt? (address ++ [index]) start = some place ↔ ∃ parent node, arena.placeAt? address start = some parent ∧
      arena[parent]? = some node ∧ node.children[index]? = some place := by
  rw [placeAt?_append, Option.bind_eq_some_iff]
  constructor
  · rintro ⟨parent, reached, last⟩
    rw [placeAt?, Option.bind_eq_some_iff] at last
    obtain ⟨child, step, same⟩ := last
    cases same
    obtain ⟨node, found, named⟩ := Option.bind_eq_some_iff.mp step
    exact ⟨parent, node, reached, found, named⟩
  · rintro ⟨parent, node, reached, found, named⟩
    refine ⟨parent, reached, ?_⟩
    rw [placeAt?, found, Option.bind_some, named]
    rfl

namespace Owned

theorem exists_address (owned : arena.Owned) (place : Nat) (inside : place < arena.size) :
    ∃ address, arena.placeAt? address 0 = some place := by
  induction place using Nat.strong_induction_on with
  | _ place ih =>
    by_cases first : place = 0
    · exact ⟨[], congrArg some first.symm⟩
    · obtain ⟨parent, node, found, child⟩ := mem_named.mp (owned.mem_named_iff.mpr ⟨first, inside⟩)
      have bounds := owned.linked parent node found place child
      obtain ⟨address, reached⟩ := ih parent bounds.1 (bounds.1.trans bounds.2)
      obtain ⟨index, named⟩ := List.getElem?_of_mem child
      exact ⟨address ++ [index], placeAt?_concat.mpr ⟨parent, node, reached, found, named⟩⟩

/-- An address is empty or ends with a step from a parent to a child. -/
theorem address_cases (owned : arena.Owned) {place : Nat} {address : List Nat}
    (reached : arena.placeAt? address 0 = some place) :
    (place = 0 ∧ address = []) ∨ ∃ front index parent node, address = front ++ [index] ∧ parent < place ∧
      arena.placeAt? front 0 = some parent ∧ arena[parent]? = some node ∧ node.children[index]? = some place := by
  rcases List.eq_nil_or_concat address with rfl | ⟨front, index, rfl⟩
  · exact .inl ⟨(Option.some.inj reached).symm, rfl⟩
  · rw [List.concat_eq_append] at reached ⊢
    obtain ⟨parent, node, before, found, child⟩ := placeAt?_concat.mp reached
    have bounds := owned.linked parent node found place (List.mem_of_getElem? child)
    exact .inr ⟨front, index, parent, node, rfl, bounds.1, before, found, child⟩

theorem address_unique (owned : arena.Owned) {place : Nat} {address other : List Nat}
    (reached : arena.placeAt? address 0 = some place) (reached' : arena.placeAt? other 0 = some place) :
    address = other := by
  induction place using Nat.strong_induction_on generalizing address other with
  | _ place ih =>
    rcases owned.address_cases reached with ⟨first, rfl⟩ | ⟨front, index, parent, node, rfl, less, before, found, child⟩
    · rcases owned.address_cases reached' with ⟨_, rfl⟩ | ⟨_, _, _, _, _, less, _⟩
      · rfl
      · omega
    · rcases owned.address_cases reached' with ⟨first, _⟩ | ⟨front', _, _, _, rfl, _, before', found', child'⟩
      · omega
      · obtain ⟨rfl, rfl⟩ := owned.link_unique found child found' child'
        rw [ih parent less before before']

end Owned

/-! The tree of an arena. -/

/-- Behind every place of a linked arena there is a tree. The children stand behind the node, so what is left of the
arena shrinks. -/
theorem Linked.exists_represents (linked : arena.Linked) (place : Nat) (inside : place < arena.size) :
    ∃ tree, arena.Represents place tree := by
  induction left : arena.size - place using Nat.strong_induction_on generalizing place with
  | _ left ih =>
    obtain ⟨⟨label, places⟩, found⟩ : ∃ node, arena[place]? = some node := ⟨_, Array.getElem?_eq_getElem inside⟩
    have bounds := linked place _ found
    obtain ⟨children, below⟩ : ∃ children, List.Forall₂ arena.Represents places children := by
      apply exists_forall₂
      intro child member
      have bound := bounds child member
      exact ih (arena.size - child) (by omega) child bound.2 rfl
    exact ⟨.node label children, represents_node.mpr ⟨places, found, fun child member => (bounds child member).1, below⟩⟩

/-- A place that represents a tree holds its label. -/
theorem Represents.found {place : Nat} {tree : Tree T N} (represented : arena.Represents place tree) :
    ∃ places, arena[place]? = some ⟨tree.label, places⟩ := by
  obtain ⟨label, children⟩ := tree
  obtain ⟨places, found, _⟩ := represents_node.mp represented
  exact ⟨places, found⟩

theorem Represents.inside {place : Nat} {tree : Tree T N} (represented : arena.Represents place tree) :
    place < arena.size := by
  obtain ⟨places, found⟩ := represented.found
  exact (Array.getElem?_eq_some_iff.mp found).1

/-- An address leads to a place of the arena and to a subtree that is represented there, or to neither. -/
theorem Represents.at? {place : Nat} {tree : Tree T N} (represented : arena.Represents place tree)
    (address : List Nat) : Option.Rel arena.Represents (arena.placeAt? address place) (tree.at? address) := by
  induction address generalizing place tree with
  | nil => exact .some represented
  | cons index address ih =>
    obtain ⟨label, children⟩ := tree
    obtain ⟨places, found, _, below⟩ := represents_node.mp represented
    rw [placeAt?, found, Option.bind_some]
    exact rel_bind (rel_getElem? below index) fun _ _ here => ih here

/-- At every address the tree has the label of the node that the address leads to. -/
theorem Represents.label_at? {place : Nat} {tree : Tree T N} (represented : arena.Represents place tree)
    (address : List Nat) : (tree.at? address).map Tree.label =
      (arena.placeAt? address place).bind fun reached => arena[reached]?.map Pending.label := by
  have both := represented.at? address
  generalize arena.placeAt? address place = here at both ⊢
  generalize tree.at? address = there at both ⊢
  cases both with
  | none => rfl
  | some below =>
    obtain ⟨places, found⟩ := below.found
    rw [Option.bind_some, found]
    rfl

/-- The addresses of the tree lead to the places of the arena, to each of them once. -/
theorem Owned.perm_places (owned : arena.Owned) {tree : Tree T N} (represented : arena.Represents 0 tree) :
    (tree.addresses.map fun address => arena.placeAt? address 0).Perm ((List.range arena.size).map some) := by
  have led : ∀ address ∈ tree.addresses, ∃ place < arena.size, arena.placeAt? address 0 = some place := by
    intro address member
    have both := represented.at? address
    rw [Tree.mem_addresses] at member
    generalize arena.placeAt? address 0 = here at both ⊢
    generalize tree.at? address = there at both member
    cases both with
    | none => cases member
    | some below => exact ⟨_, below.inside, rfl⟩
  have different : (tree.addresses.map fun address => arena.placeAt? address 0).Nodup := by
    refine List.Nodup.map_on ?_ tree.nodup_addresses
    intro address member other _ same
    obtain ⟨place, _, reached⟩ := led address member
    exact owned.address_unique reached (same ▸ reached)
  rw [List.perm_ext_iff_of_nodup different (List.nodup_range.map fun _ _ => Option.some.inj)]
  intro entry
  rw [List.mem_map, List.mem_map]
  constructor
  · rintro ⟨address, member, rfl⟩
    obtain ⟨place, inside, reached⟩ := led address member
    exact ⟨place, List.mem_range.mpr inside, reached.symm⟩
  · rintro ⟨place, inside, rfl⟩
    obtain ⟨address, reached⟩ := owned.exists_address place (List.mem_range.mp inside)
    refine ⟨address, Tree.mem_addresses.mpr ?_, reached⟩
    have both := represented.at? address
    rw [reached] at both
    generalize tree.at? address = there at both ⊢
    cases both
    rfl

theorem Owned.size_eq (owned : arena.Owned) {tree : Tree T N} (represented : arena.Represents 0 tree) :
    tree.size = arena.size := by
  have lengths := (owned.perm_places represented).length_eq
  rw [List.length_map, List.length_map, List.length_range] at lengths
  rw [← lengths]
  exact tree.forall₂_addresses_preorder.length_eq.symm

/-! What becomes of the owners. -/

theorem named_modify {place : Nat} {node : Pending T N} (found : arena[place]? = some node)
    (change : Pending T N → Pending T N) : ∃ front back, arena.named = front ++ node.children ++ back ∧
      Arena.named (arena.modify place change) = front ++ (change node).children ++ back := by
  rw [← Array.getElem?_toList] at found
  obtain ⟨inside, here⟩ := List.getElem?_eq_some_iff.mp found
  obtain ⟨front, node', back, split, rfl, changed⟩ := List.exists_of_modify change inside
  have same : node' = node := by
    rw [← here]
    simp [split]
  subst same
  refine ⟨front.flatMap Pending.children, back.flatMap Pending.children, ?_, ?_⟩
  · rw [named, split]
    simp
  · rw [named, Array.toList_modify, changed]
    simp

/-- To fill in a node leaves all children where they are. -/
theorem Owned.fill (owned : arena.Owned) {place : Nat} {node : Pending T N} (found : arena[place]? = some node)
    (lexeme : String) (line : Nat) : (arena.fill place lexeme line).Owned := by
  have size : (arena.fill place lexeme line).size = arena.size := by simp [Arena.fill]
  have named : (arena.fill place lexeme line).named = arena.named := by
    obtain ⟨front, back, before, after⟩ := named_modify found fun node =>
      { node with label := { node.label with lexeme := some lexeme, line := line } }
    exact after.trans before.symm
  exact ⟨size ▸ owned.nonempty, owned.linked.fill place lexeme line, by rw [size, named]; exact owned.once⟩

/-- An expansion of a node without children names the new places and no old one. -/
theorem named_expand {place : Nat} {node : Pending T N} (found : arena[place]? = some node)
    (childless : node.children = [])
    (index : Nat) (right : List (Sign T N)) (line : Nat) :
    (arena.expand place index right line).named.Perm (arena.named ++ List.range' arena.size right.length) := by
  obtain ⟨front, back, before, after⟩ := named_modify found fun node =>
    ⟨{ node.label with production := some index, line := line }, List.range' arena.size right.length⟩
  have new : (right.map (Pending.bare · line)).flatMap Pending.children = [] := by
    rw [List.flatMap_map]
    exact List.flatMap_eq_nil_iff.mpr fun _ _ => rfl
  rw [named, toList_expand, List.flatMap_append, new, List.append_nil]
  rw [named] at after
  rw [after, before, childless, List.append_nil, List.append_assoc, List.append_assoc]
  exact List.perm_append_comm.append_left front

theorem Owned.expand (owned : arena.Owned) {place : Nat} {node : Pending T N} (found : arena[place]? = some node)
    (childless : node.children = []) (index : Nat) (right : List (Sign T N)) (line : Nat) :
    (arena.expand place index right line).Owned := by
  refine ⟨?_, owned.linked.expand place index right line, ?_⟩
  · rw [size_expand]
    exact Nat.add_pos_left owned.nonempty _
  intro other behind inside
  rw [size_expand] at inside
  rw [(named_expand found childless index right line).count_eq, List.count_append]
  by_cases old : other < arena.size
  · rw [owned.once other behind old, List.count_eq_zero_of_not_mem]
    rw [List.mem_range'_1]
    omega
  · have unnamed : other ∉ arena.named := fun member => old (owned.linked.bounds member).2
    have fresh : other ∈ List.range' arena.size right.length := List.mem_range'_1.mpr (by omega)
    rw [List.count_eq_zero_of_not_mem unnamed, List.count_eq_one_of_mem List.nodup_range' fresh]

end Arena

end Minuscule
