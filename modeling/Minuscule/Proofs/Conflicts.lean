import Minuscule.Proofs.Prediction
import Mathlib.Data.Set.Card

/-!
When a table can be built, and what stands in the way when it cannot. Productions bid for cells, one after the other:
each first for the terminals that its right-hand side starts with and then for what follows its left-hand side,
both in the order of signs. A table is built when no two productions bid for one cell; otherwise the building stops
at the first bid for a cell that an earlier production holds. The sets that the bids come from may be anything.
-/

namespace Minuscule

/-- On what account a sign is a lookahead of a production. -/
inductive Ground where
  | first
  | follow
  deriving DecidableEq

namespace Lookahead
variable {T N : Type} [Ord T] [Ord N]

/-- The terminals that the right-hand side starts with; and what follows the left-hand side, if the right-hand
side may vanish. -/
def Gives (sets : Lookahead T N) (production : Production T N) : Ground → Sign T N → Prop
  | .first, sign => sign.isTerminal = true ∧ sign ∈ firstOfAll sets.first production.right
  | .follow, sign => .epsilon ∈ firstOfAll sets.first production.right ∧ sign ∈ sets.follow.of production.left

def Predicts (sets : Lookahead T N) (production : Production T N) (sign : Sign T N) : Prop :=
  ∃ ground, sets.Gives production ground sign

end Lookahead

structure Bid (T N : Type) where
  index : Nat
  ground : Ground
  left : N
  sign : Sign T N

namespace Bid
variable {T N : Type} [Ord T] [Ord N]

/-- The order of bids: by production, First before Follow, and then by sign. -/
def Precedes (one other : Bid T N) : Prop :=
  one.index < other.index ∨ one.index = other.index ∧
    (one.ground = .first ∧ other.ground = .follow ∨
      one.ground = other.ground ∧ compare one.sign other.sign = .lt)

def Made (grammar : Grammar T N) (sets : Lookahead T N) (bid : Bid T N) : Prop :=
  ∃ production, grammar.productions[bid.index]? = some production ∧ production.left = bid.left ∧
    sets.Gives production bid.ground bid.sign

def entry (bid : Bid T N) : (N × Sign T N) × Nat :=
  ((bid.left, bid.sign), bid.index)

theorem Precedes.index_le {one other : Bid T N} (early : one.Precedes other) : one.index ≤ other.index := by
  rcases early with less | ⟨same, _⟩
  · exact Nat.le_of_lt less
  · exact Nat.le_of_eq same

variable [Std.TransOrd T] [Std.TransOrd N]

theorem Precedes.asymm {one other : Bid T N} (early : one.Precedes other) : ¬ other.Precedes one := by
  intro late
  rcases early with less | ⟨same, early⟩
  · have bound := late.index_le
    omega
  · rcases late with less | ⟨_, late⟩
    · omega
    · rcases early with ⟨first, follow⟩ | ⟨ground, early⟩
      · rcases late with ⟨first', _⟩ | ⟨ground, _⟩
        · rw [follow] at first'
          cases first'
        · rw [first, follow] at ground
          cases ground
      · rcases late with ⟨first, follow⟩ | ⟨_, late⟩
        · rw [ground, first] at follow
          cases follow
        · rw [Std.OrientedCmp.gt_of_lt early] at late
          cases late

end Bid

namespace Table
variable {T N : Type} [Ord T] [Ord N]

/-- A production with this left-hand side has the sign as a lookahead. -/
def Claimed (grammar : Grammar T N) (sets : Lookahead T N) (index : Nat) (left : N) (sign : Sign T N) : Prop :=
  ∃ production, grammar.productions[index]? = some production ∧ production.left = left ∧
    sets.Predicts production sign

theorem claimed_iff_made {grammar : Grammar T N} {sets : Lookahead T N} {index : Nat} {left : N} {sign : Sign T N} :
    Claimed grammar sets index left sign ↔ ∃ ground, Bid.Made grammar sets ⟨index, ground, left, sign⟩ := by
  constructor
  · rintro ⟨production, found, same, ground, gives⟩
    exact ⟨ground, production, found, same, gives⟩
  · rintro ⟨ground, production, found, same, gives⟩
    exact ⟨production, found, same, ground, gives⟩

/-- The cell of a conflict is the first that is bid for while an earlier production holds it, and only one does. -/
structure FirstClash (grammar : Grammar T N) (sets : Lookahead T N) (conflict : Conflict T N) : Prop where
  earlier : conflict.existing < conflict.incoming
  held : Claimed grammar sets conflict.existing conflict.nonTerminal conflict.lookahead
  alone : ∀ index < conflict.incoming,
    Claimed grammar sets index conflict.nonTerminal conflict.lookahead → index = conflict.existing
  first : ∃ bid : Bid T N, bid.Made grammar sets ∧
    bid.entry = ((conflict.nonTerminal, conflict.lookahead), conflict.incoming) ∧
    ∀ other : Bid T N, other.Made grammar sets → other.Precedes bid →
      ∀ index < other.index, ¬ Claimed grammar sets index other.left other.sign

/-! What becomes of a list of entries. -/

/-- Entries are made up to the first one whose cell is taken. -/
theorem foldlM_claim_cases (entries : List ((N × Sign T N) × Nat)) (table : Table T N) :
    (∃ final, entries.foldlM claim table = .ok final) ∨
      ∃ front cell index back existing middle, entries = front ++ (cell, index) :: back ∧
        front.foldlM claim table = .ok middle ∧ middle.cells[cell]? = some existing ∧ existing ≠ index ∧
        entries.foldlM claim table = .error ⟨cell.1, cell.2, existing, index⟩ := by
  induction entries generalizing table with
  | nil => exact .inl ⟨table, rfl⟩
  | cons entry rest ih =>
    obtain ⟨cell, index⟩ := entry
    simp only [List.foldlM_cons]
    rcases answer : table.claim (cell, index) with conflict | next
    · right
      simp only [claim] at answer
      split at answer
      · cases answer
      · next existing held =>
        split at answer
        · cases answer
        · next different =>
          cases answer
          exact ⟨[], cell, index, rest, existing, table, rfl, rfl, held, different, rfl⟩
    · rcases ih next with ⟨final, built⟩ |
        ⟨front, cell', index', back, existing, middle, rfl, reached, held, apart, failed⟩
      · exact .inl ⟨final, built⟩
      · refine .inr ⟨(cell, index) :: front, cell', index', back, existing, middle, rfl, ?_, held, apart, failed⟩
        rw [List.foldlM_cons, answer]
        exact reached

section Entries
variable [Std.TransOrd T] [Std.TransOrd N] [Std.LawfulEqOrd T] [Std.LawfulEqOrd N]
  {entries : List ((N × Sign T N) × Nat)}

/-- No cell is asked for by two productions. -/
def Consistent (entries : List ((N × Sign T N) × Nat)) : Prop :=
  ∀ cell one other, (cell, one) ∈ entries → (cell, other) ∈ entries → one = other

theorem consistent_of_built {final : Table T N} (built : entries.foldlM claim empty = .ok final) :
    Consistent entries := by
  intro cell one other asked asked'
  have here := (foldlM_claim built cell one).mpr (.inr asked)
  have there := (foldlM_claim built cell other).mpr (.inr asked')
  exact Option.some.inj (here.symm.trans there)

theorem built_of_consistent (consistent : Consistent entries) :
    ∃ final, entries.foldlM claim (empty : Table T N) = .ok final := by
  rcases foldlM_claim_cases entries empty with built |
    ⟨front, cell, index, back, existing, middle, rfl, reached, held, apart, _⟩
  · exact built
  · have asked := ((foldlM_claim reached cell existing).mp held).resolve_left (by simp [empty])
    exact absurd (consistent cell existing index (by simp [asked]) (by simp)) apart

theorem foldlM_claim_eq_error_iff {conflict : Conflict T N} :
    entries.foldlM claim empty = .error conflict ↔ ∃ front back,
      entries = front ++ ((conflict.nonTerminal, conflict.lookahead), conflict.incoming) :: back ∧ Consistent front ∧
        ((conflict.nonTerminal, conflict.lookahead), conflict.existing) ∈ front ∧
        conflict.existing ≠ conflict.incoming := by
  constructor
  · intro failed
    rcases foldlM_claim_cases entries empty with ⟨final, built⟩ |
      ⟨front, cell, index, back, existing, middle, split, reached, held, apart, failed'⟩
    · rw [built] at failed
      cases failed
    · rw [failed] at failed'
      cases failed'
      have asked := ((foldlM_claim reached cell existing).mp held).resolve_left (by simp [empty])
      exact ⟨front, back, split, consistent_of_built reached, asked, apart⟩
  · rintro ⟨front, back, rfl, consistent, asked, apart⟩
    obtain ⟨middle, reached⟩ := built_of_consistent consistent
    have held := (foldlM_claim reached _ _).mpr (.inr asked)
    have refused : middle.claim ((conflict.nonTerminal, conflict.lookahead), conflict.incoming) = .error conflict := by
      simp only [claim, held, if_neg apart]
    rw [List.foldlM_append, reached]
    change (_ :: back).foldlM claim middle = _
    rw [List.foldlM_cons, refused]
    rfl

end Entries

/-! The bids of a grammar in their order. -/

def bidsOf (sets : Lookahead T N) (production : Production T N) (index : Nat) : List (Bid T N) :=
  let first := Lookahead.firstOfAll sets.first production.right
  (first.toList.filter Sign.isTerminal).map (⟨index, .first, production.left, ·⟩) ++
    (if first.contains .epsilon then (sets.follow.of production.left).toList else []).map
      (⟨index, .follow, production.left, ·⟩)

def bids (grammar : Grammar T N) (sets : Lookahead T N) : List (Bid T N) :=
  grammar.productions.zipIdx.flatMap fun (production, index) => bidsOf sets production index

theorem claims_eq_bids (grammar : Grammar T N) (sets : Lookahead T N) :
    claims grammar sets = (bids grammar sets).map Bid.entry := by
  rw [claims, bids, List.map_flatMap]
  congr 1
  funext item
  obtain ⟨production, index⟩ := item
  simp only [bidsOf, Lookahead.predict, List.map_append, List.map_map]
  rfl

theorem bidsOf_ordered [Std.TransOrd T] [Std.TransOrd N] {sets : Lookahead T N} (production : Production T N)
    (index : Nat) :
    (bidsOf sets production index).Pairwise Bid.Precedes := by
  have sorted (set : SignSet T N) : set.toList.Pairwise fun a b => compare a b = .lt := Std.TreeSet.ordered_toList
  rw [bidsOf, List.pairwise_append, List.pairwise_map, List.pairwise_map]
  refine ⟨?_, ?_, ?_⟩
  · exact ((sorted _).filter _).imp fun less => .inr ⟨rfl, .inr ⟨rfl, less⟩⟩
  · split
    · exact (sorted _).imp fun less => .inr ⟨rfl, .inr ⟨rfl, less⟩⟩
    · exact .nil
  · intro one early other late
    obtain ⟨_, _, rfl⟩ := List.mem_map.mp early
    obtain ⟨_, _, rfl⟩ := List.mem_map.mp late
    exact .inr ⟨rfl, .inl ⟨rfl, rfl⟩⟩

section Bids
variable [Std.TransOrd T] [Std.TransOrd N] [Std.LawfulEqOrd T] [Std.LawfulEqOrd N] {grammar : Grammar T N}
  {sets : Lookahead T N}

theorem mem_bidsOf {production : Production T N} {index : Nat} {bid : Bid T N} :
    bid ∈ bidsOf sets production index ↔
      bid.index = index ∧ bid.left = production.left ∧ sets.Gives production bid.ground bid.sign := by
  obtain ⟨place, ground, left, sign⟩ := bid
  have vanishing : (Lookahead.firstOfAll sets.first production.right).contains .epsilon = true ↔
      .epsilon ∈ Lookahead.firstOfAll sets.first production.right := Std.TreeSet.contains_iff_mem
  cases ground <;>
    simp only [bidsOf, List.mem_append, List.mem_map, List.mem_filter, Std.TreeSet.mem_toList, List.mem_ite_nil_right,
      vanishing, Bid.mk.injEq, reduceCtorEq, Lookahead.Gives] <;> grind

theorem mem_bids {bid : Bid T N} : bid ∈ bids grammar sets ↔ bid.Made grammar sets := by
  simp only [bids, List.mem_flatMap, Prod.exists, List.mem_zipIdx_iff_getElem?, mem_bidsOf, Bid.Made]
  constructor
  · rintro ⟨production, index, found, rfl, left, gives⟩
    exact ⟨production, found, left.symm, gives⟩
  · rintro ⟨production, found, left, gives⟩
    exact ⟨production, bid.index, found, rfl, left.symm, gives⟩

theorem bids_ordered (grammar : Grammar T N) (sets : Lookahead T N) :
    (bids grammar sets).Pairwise Bid.Precedes := by
  have indices : grammar.productions.zipIdx.Pairwise fun one other => one.2 < other.2 := by
    rw [← List.pairwise_map, List.zipIdx_map_snd]
    exact List.pairwise_lt_range'
  rw [bids, List.pairwise_flatMap]
  refine ⟨fun _ _ => bidsOf_ordered _ _, indices.imp ?_⟩
  rintro ⟨_, place⟩ ⟨_, place'⟩ less one early other late
  left
  rw [(mem_bidsOf.mp early).1, (mem_bidsOf.mp late).1]
  exact less

/-- The bids in front of a bid are those that precede it. -/
theorem mem_front_iff {front back : List (Bid T N)} {bid other : Bid T N}
    (split : bids grammar sets = front ++ bid :: back) :
    other ∈ front ↔ other.Made grammar sets ∧ other.Precedes bid := by
  have ordered := bids_ordered grammar sets
  rw [split, List.pairwise_append] at ordered
  obtain ⟨_, behind, across⟩ := ordered
  rw [← mem_bids, split]
  constructor
  · intro inside
    exact ⟨List.mem_append_left _ inside, across other inside bid (List.mem_cons_self ..)⟩
  · rintro ⟨present, early⟩
    rcases List.mem_append.mp present with inside | later
    · exact inside
    · rcases List.mem_cons.mp later with rfl | later
      · exact absurd early early.asymm
      · exact absurd early ((List.pairwise_cons.mp behind).1 other later).asymm

/-- A claim by an earlier production is among the bids in front. -/
theorem entry_mem_front {front back : List (Bid T N)} {bid : Bid T N}
    (split : bids grammar sets = front ++ bid :: back) {index : Nat} {left : N} {sign : Sign T N}
    (less : index < bid.index) (claimed : Claimed grammar sets index left sign) :
    ((left, sign), index) ∈ front.map Bid.entry := by
  obtain ⟨ground, made⟩ := claimed_iff_made.mp claimed
  exact List.mem_map.mpr ⟨⟨index, ground, left, sign⟩, (mem_front_iff split).mpr ⟨made, .inl less⟩, rfl⟩

theorem claimed_of_mem_front {front back : List (Bid T N)} {bid : Bid T N}
    (split : bids grammar sets = front ++ bid :: back) {index : Nat} {left : N} {sign : Sign T N}
    (asked : ((left, sign), index) ∈ front.map Bid.entry) :
    index ≤ bid.index ∧ Claimed grammar sets index left sign := by
  obtain ⟨other, inside, same⟩ := List.mem_map.mp asked
  cases same
  obtain ⟨made, early⟩ := (mem_front_iff split).mp inside
  exact ⟨early.index_le, claimed_iff_made.mpr ⟨other.ground, made⟩⟩

/-- The bids in front of a bid are consistent when none of them is for a cell that an earlier production holds. -/
theorem consistent_front_iff {front back : List (Bid T N)} {bid : Bid T N}
    (split : bids grammar sets = front ++ bid :: back) :
    Consistent (front.map Bid.entry) ↔ ∀ other : Bid T N, other.Made grammar sets → other.Precedes bid →
      ∀ index < other.index, ¬ Claimed grammar sets index other.left other.sign := by
  constructor
  · intro consistent other made early index less claimed
    have asked := entry_mem_front split (Nat.lt_of_lt_of_le less early.index_le) claimed
    have asked' : other.entry ∈ front.map Bid.entry := List.mem_map_of_mem ((mem_front_iff split).mpr ⟨made, early⟩)
    exact Nat.ne_of_lt less (consistent _ _ _ asked asked')
  · intro free cell one other asked asked'
    have upward : ∀ low high, (cell, low) ∈ front.map Bid.entry → (cell, high) ∈ front.map Bid.entry →
        ¬ low < high := by
      intro low high asked asked' less
      obtain ⟨later, inside, rfl, rfl⟩ : ∃ later ∈ front, (later.left, later.sign) = cell ∧ later.index = high := by
        simpa [Bid.entry] using asked'
      obtain ⟨made, early⟩ := (mem_front_iff split).mp inside
      exact free later made early low less (claimed_of_mem_front split asked).2
    have notBelow := upward one other asked asked'
    have notAbove := upward other one asked' asked
    omega

theorem mem_predict_iff_predicts {production : Production T N} {sign : Sign T N} :
    sign ∈ sets.predict production ↔ sets.Predicts production sign := by
  rw [mem_predict]
  constructor
  · rintro (first | follow)
    · exact ⟨.first, first⟩
    · exact ⟨.follow, follow⟩
  · rintro ⟨_ | _, gives⟩
    · exact .inl gives
    · exact .inr gives

theorem get?_eq_some_iff_claimed {table : Table T N} (built : build grammar sets = .ok table) {left : N}
    {sign : Sign T N} {index : Nat} :
    table.get? left sign = some index ↔ Claimed grammar sets index left sign := by
  rw [get?_eq_some_iff built]
  simp only [mem_predict_iff_predicts, Claimed]

/-- A table is built unless two productions of one non-terminal have a lookahead in common. -/
theorem built_iff_disjoint :
    (∃ table, build grammar sets = .ok table) ↔ ∀ (one other : Nat) (production production' : Production T N),
      grammar.productions[one]? = some production → grammar.productions[other]? = some production' → one ≠ other →
        production.left = production'.left → ∀ sign, sets.Predicts production sign →
          ¬ sets.Predicts production' sign := by
  constructor
  · rintro ⟨table, built⟩ one other production production' found found' different same sign predicted predicted'
    rw [← mem_predict_iff_predicts] at predicted predicted'
    exact different (index_unique built found found' same predicted predicted')
  · intro disjoint
    apply built_of_consistent
    rintro ⟨left, sign⟩ one other asked asked'
    obtain ⟨production, found, rfl, predicted⟩ := mem_claims.mp asked
    obtain ⟨production', found', same, predicted'⟩ := mem_claims.mp asked'
    rw [mem_predict_iff_predicts] at predicted predicted'
    by_contra different
    exact disjoint one other production production' found found' different same.symm sign predicted predicted'

/-- The claims of a grammar, each with its production. -/
def claimedEntries (grammar : Grammar T N) (sets : Lookahead T N) : Set ((N × Sign T N) × Nat) :=
  {entry | Claimed grammar sets entry.2 entry.1.1 entry.1.2}

theorem encard_claimedEntries {table : Table T N} (built : build grammar sets = .ok table) :
    (claimedEntries grammar sets).encard = table.size := by
  classical
  have keys : Prod.fst '' claimedEntries grammar sets = table.cells.keys.toFinset := by
    ext ⟨left, sign⟩
    rw [Finset.mem_coe, List.mem_toFinset, Std.TreeMap.mem_keys, Std.TreeMap.mem_iff_isSome_getElem?,
      Option.isSome_iff_exists]
    simp only [claimedEntries, Set.mem_image, Set.mem_ofPred_eq, Prod.exists, ← get?_eq_some_iff_claimed built]
    constructor
    · rintro ⟨_, _, index, found, same⟩
      cases same
      exact ⟨index, found⟩
    · rintro ⟨index, found⟩
      exact ⟨left, sign, index, found, rfl⟩
  have single : Set.InjOn Prod.fst (claimedEntries grammar sets) := by
    rintro ⟨⟨left, sign⟩, one⟩ claimed ⟨⟨_, _⟩, other⟩ claimed' same
    cases same
    have here := (get?_eq_some_iff_claimed built).mpr claimed
    have there := (get?_eq_some_iff_claimed built).mpr claimed'
    obtain rfl : one = other := Option.some.inj (here.symm.trans there)
    rfl
  rw [← single.encard_image, keys, Set.encard_coe_eq_coe_finsetCard, List.toFinset_card_of_nodup table.cells.nodup_keys,
    Std.TreeMap.length_keys]
  rfl

/-- The cells are as many as the pairs of a production and a lookahead of it. -/
theorem encard_predicted {table : Table T N} (built : build grammar sets = .ok table) :
    {pair : Nat × Sign T N | ∃ production, grammar.productions[pair.1]? = some production ∧
      sets.Predicts production pair.2}.encard = table.size := by
  have pairs : (fun entry : (N × Sign T N) × Nat => (entry.2, entry.1.2)) '' claimedEntries grammar sets =
      {pair : Nat × Sign T N | ∃ production, grammar.productions[pair.1]? = some production ∧
        sets.Predicts production pair.2} := by
    ext ⟨index, sign⟩
    constructor
    · rintro ⟨⟨⟨left, _⟩, _⟩, ⟨production, found, _, predicts⟩, same⟩
      cases same
      exact ⟨production, found, predicts⟩
    · rintro ⟨production, found, predicts⟩
      exact ⟨((production.left, sign), index), ⟨production, found, rfl, predicts⟩, rfl⟩
  have single : Set.InjOn (fun entry : (N × Sign T N) × Nat => (entry.2, entry.1.2)) (claimedEntries grammar sets) := by
    rintro ⟨⟨left, sign⟩, index⟩ ⟨production, found, rfl, _⟩ ⟨⟨left', _⟩, _⟩ ⟨production', found', rfl, _⟩ same
    cases same
    cases found.symm.trans found'
    rfl
  rw [← pairs, single.encard_image, encard_claimedEntries built]

theorem build_eq_error_iff {conflict : Conflict T N} :
    build grammar sets = .error conflict ↔ FirstClash grammar sets conflict := by
  rw [build, claims_eq_bids, foldlM_claim_eq_error_iff]
  constructor
  · rintro ⟨entries, entries', split, consistent, asked, apart⟩
    obtain ⟨front, rest, split, rfl, here⟩ := List.map_eq_append_iff.mp split
    obtain ⟨bid, back, rfl, same, _⟩ := List.map_eq_cons_iff.mp here
    have incoming : bid.index = conflict.incoming := congrArg Prod.snd same
    obtain ⟨bound, held⟩ := claimed_of_mem_front split asked
    have made : bid.Made grammar sets := mem_bids.mp (by simp [split])
    refine ⟨by omega, held, ?_, bid, made, same, (consistent_front_iff split).mp consistent⟩
    intro index less claimed
    rw [← incoming] at less
    exact consistent _ _ _ (entry_mem_front split less claimed) asked
  · rintro ⟨earlier, held, _, bid, made, same, free⟩
    obtain ⟨front, back, split⟩ := List.append_of_mem (mem_bids.mpr made)
    have incoming : bid.index = conflict.incoming := congrArg Prod.snd same
    refine ⟨front.map Bid.entry, back.map Bid.entry, ?_, (consistent_front_iff split).mpr free, ?_, by omega⟩
    · rw [split, List.map_append, List.map_cons, same]
    · exact entry_mem_front split (by omega) held

end Bids

section Exactness
variable [Std.TransOrd T] [Std.TransOrd N] [Std.LawfulEqOrd T] [Std.LawfulEqOrd N]

/-- A table is built exactly when no two productions of one non-terminal have a lookahead in common, whatever the
sets are. Its cells then hold each production under its own lookaheads and nothing else. Otherwise the conflict is
the first bid for a cell that an earlier production holds. -/
theorem table_is_prediction_relation (grammar : Grammar T N) (sets : Lookahead T N) :
    ((∃ table, build grammar sets = .ok table) ↔ ∀ (one other : Nat) (production production' : Production T N),
      grammar.productions[one]? = some production → grammar.productions[other]? = some production' → one ≠ other →
        production.left = production'.left → ∀ sign, sets.Predicts production sign →
          ¬ sets.Predicts production' sign) ∧
    (∀ table, build grammar sets = .ok table →
      (∀ left sign index, table.get? left sign = some index ↔ ∃ production,
        grammar.productions[index]? = some production ∧ production.left = left ∧ sets.Predicts production sign) ∧
      {pair : Nat × Sign T N | ∃ production, grammar.productions[pair.1]? = some production ∧
        sets.Predicts production pair.2}.encard = table.size) ∧
    ∀ conflict, build grammar sets = .error conflict ↔ FirstClash grammar sets conflict := by
  refine ⟨built_iff_disjoint, ?_, ?_⟩
  · intro table built
    refine ⟨?_, encard_predicted built⟩
    intro left sign index
    exact get?_eq_some_iff_claimed built
  · intro conflict
    exact build_eq_error_iff

end Exactness

/-- A terminal that starts a non-terminal and follows it. -/
def guarded : Grammar Nat Nat :=
  ⟨0, [⟨0, [.nonTerminal 1, .terminal 7]⟩, ⟨1, [.terminal 7]⟩, ⟨1, []⟩]⟩

/-- The same with another terminal behind. -/
def unguarded : Grammar Nat Nat :=
  ⟨0, [⟨0, [.nonTerminal 1, .terminal 8]⟩, ⟨1, [.terminal 7]⟩, ⟨1, []⟩]⟩

theorem guarded_clash :
    FirstClash guarded (.ofGrammar guarded) ⟨1, .terminal 7, 1, 2⟩ ∧
      ∃ table, build guarded (.ofGrammar unguarded) = .ok table ∧ table.get? 1 (.terminal 8) = some 2 := by
  obtain ⟨_, _, clash⟩ := table_is_prediction_relation guarded (.ofGrammar guarded)
  obtain ⟨_, cells, _⟩ := table_is_prediction_relation guarded (.ofGrammar unguarded)
  have stopped : (build guarded (.ofGrammar guarded)).map (fun _ => ()) = .error ⟨1, .terminal 7, 1, 2⟩ := by
    decide +kernel
  have finished : (build guarded (.ofGrammar unguarded)).isOk = true := by decide +kernel
  constructor
  · rcases answer : build guarded (.ofGrammar guarded) with conflict | table
    · rw [answer] at stopped
      cases stopped
      exact (clash _).mp answer
    · rw [answer] at stopped
      cases stopped
  · rcases answer : build guarded (.ofGrammar unguarded) with conflict | table
    · rw [answer] at finished
      cases finished
    · refine ⟨table, rfl, ((cells table answer).1 1 (.terminal 8) 2).mpr ⟨⟨1, []⟩, rfl, rfl, .follow, ?_, ?_⟩⟩
      · decide +kernel
      · decide +kernel

end Table

end Minuscule
