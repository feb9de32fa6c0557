import Minuscule.Proofs.Conflicts
import Minuscule.Proofs.FollowSets
import Minuscule.Proofs.Renumbering
import Mathlib.Logic.Equiv.Basic

/-!
The order of the productions of a grammar. Passes over the productions see them in their order, and so do the bids for
the cells of a table, but what they come to can be said without it: the sets by derivations, for which only the
productions themselves count, and the cells by the lookaheads of each production. A grammar in another order therefore
has the same sets and, if it has a table at all, the same table with the indices changed; and its parser goes through
the same rounds.
-/

namespace Minuscule

section Places
variable {α : Type}

/-- The list in which every item has moved to its new place. -/
def rearrange (items : List α) (order : Equiv.Perm (Fin items.length)) : List α :=
  List.ofFn fun place => items.get (order.symm place)

/-- The new place of an item; places behind the end stay. -/
def newPlace {size : Nat} (order : Equiv.Perm (Fin size)) (place : Nat) : Nat :=
  if inside : place < size then order ⟨place, inside⟩ else place

theorem newPlace_inside {size : Nat} (order : Equiv.Perm (Fin size)) {place : Nat} (inside : place < size) :
    newPlace order place = order ⟨place, inside⟩ :=
  dif_pos inside

theorem newPlace_outside {size : Nat} (order : Equiv.Perm (Fin size)) {place : Nat} (outside : ¬ place < size) :
    newPlace order place = place :=
  dif_neg outside

theorem newPlace_symm {size : Nat} (order : Equiv.Perm (Fin size)) (place : Nat) :
    newPlace order (newPlace order.symm place) = place := by
  by_cases inside : place < size
  · rw [newPlace_inside order.symm inside, newPlace_inside order (Fin.isLt _), Fin.eta, Equiv.apply_symm_apply]
  · rw [newPlace_outside order.symm inside, newPlace_outside order inside]

theorem newPlace_injective {size : Nat} (order : Equiv.Perm (Fin size)) : Function.Injective (newPlace order) :=
  Function.LeftInverse.injective (newPlace_symm order.symm)

theorem getElem?_rearrange (items : List α) (order : Equiv.Perm (Fin items.length)) (place : Nat) :
    (rearrange items order)[newPlace order place]? = items[place]? := by
  by_cases inside : place < items.length
  · rw [newPlace_inside order inside, rearrange, List.getElem?_ofFn, dif_pos (Fin.isLt _), Fin.eta,
      Equiv.symm_apply_apply, List.getElem?_eq_getElem inside]
    rfl
  · rw [newPlace_outside order inside, List.getElem?_eq_none (by simpa [rearrange] using inside),
      List.getElem?_eq_none (by omega)]

end Places

namespace Grammar
variable {T N : Type}

/-- The same productions under other indices, and the same start. -/
structure Reindexed (index : Nat → Nat) (grammar grammar' : Grammar T N) : Prop where
  start : grammar'.start = grammar.start
  length : grammar'.productions.length = grammar.productions.length
  injective : Function.Injective index
  surjective : Function.Surjective index
  found : ∀ place, grammar'.productions[index place]? = grammar.productions[place]?

theorem reindexed_rearrange (grammar : Grammar T N) (order : Equiv.Perm (Fin grammar.productions.length)) :
    Reindexed (newPlace order) grammar ⟨grammar.start, rearrange grammar.productions order⟩ where
  start := rfl
  length := List.length_ofFn
  injective := newPlace_injective order
  surjective place := ⟨_, newPlace_symm order place⟩
  found := getElem?_rearrange grammar.productions order

namespace Reindexed
variable {index : Nat → Nat} {grammar grammar' : Grammar T N}

theorem mem_productions (same : Reindexed index grammar grammar') (production : Production T N) :
    production ∈ grammar'.productions ↔ production ∈ grammar.productions := by
  rw [List.mem_iff_getElem?, List.mem_iff_getElem?, same.surjective.exists]
  simp only [same.found]

theorem mem_lefts (same : Reindexed index grammar grammar') (kind : N) :
    kind ∈ lefts grammar'.productions ↔ kind ∈ lefts grammar.productions := by
  simp only [lefts, List.mem_map, same.mem_productions]

theorem derives (same : Reindexed index grammar grammar') : grammar'.Derives = grammar.Derives := by
  have rewrites : grammar'.Rewrites = grammar.Rewrites := by
    funext before after
    simp only [Rewrites, same.mem_productions]
  rw [Derives, Derives, rewrites]

theorem trails (same : Reindexed index grammar grammar') : grammar'.Trails = grammar.Trails := by
  funext kind sign
  cases sign <;> simp only [Trails, same.derives, same.mem_lefts, same.start]

end Reindexed

theorem Reindexed.valid {index : Nat → Nat} {grammar grammar' : Grammar T N} (same : Reindexed index grammar grammar')
    (valid : grammar.Valid) : grammar'.Valid where
  start := by
    rw [same.start, same.mem_lefts]
    exact valid.start
  right production member sign inside := by
    simp only [same.mem_lefts]
    exact valid.right production ((same.mem_productions production).mp member) sign inside

variable [DecidableEq N]

theorem eq_of_ofProductions {start : N} {productions : List (Production T N)} {grammar : Grammar T N}
    (accepted : ofProductions start productions = .ok grammar) : grammar = ⟨start, productions⟩ := by
  rw [ofProductions] at accepted
  split at accepted
  · split at accepted
    · exact (Except.ok.inj accepted).symm
    · cases accepted
  · cases accepted

theorem ofProductions_of_valid {grammar : Grammar T N} (valid : grammar.Valid) :
    ofProductions grammar.start grammar.productions = .ok grammar := by
  have clean : grammar.productions.findSome? (faultIn? (lefts grammar.productions)) = none := by
    rw [List.findSome?_eq_none_iff]
    intro production member
    rw [faultIn?, List.findSome?_eq_none_iff]
    intro sign inside
    rcases valid.right production member sign inside with ⟨kind, rfl⟩ | ⟨kind, known, rfl⟩
    · rfl
    · exact if_pos known
  rw [ofProductions, if_pos valid.start, clean]

end Grammar

namespace Renumbering
variable {T N : Type}

theorem map_token_id {index : Nat → Nat} (tokens : List (Token T)) :
    tokens.map (Renumbering.mk id index).token = tokens :=
  List.map_id tokens

theorem error_id {index : Nat → Nat} (error : SyntaxError T N) : (Renumbering.mk id index).error error = error := by
  cases error <;> rfl

end Renumbering

section Order
variable {T N : Type} [Ord T] [Ord N] [Std.TransOrd T] [Std.TransOrd N] [Std.LawfulEqOrd T] [Std.LawfulEqOrd N]

namespace SignSets

omit [Std.TransOrd T] [Std.LawfulEqOrd T] in
/-- A family lists the non-terminals of its grammar in their order, each with its set. -/
theorem Over.members_eq {grammar : Grammar T N} {mark : Sign T N} {sets : SignSets T N}
    (family : Over grammar mark sets) :
    sets.members = grammar.nonTerminals.toList.map fun kind => (kind, (sets.of kind).toList) := by
  have keys : sets.keys = grammar.nonTerminals.toList := by
    have asymm : ∀ a b : N, compare a b = .lt → compare b a = .lt → a = b := by
      intro a b less more
      rw [Std.OrientedCmp.gt_of_lt less] at more
      cases more
    have same : sets.keys.Perm grammar.nonTerminals.toList := by
      rw [List.perm_ext_iff_of_nodup sets.nodup_keys (nodup_toList _)]
      intro kind
      rw [Std.TreeMap.mem_keys, Std.TreeSet.mem_toList, family.keys]
    exact same.eq_of_pairwise (fun a b _ _ => asymm a b) sets.ordered_keys Std.TreeSet.ordered_toList
  have entries : sets.members = sets.keys.map fun kind => (kind, (sets.of kind).toList) := by
    rw [SignSets.members, ← Std.TreeMap.map_fst_toList_eq_keys, List.map_map]
    apply List.map_congr_left
    intro entry member
    have found := Std.TreeMap.mem_toList_iff_getElem?_eq_some.mp member
    simp [of, Std.TreeMap.getD_eq_getD_getElem?, found]
  rw [entries, keys]

/-- Families over the same non-terminals with the same sets are listed alike. -/
theorem Over.members_congr {grammar grammar' : Grammar T N} {mark : Sign T N} {sets sets' : SignSets T N}
    (family : Over grammar mark sets) (family' : Over grammar' mark sets')
    (known : ∀ kind, kind ∈ grammar'.nonTerminals ↔ kind ∈ grammar.nonTerminals)
    (same : ∀ kind sign, sign ∈ sets'.of kind ↔ sign ∈ sets.of kind) : sets'.members = sets.members := by
  have kinds : grammar'.nonTerminals.toList = grammar.nonTerminals.toList :=
    (Std.TreeSet.Equiv.of_forall_mem_iff known).toList_eq
  rw [family.members_eq, family'.members_eq, kinds]
  apply List.map_congr_left
  intro kind _
  rw [(Std.TreeSet.Equiv.of_forall_mem_iff (same kind)).toList_eq]

end SignSets

namespace Lookahead

/-- More lookaheads come from larger sets. -/
theorem Predicts.mono {small large : Lookahead T N} (first : small.first.Within large.first)
    (follow : small.follow.Within large.follow) {production : Production T N} {sign : Sign T N}
    (predicted : small.Predicts production sign) : large.Predicts production sign := by
  obtain ⟨ground, gives⟩ := predicted
  refine ⟨ground, ?_⟩
  cases ground with
  | first => exact ⟨gives.1, firstOfAll_mono first gives.2⟩
  | follow => exact ⟨firstOfAll_mono first gives.1, follow _ _ gives.2⟩

theorem over_followSets {grammar : Grammar T N} (valid : grammar.Valid) :
    (followSets grammar (firstSets grammar)).Over grammar .endMark := by
  rw [followSets_eq]
  exact SignSets.settle_induction _ (over_followStart valid) (growing_follow valid (over_firstSets valid)).keeps

end Lookahead

namespace Grammar.Reindexed
variable {index : Nat → Nat} {grammar grammar' : Grammar T N}

/-- Only terminals and the empty word can be members, and both are said by derivations. -/
theorem mem_first (same : Reindexed index grammar grammar') (valid : grammar.Valid) (kind : N) (sign : Sign T N) :
    sign ∈ (Lookahead.ofGrammar grammar').first.of kind ↔ sign ∈ (Lookahead.ofGrammar grammar).first.of kind := by
  have solid : ∀ other ∈ [(.nonTerminal kind : Sign T N)], other ≠ .epsilon := by simp
  have unmarked : ∀ other ∈ [(.nonTerminal kind : Sign T N)], other ≠ .endMark := by simp
  have alone (first : SignSets T N) : sign ∈ Lookahead.firstOfAll first [.nonTerminal kind] ↔
      sign ∈ Lookahead.firstOf first (.nonTerminal kind) := Lookahead.mem_firstOfAll_singleton
  change sign ∈ Lookahead.firstOf (Lookahead.firstSets grammar') (.nonTerminal kind) ↔
    sign ∈ Lookahead.firstOf (Lookahead.firstSets grammar) (.nonTerminal kind)
  rw [← alone, ← alone]
  cases sign with
  | terminal next =>
    rw [Lookahead.terminal_mem_iff_derives (same.valid valid) solid, Lookahead.terminal_mem_iff_derives valid solid,
      same.derives]
  | epsilon =>
    rw [Lookahead.epsilon_mem_iff_derives (same.valid valid) solid, Lookahead.epsilon_mem_iff_derives valid solid,
      same.derives]
  | nonTerminal other | endMark =>
    constructor <;> intro inside
    · rcases Lookahead.mem_firstOfAll_cases (same.valid valid) unmarked inside with impossible | ⟨_, impossible⟩ <;>
        cases impossible
    · rcases Lookahead.mem_firstOfAll_cases valid unmarked inside with impossible | ⟨_, impossible⟩ <;>
        cases impossible

theorem mem_follow (same : Reindexed index grammar grammar') (valid : grammar.Valid) (kind : N) (sign : Sign T N) :
    sign ∈ (Lookahead.ofGrammar grammar').follow.of kind ↔ sign ∈ (Lookahead.ofGrammar grammar).follow.of kind := by
  rw [Lookahead.mem_follow_iff_trails (same.valid valid), Lookahead.mem_follow_iff_trails valid, same.trails]

theorem lookahead_beq [DecidableEq N] [DecidableEq T] (same : Reindexed index grammar grammar') (valid : grammar.Valid) :
    (Lookahead.ofGrammar grammar == Lookahead.ofGrammar grammar') = true := by
  have known (kind : N) : kind ∈ grammar'.nonTerminals ↔ kind ∈ grammar.nonTerminals := by
    rw [Lookahead.mem_nonTerminals, Lookahead.mem_nonTerminals, same.mem_lefts]
  have first := (Lookahead.over_firstSets valid).members_congr (Lookahead.over_firstSets (same.valid valid)) known
    (same.mem_first valid)
  have follow := (Lookahead.over_followSets valid).members_congr (Lookahead.over_followSets (same.valid valid)) known
    (same.mem_follow valid)
  change (_ && _) = true
  rw [Bool.and_eq_true, beq_iff_eq, beq_iff_eq]
  exact ⟨first.symm, follow.symm⟩

theorem predicts (same : Reindexed index grammar grammar') (valid : grammar.Valid) (production : Production T N)
    (sign : Sign T N) :
    (Lookahead.ofGrammar grammar').Predicts production sign ↔ (Lookahead.ofGrammar grammar).Predicts production sign :=
  ⟨.mono (fun kind sign => (same.mem_first valid kind sign).mp) fun kind sign => (same.mem_follow valid kind sign).mp,
    .mono (fun kind sign => (same.mem_first valid kind sign).mpr) fun kind sign => (same.mem_follow valid kind sign).mpr⟩

/-- Neither grammar has a table unless no two of the same productions have a lookahead in common. -/
theorem built_iff (same : Reindexed index grammar grammar') (valid : grammar.Valid) :
    (∃ table, Table.build grammar (.ofGrammar grammar) = .ok table) ↔
      ∃ table, Table.build grammar' (.ofGrammar grammar') = .ok table := by
  rw [Table.built_iff_disjoint, Table.built_iff_disjoint]
  simp only [same.predicts valid]
  constructor
  · intro disjoint one other production production' found found' different
    obtain ⟨one, rfl⟩ := same.surjective one
    obtain ⟨other, rfl⟩ := same.surjective other
    rw [same.found] at found found'
    exact disjoint one other production production' found found' (mt (congrArg index) different)
  · intro disjoint one other production production' found found' different
    rw [← same.found] at found found'
    exact disjoint _ _ production production' found found' (same.injective.ne different)

theorem claimed_iff (same : Reindexed index grammar grammar') (valid : grammar.Valid) (place : Nat) (left : N)
    (sign : Sign T N) :
    Table.Claimed grammar' (.ofGrammar grammar') (index place) left sign ↔
      Table.Claimed grammar (.ofGrammar grammar) place left sign := by
  simp only [Table.Claimed, same.found, same.predicts valid]

theorem get?_eq_map (same : Reindexed index grammar grammar') (valid : grammar.Valid) {table table' : Table T N}
    (built : Table.build grammar (.ofGrammar grammar) = .ok table)
    (built' : Table.build grammar' (.ofGrammar grammar') = .ok table') (left : N) (sign : Sign T N) :
    table'.get? left sign = (table.get? left sign).map index := by
  apply Option.ext
  intro place
  obtain ⟨old, rfl⟩ := same.surjective place
  rw [Table.get?_eq_some_iff_claimed built', same.claimed_iff valid, ← Table.get?_eq_some_iff_claimed built]
  simp [same.injective.eq_iff]

/-- The table of the other grammar leads to the same productions. -/
theorem follows (same : Reindexed index grammar grammar') (valid : grammar.Valid) {table table' : Table T N}
    (built : Table.build grammar (.ofGrammar grammar) = .ok table)
    (built' : Table.build grammar' (.ofGrammar grammar') = .ok table') :
    (Renumbering.mk id index).Follows ⟨grammar, table⟩ ⟨grammar', table'⟩ where
  start := same.start
  length := same.length
  choose kind lookahead := by
    simp only [Parser.choose?, same.get?_eq_map valid built built']
    cases table.get? kind lookahead with
    | none => rfl
    | some place =>
      change (grammar'.productions[index place]? >>= _) = Option.map _ (grammar.productions[place]? >>= _)
      rw [same.found]
      cases grammar.productions[place]? <;> rfl

end Grammar.Reindexed

/-- The order of the productions does not matter. In any order the productions make up a grammar, with the same sets;
there is a table in one order exactly when there is one in the other; the cells hold the same productions under their
new indices; and the parsers refuse the same inputs for the same reason and otherwise give the same tree, with the new
indices in it. -/
theorem Grammar.production_order_irrelevant [DecidableEq T] [DecidableEq N] {start : N}
    {productions : List (Production T N)} {grammar : Grammar T N}
    (accepted : Grammar.ofProductions start productions = .ok grammar)
    (order : Equiv.Perm (Fin productions.length)) :
    ∃ grammar', Grammar.ofProductions start (rearrange productions order) = .ok grammar' ∧
      (Lookahead.ofGrammar grammar == Lookahead.ofGrammar grammar') = true ∧
      ((∃ table, Table.build grammar (.ofGrammar grammar) = .ok table) ↔
        ∃ table', Table.build grammar' (.ofGrammar grammar') = .ok table') ∧
      ∀ table table', Table.build grammar (.ofGrammar grammar) = .ok table →
        Table.build grammar' (.ofGrammar grammar') = .ok table' →
          (∀ left sign, table'.get? left sign = (table.get? left sign).map (newPlace order)) ∧
          ∀ tokens, Parser.parse ⟨grammar', table'⟩ tokens =
            (Parser.parse ⟨grammar, table⟩ tokens).map (Renumbering.mk id (newPlace order)).tree := by
  have valid := valid_of_ofProductions accepted
  obtain rfl := eq_of_ofProductions accepted
  have same := reindexed_rearrange ⟨start, productions⟩ order
  refine ⟨⟨start, rearrange productions order⟩, ofProductions_of_valid (same.valid valid), same.lookahead_beq valid,
    same.built_iff valid, ?_⟩
  intro table table' built built'
  refine ⟨same.get?_eq_map valid built built', ?_⟩
  intro tokens
  have parsed := (same.follows valid built built').parse fun _ : tokens = [] => rfl
  rw [Renumbering.map_token_id] at parsed
  rw [parsed]
  cases Parser.parse ⟨⟨start, productions⟩, table⟩ tokens with
  | ok tree => rfl
  | error error => exact congrArg Except.error (Renumbering.error_id error)

end Order

/-- The first production and the last one change places. -/
def chainedOrder : Equiv.Perm (Fin Lookahead.chained.productions.length) :=
  Equiv.swap ⟨0, by decide⟩ ⟨2, by decide⟩

theorem Grammar.production_order_chained :
    Grammar.ofProductions 0 Lookahead.chained.productions = .ok Lookahead.chained ∧
      ∃ grammar' table table',
        Grammar.ofProductions 0 (rearrange Lookahead.chained.productions chainedOrder) = .ok grammar' ∧
        Table.build Lookahead.chained (.ofGrammar Lookahead.chained) = .ok table ∧
        Table.build grammar' (.ofGrammar grammar') = .ok table' ∧
        table.get? 0 (.terminal 8) = some 0 ∧ table'.get? 0 (.terminal 8) = some 2 ∧
        ∀ tokens, Parser.parse ⟨grammar', table'⟩ tokens =
          (Parser.parse ⟨Lookahead.chained, table⟩ tokens).map (Renumbering.mk id (newPlace chainedOrder)).tree := by
  have accepted : Grammar.ofProductions 0 Lookahead.chained.productions = .ok Lookahead.chained := by decide
  have cell : ((Table.build Lookahead.chained (.ofGrammar Lookahead.chained)).toOption.bind
      (·.get? 0 (.terminal 8))) = some 0 := by decide +kernel
  obtain ⟨grammar', accepted', _, both, tables⟩ := production_order_irrelevant accepted chainedOrder
  cases built : Table.build Lookahead.chained (.ofGrammar Lookahead.chained) with
  | error conflict =>
    rw [built] at cell
    cases cell
  | ok table =>
    rw [built] at cell
    obtain ⟨table', built'⟩ := both.mp ⟨table, built⟩
    obtain ⟨cells, parses⟩ := tables table table' built built'
    refine ⟨accepted, grammar', table, table', accepted', rfl, built', cell, ?_, parses⟩
    have here : table.get? 0 (.terminal 8) = some 0 := cell
    rw [cells, here]
    decide

end Minuscule
