import Minuscule.Grammar.Lookahead
import Mathlib.Algebra.BigOperators.Group.List.Basic
import Mathlib.Algebra.Order.BigOperators.Group.List
import Mathlib.Algebra.Order.Group.Nat
import Mathlib.Data.List.Perm.Subperm

/-!
Families of sets that grow. A family lies within another when each of its sets does. The passes that
compute First and Follow only ever add members, and a family over a grammar's non-terminals can hold no
more than its terminals and one mark in each set; a pass that leaves the number of members alone has
therefore left every set alone, and so many passes as a family can have members are enough to get there.
-/

namespace Minuscule

section Sets
variable {α : Type} [Ord α] [Std.TransOrd α] [Std.LawfulEqOrd α]

theorem nodup_toList (set : Std.TreeSet α) : set.toList.Nodup := by
  apply set.distinct_toList.imp
  rintro a b different rfl
  exact different Std.ReflCmp.compare_self

theorem size_le_of_subset {small : Std.TreeSet α} {list : List α} (subset : ∀ x ∈ small, x ∈ list) :
    small.size ≤ list.length := by
  rw [← Std.TreeSet.length_toList]
  apply List.Subperm.length_le
  apply (nodup_toList small).subperm
  intro x member
  exact subset x (Std.TreeSet.mem_toList.mp member)

theorem size_le_size {small large : Std.TreeSet α} (subset : ∀ x ∈ small, x ∈ large) :
    small.size ≤ large.size := by
  rw [← Std.TreeSet.length_toList (t := large)]
  exact size_le_of_subset fun x member => Std.TreeSet.mem_toList.mpr (subset x member)

theorem size_lt_size {small large : Std.TreeSet α} {x : α} (subset : ∀ x ∈ small, x ∈ large)
    (inside : x ∈ large) (outside : x ∉ small) : small.size < large.size := by
  rw [← Std.TreeSet.length_toList (t := small), ← Std.TreeSet.length_toList (t := large)]
  have longer : (x :: small.toList).Nodup :=
    List.nodup_cons.mpr ⟨fun member => outside (Std.TreeSet.mem_toList.mp member), nodup_toList small⟩
  have bound : (x :: small.toList).length ≤ large.toList.length := by
    apply List.Subperm.length_le
    apply longer.subperm
    intro y member
    rw [Std.TreeSet.mem_toList]
    rcases List.mem_cons.mp member with rfl | later
    · exact inside
    · exact subset y (Std.TreeSet.mem_toList.mp later)
  rwa [List.length_cons] at bound

end Sets

namespace SignSets
variable {T N : Type} [Ord T] [Ord N]

/-- Every set of one family is part of the same set of another. -/
def Within (small large : SignSets T N) : Prop :=
  ∀ nonTerminal, ∀ sign ∈ small.of nonTerminal, sign ∈ large.of nonTerminal

theorem Within.refl (sets : SignSets T N) : sets.Within sets :=
  fun _ _ member => member

theorem Within.trans {a b c : SignSets T N} (first : a.Within b) (second : b.Within c) : a.Within c :=
  fun nonTerminal sign member => second nonTerminal sign (first nonTerminal sign member)

/-- A family with one set for each non-terminal of a grammar, each over the grammar's terminals and a
mark. -/
structure Over (grammar : Grammar T N) (mark : Sign T N) (sets : SignSets T N) : Prop where
  keys : ∀ nonTerminal, nonTerminal ∈ sets ↔ nonTerminal ∈ grammar.nonTerminals
  members : ∀ nonTerminal, ∀ sign ∈ sets.of nonTerminal,
    sign = mark ∨ ∃ kind ∈ grammar.terminals, sign = .terminal kind

section Members
variable [Std.TransOrd N] [Std.LawfulEqOrd N]

theorem mem_add {sets : SignSets T N} {left nonTerminal : N} {members : SignSet T N} :
    nonTerminal ∈ sets.add left members ↔ left = nonTerminal ∨ nonTerminal ∈ sets := by
  rw [add, Std.TreeMap.mem_insert, Std.LawfulEqCmp.compare_eq_iff_eq]

theorem mem_none {grammar : Grammar T N} {nonTerminal : N} :
    nonTerminal ∈ none grammar ↔ nonTerminal ∈ grammar.nonTerminals := by
  classical
  rw [none, Std.TreeMap.mem_ofList, List.contains_iff_mem, List.map_map]
  simp [Function.comp_def]

theorem not_mem_of_none (grammar : Grammar T N) (nonTerminal : N) (sign : Sign T N) :
    sign ∉ (none grammar).of nonTerminal := by
  have empty : (none grammar).of nonTerminal = ∅ := by
    by_cases known : nonTerminal ∈ grammar.nonTerminals
    · apply Std.TreeMap.getD_ofList_of_mem (k := nonTerminal) Std.ReflCmp.compare_self
      · exact List.pairwise_map.mpr grammar.nonTerminals.distinct_toList
      · exact List.mem_map.mpr ⟨nonTerminal, Std.TreeSet.mem_toList.mpr known, rfl⟩
    · exact Std.TreeMap.getD_eq_fallback (mem_none.not.mpr known)
  rw [empty]
  exact Std.TreeSet.not_mem_emptyc

theorem over_none (grammar : Grammar T N) (mark : Sign T N) : Over grammar mark (none grammar) where
  keys _ := mem_none
  members nonTerminal sign member := absurd member (not_mem_of_none grammar nonTerminal sign)

variable [Std.TransOrd T]

theorem mem_of_add {sets : SignSets T N} {left nonTerminal : N} {members : SignSet T N} {sign : Sign T N} :
    sign ∈ (sets.add left members).of nonTerminal ↔
      sign ∈ sets.of nonTerminal ∨ left = nonTerminal ∧ sign ∈ members := by
  rw [of, add, Std.TreeMap.getD_insert]
  by_cases same : left = nonTerminal
  · subst same
    rw [if_pos Std.ReflCmp.compare_self, Std.TreeSet.mem_union_iff]
    simp
  · have different : ¬ compare left nonTerminal = .eq := fun equal =>
      same (Std.LawfulEqCmp.eq_of_compare equal)
    rw [if_neg different]
    simp [same, of]

theorem within_add (sets : SignSets T N) (left : N) (members : SignSet T N) :
    sets.Within (sets.add left members) :=
  fun _ _ member => mem_of_add.mpr (.inl member)

theorem Over.add {grammar : Grammar T N} {mark : Sign T N} {sets : SignSets T N} (family : Over grammar mark sets)
    {left : N} {members : SignSet T N} (known : left ∈ grammar.nonTerminals)
    (bounded : ∀ sign ∈ members, sign = mark ∨ ∃ kind ∈ grammar.terminals, sign = .terminal kind) :
    Over grammar mark (sets.add left members) where
  keys nonTerminal := by
    rw [mem_add, family.keys]
    constructor
    · rintro (rfl | member)
      · exact known
      · exact member
    · exact .inr
  members nonTerminal sign member := by
    rcases mem_of_add.mp member with old | ⟨_, new⟩
    · exact family.members nonTerminal sign old
    · exact bounded sign new

/-- The members of a family, counted set by set. -/
theorem Over.count_eq {grammar : Grammar T N} {mark : Sign T N} {sets : SignSets T N}
    (family : Over grammar mark sets) :
    sets.count = sumOf (fun nonTerminal => (sets.of nonTerminal).size) grammar.nonTerminals.toList := by
  have sizes : sets.count = sumOf (fun nonTerminal => (sets.of nonTerminal).size) sets.keys := by
    rw [count, SignSets.members, sumOf, sumOf, ← Std.TreeMap.map_fst_toList_eq_keys, List.map_map, List.map_map]
    congr 1
    apply List.map_congr_left
    rintro ⟨nonTerminal, set⟩ member
    have found := Std.TreeMap.mem_toList_iff_getElem?_eq_some.mp member
    simp only [Function.comp_apply, of, Std.TreeMap.getD_eq_getD_getElem?, found, Option.getD_some,
      Std.TreeSet.length_toList]
  have same : sets.keys.Perm grammar.nonTerminals.toList := by
    rw [List.perm_ext_iff_of_nodup sets.nodup_keys (nodup_toList _)]
    intro nonTerminal
    rw [Std.TreeMap.mem_keys, Std.TreeSet.mem_toList, family.keys]
  rw [sizes]
  change (sets.keys.map _).sum = (grammar.nonTerminals.toList.map _).sum
  exact (same.map _).sum_eq

variable [Std.LawfulEqOrd T]

theorem Over.count_le {grammar : Grammar T N} {mark : Sign T N} {sets : SignSets T N}
    (family : Over grammar mark sets) :
    sets.count ≤ grammar.nonTerminals.size * (grammar.terminals.size + 1) := by
  rw [family.count_eq, ← Std.TreeSet.length_toList (t := grammar.nonTerminals)]
  have each : ∀ n ∈ grammar.nonTerminals.toList.map fun nonTerminal => (sets.of nonTerminal).size,
      n ≤ grammar.terminals.size + 1 := by
    intro n member
    obtain ⟨nonTerminal, _, rfl⟩ := List.mem_map.mp member
    have subset : ∀ sign ∈ sets.of nonTerminal, sign ∈ mark :: grammar.terminals.toList.map Sign.terminal := by
      intro sign inside
      rcases family.members nonTerminal sign inside with rfl | ⟨kind, known, rfl⟩
      · exact List.mem_cons_self ..
      · apply List.mem_cons_of_mem
        exact List.mem_map.mpr ⟨kind, Std.TreeSet.mem_toList.mpr known, rfl⟩
    have bound := size_le_of_subset subset
    simpa [Std.TreeSet.length_toList] using bound
  have total := List.sum_le_card_nsmul _ _ each
  rw [List.length_map] at total
  exact total

theorem Over.count_mono {grammar : Grammar T N} {mark : Sign T N} {small large : SignSets T N}
    (family : Over grammar mark small) (family' : Over grammar mark large) (within : small.Within large) :
    small.count ≤ large.count := by
  rw [family.count_eq, family'.count_eq]
  change (grammar.nonTerminals.toList.map _).sum ≤ (grammar.nonTerminals.toList.map _).sum
  apply List.sum_le_sum
  intro nonTerminal _
  exact size_le_size (within nonTerminal)

/-- Growth shows in the count. -/
theorem Over.count_lt {grammar : Grammar T N} {mark : Sign T N} {small large : SignSets T N}
    (family : Over grammar mark small) (family' : Over grammar mark large) (within : small.Within large)
    (grown : ¬ large.Within small) : small.count < large.count := by
  simp only [Within, not_forall] at grown
  obtain ⟨nonTerminal, sign, inside, outside⟩ := grown
  rw [family.count_eq, family'.count_eq]
  change (grammar.nonTerminals.toList.map _).sum < (grammar.nonTerminals.toList.map _).sum
  apply List.sum_lt_sum
  · intro other _
    exact size_le_size (within other)
  · refine ⟨nonTerminal, ?_, size_lt_size (within nonTerminal) inside outside⟩
    rw [Std.TreeSet.mem_toList, ← family'.keys]
    by_contra unknown
    rw [of, Std.TreeMap.getD_eq_fallback unknown] at inside
    exact Std.TreeSet.not_mem_emptyc inside

end Members

/-! A pass runs over a list of rules, each of which adds members in place; a rule sees what the rules
before it have added in the same pass. -/

section Settling
variable {R : Type} {step : R → SignSets T N → SignSets T N} {rules : List R}

def passOver (step : R → SignSets T N → SignSets T N) (rules : List R) (sets : SignSets T N) : SignSets T N :=
  rules.foldl (fun sets rule => step rule sets) sets

theorem pass_induction {P : SignSets T N → Prop} {sets : SignSets T N} (start : P sets)
    (preserved : ∀ rule ∈ rules, ∀ sets, P sets → P (step rule sets)) : P (passOver step rules sets) := by
  induction rules generalizing sets with
  | nil => exact start
  | cons rule rest ih =>
    apply ih
    · exact preserved rule (List.mem_cons_self ..) sets start
    · exact fun other member => preserved other (List.mem_cons_of_mem _ member)

theorem settle_induction {P : SignSets T N → Prop} {sets : SignSets T N} (rounds : Nat) (start : P sets)
    (preserved : ∀ rule ∈ rules, ∀ sets, P sets → P (step rule sets)) :
    P (sets.settle (passOver step rules) rounds) := by
  induction rounds generalizing sets with
  | zero => exact start
  | succ rounds ih =>
    have grown := pass_induction start preserved
    rw [settle]
    split
    · exact grown
    · exact ih grown

/-- Rules that only add members, that add no fewer to a larger family, and that keep to a grammar. -/
structure Growing (grammar : Grammar T N) (mark : Sign T N) (step : R → SignSets T N → SignSets T N)
    (rules : List R) : Prop where
  inflates : ∀ rule ∈ rules, ∀ sets : SignSets T N, sets.Within (step rule sets)
  monotone : ∀ rule ∈ rules, ∀ small large : SignSets T N, small.Within large →
    (step rule small).Within (step rule large)
  keeps : ∀ rule ∈ rules, ∀ sets : SignSets T N, Over grammar mark sets → Over grammar mark (step rule sets)

theorem Growing.tail {grammar : Grammar T N} {mark : Sign T N} {rule : R}
    (growing : Growing grammar mark step (rule :: rules)) : Growing grammar mark step rules where
  inflates other member := growing.inflates other (List.mem_cons_of_mem _ member)
  monotone other member := growing.monotone other (List.mem_cons_of_mem _ member)
  keeps other member := growing.keeps other (List.mem_cons_of_mem _ member)

variable {grammar : Grammar T N} {mark : Sign T N}

theorem Growing.within_pass (growing : Growing grammar mark step rules) (sets : SignSets T N) :
    sets.Within (passOver step rules sets) :=
  pass_induction (P := sets.Within) (.refl sets) fun rule member _ within =>
    within.trans (growing.inflates rule member _)

/-- A pass gives at least what each of its rules gives by itself, since families only grow on the way. -/
theorem Growing.step_within_pass (growing : Growing grammar mark step rules) {rule : R} (member : rule ∈ rules)
    {small sets : SignSets T N} (within : small.Within sets) :
    (step rule small).Within (passOver step rules sets) := by
  induction rules generalizing sets with
  | nil => simp at member
  | cons first rest ih =>
    have here := growing.inflates first (List.mem_cons_self ..) sets
    rcases List.mem_cons.mp member with rfl | later
    · have one := growing.monotone rule (List.mem_cons_self ..) small sets within
      exact one.trans (growing.tail.within_pass (step rule sets))
    · exact ih growing.tail later (within.trans here)

/-- A family that a pass does not enlarge is closed under every rule. -/
theorem Growing.closed_of_pass (growing : Growing grammar mark step rules) {sets : SignSets T N}
    (settled : (passOver step rules sets).Within sets) {rule : R} (member : rule ∈ rules) :
    (step rule (passOver step rules sets)).Within (passOver step rules sets) :=
  growing.step_within_pass member settled

variable [Std.TransOrd T] [Std.TransOrd N] [Std.LawfulEqOrd T] [Std.LawfulEqOrd N]

theorem Growing.settle_closed (growing : Growing grammar mark step rules) {sets : SignSets T N} {rounds : Nat}
    (family : Over grammar mark sets)
    (enough : grammar.nonTerminals.size * (grammar.terminals.size + 1) < sets.count + rounds) :
    ∀ rule ∈ rules, (step rule (sets.settle (passOver step rules) rounds)).Within
      (sets.settle (passOver step rules) rounds) := by
  induction rounds generalizing sets with
  | zero =>
    have full := family.count_le
    omega
  | succ rounds ih =>
    have within := growing.within_pass sets
    have family' : Over grammar mark (passOver step rules sets) := pass_induction family growing.keeps
    rw [settle]
    split
    · next equal =>
      intro rule member
      apply growing.closed_of_pass _ member
      by_contra grown
      have more := family.count_lt family' within grown
      omega
    · next different =>
      apply ih family'
      have more := family.count_mono family' within
      omega

end Settling

end SignSets

end Minuscule
