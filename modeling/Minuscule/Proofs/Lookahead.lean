import Minuscule.Proofs.SignSets

/-!
What the First and Follow sets of a grammar hold. Both families are closed under the rules that define
them, so they hold every sign of lookahead that can occur. The First sets hold nothing else: a terminal is
a member only if an expansion starts with it, and `ε` only if an expansion vanishes. Both relations carry
the height of the expansion, by which the members of a set are ranked.
-/

namespace Minuscule

namespace Grammar
variable {T N : Type}

/-- What `ofProductions` checks. -/
structure Valid (grammar : Grammar T N) : Prop where
  start : grammar.start ∈ lefts grammar.productions
  right : ∀ production ∈ grammar.productions, ∀ sign ∈ production.right,
    (∃ kind, sign = .terminal kind) ∨ ∃ kind ∈ lefts grammar.productions, sign = .nonTerminal kind

theorem Valid.proper {grammar : Grammar T N} (valid : grammar.Valid) {production : Production T N}
    (member : production ∈ grammar.productions) {sign : Sign T N} (inside : sign ∈ production.right) :
    sign ≠ .epsilon ∧ sign ≠ .endMark := by
  rcases valid.right production member sign inside with ⟨_, rfl⟩ | ⟨_, _, rfl⟩ <;> simp

section Accepted
variable [DecidableEq N]

theorem faultIn?_eq_none {defined : List N} {production : Production T N}
    (clean : faultIn? defined production = none) {sign : Sign T N} (member : sign ∈ production.right) :
    (∃ kind, sign = .terminal kind) ∨ ∃ kind ∈ defined, sign = .nonTerminal kind := by
  have fine := List.findSome?_eq_none_iff.mp clean sign member
  cases sign with
  | terminal kind => exact .inl ⟨kind, rfl⟩
  | nonTerminal kind =>
    right
    refine ⟨kind, ?_, rfl⟩
    by_contra absent
    simp [absent] at fine
  | epsilon => simp at fine
  | endMark => simp at fine

theorem valid_of_ofProductions {start : N} {productions : List (Production T N)} {grammar : Grammar T N}
    (accepted : ofProductions start productions = .ok grammar) : grammar.Valid := by
  rw [ofProductions] at accepted
  split at accepted
  · next present =>
    split at accepted
    · next clean =>
      cases accepted
      refine ⟨present, ?_⟩
      intro production member sign inside
      exact faultIn?_eq_none (List.findSome?_eq_none_iff.mp clean production member) inside
    · cases accepted
  · cases accepted

end Accepted

/-- A sign that expands to nothing, by an expansion no higher than the given height. -/
inductive Vanishes (grammar : Grammar T N) : Nat → Sign T N → Prop
  | expand {height : Nat} {production : Production T N} (member : production ∈ grammar.productions)
      (below : ∀ sign ∈ production.right, Vanishes grammar height sign) :
      Vanishes grammar (height + 1) (.nonTerminal production.left)

/-- A sign with an expansion, no higher than the given height, that starts with a terminal. -/
inductive Starts (grammar : Grammar T N) (kind : T) : Nat → Sign T N → Prop
  | terminal (height : Nat) : Starts grammar kind height (.terminal kind)
  | expand {height : Nat} {production : Production T N} {front back : List (Sign T N)} {sign : Sign T N}
      (member : production ∈ grammar.productions) (right : production.right = front ++ sign :: back)
      (vanish : ∀ other ∈ front, ∃ height, Vanishes grammar height other)
      (below : Starts grammar kind height sign) :
      Starts grammar kind (height + 1) (.nonTerminal production.left)

theorem Vanishes.production {grammar : Grammar T N} {height : Nat} {kind : N}
    (vanishes : Vanishes grammar height (.nonTerminal kind)) :
    ∃ below production, height = below + 1 ∧ production ∈ grammar.productions ∧ production.left = kind ∧
      ∀ sign ∈ production.right, Vanishes grammar below sign := by
  generalize signed : Sign.nonTerminal kind = sign at vanishes
  cases vanishes with
  | expand member below =>
    cases signed
    exact ⟨_, _, rfl, member, rfl, below⟩

theorem Starts.production {grammar : Grammar T N} {terminal : T} {height : Nat} {kind : N}
    (starts : Starts grammar terminal height (.nonTerminal kind)) :
    ∃ below production front sign back, height = below + 1 ∧ production ∈ grammar.productions ∧
      production.left = kind ∧ production.right = front ++ sign :: back ∧
      (∀ other ∈ front, ∃ height, Vanishes grammar height other) ∧ Starts grammar terminal below sign := by
  generalize signed : Sign.nonTerminal kind = sign at starts
  cases starts with
  | terminal => cases signed
  | expand member right vanish below =>
    cases signed
    exact ⟨_, _, _, _, _, rfl, member, rfl, right, vanish, below⟩

theorem Vanishes.mono {grammar : Grammar T N} {height : Nat} {sign : Sign T N}
    (vanishes : Vanishes grammar height sign) {higher : Nat} (bound : height ≤ higher) :
    Vanishes grammar higher sign := by
  induction vanishes generalizing higher with
  | expand member _ ih =>
    obtain ⟨rest, rfl⟩ := Nat.exists_eq_add_of_le bound
    rw [Nat.add_right_comm]
    exact .expand member fun sign inside => ih sign inside (by omega)

/-- Finitely many vanishing signs vanish within a common height. -/
theorem vanishes_together {grammar : Grammar T N} {signs : List (Sign T N)}
    (each : ∀ sign ∈ signs, ∃ height, Vanishes grammar height sign) :
    ∃ height, ∀ sign ∈ signs, Vanishes grammar height sign := by
  induction signs with
  | nil => exact ⟨0, by simp⟩
  | cons sign rest ih =>
    obtain ⟨here, vanishes⟩ := each sign (List.mem_cons_self ..)
    obtain ⟨later, vanish⟩ := ih fun other member => each other (List.mem_cons_of_mem _ member)
    refine ⟨here + later, ?_⟩
    intro other member
    rcases List.mem_cons.mp member with rfl | inside
    · exact vanishes.mono (by omega)
    · exact (vanish other inside).mono (by omega)

end Grammar

namespace Lookahead
variable {T N : Type}

section NonTerminals
variable [Ord N] [Std.TransOrd N] [Std.LawfulEqOrd N]

theorem mem_nonTerminals {grammar : Grammar T N} {kind : N} :
    kind ∈ grammar.nonTerminals ↔ kind ∈ Grammar.lefts grammar.productions := by
  classical
  rw [Grammar.nonTerminals, Std.TreeSet.mem_ofList, List.contains_iff_mem]

theorem left_mem_nonTerminals {grammar : Grammar T N} {production : Production T N}
    (member : production ∈ grammar.productions) : production.left ∈ grammar.nonTerminals :=
  mem_nonTerminals.mpr (List.mem_map.mpr ⟨production, member, rfl⟩)

end NonTerminals

theorem mem_terminals [Ord T] [Std.TransOrd T] [Std.LawfulEqOrd T] {grammar : Grammar T N}
    {production : Production T N} (member : production ∈ grammar.productions) {kind : T}
    (inside : .terminal kind ∈ production.right) : kind ∈ grammar.terminals := by
  classical
  rw [Grammar.terminals, Std.TreeSet.mem_ofList, List.contains_iff_mem, List.mem_flatMap]
  exact ⟨production, member, List.mem_filterMap.mpr ⟨.terminal kind, inside, rfl⟩⟩

variable [Ord T] [Ord N]

theorem firstOf_mono {small large : SignSets T N} (within : small.Within large) {sign member : Sign T N}
    (inside : member ∈ firstOf small sign) : member ∈ firstOf large sign := by
  cases sign with
  | nonTerminal kind => exact within kind member inside
  | _ => exact inside

section First
variable [Std.TransOrd T] [Std.TransOrd N] [Std.LawfulEqOrd T] [Std.LawfulEqOrd N]

/-- Terminals and marks start with themselves. -/
theorem mem_firstOf_fixed {first : SignSets T N} {sign member : Sign T N} (fixed : sign.isNonTerminal = false) :
    member ∈ firstOf first sign ↔ member = sign := by
  have alone : member ∈ ({sign} : SignSet T N) ↔ member = sign := by
    rw [Std.TreeSet.singleton_eq_insert, Std.TreeSet.mem_insert, Std.LawfulEqCmp.compare_eq_iff_eq]
    simp [eq_comm]
  cases sign with
  | nonTerminal kind => cases fixed
  | _ => exact alone

theorem mem_firstOf_terminal {first : SignSets T N} {kind : T} {sign : Sign T N} :
    sign ∈ firstOf first (.terminal kind) ↔ sign = .terminal kind :=
  mem_firstOf_fixed rfl

/-- What both kinds of sets are put together from: a set, and another one if the first may vanish. -/
theorem mem_passing {head outside : SignSet T N} {member : Sign T N} :
    member ∈ (if head.contains .epsilon then head.erase .epsilon ∪ outside else head) ↔
      (member ≠ .epsilon ∧ member ∈ head) ∨ (.epsilon ∈ head ∧ member ∈ outside) := by
  by_cases vanishing : Sign.epsilon ∈ head
  · simp only [Std.TreeSet.contains_iff_mem.mpr vanishing, if_true, Std.TreeSet.mem_union_iff,
      Std.TreeSet.mem_erase, vanishing, true_and, Ne, Std.LawfulEqCmp.compare_eq_iff_eq]
    rw [eq_comm]
  · have solid : ¬ head.contains .epsilon = true :=
      fun contained => vanishing (Std.TreeSet.contains_iff_mem.mp contained)
    simp only [if_neg solid, vanishing, false_and, or_false]
    constructor
    · intro inside
      exact ⟨fun same => vanishing (same ▸ inside), inside⟩
    · exact And.right

theorem mem_firstOfAll_cons {first : SignSets T N} {sign member : Sign T N} {rest : List (Sign T N)} :
    member ∈ firstOfAll first (sign :: rest) ↔
      (member ≠ .epsilon ∧ member ∈ firstOf first sign) ∨
        (.epsilon ∈ firstOf first sign ∧ member ∈ firstOfAll first rest) :=
  mem_passing

theorem mem_firstOfAll_nil {first : SignSets T N} {member : Sign T N} :
    member ∈ firstOfAll first [] ↔ member = .epsilon := by
  rw [firstOfAll, Std.TreeSet.singleton_eq_insert, Std.TreeSet.mem_insert, Std.LawfulEqCmp.compare_eq_iff_eq]
  simp [eq_comm]

theorem epsilon_mem_firstOfAll {first : SignSets T N} {signs : List (Sign T N)} :
    .epsilon ∈ firstOfAll first signs ↔ ∀ sign ∈ signs, .epsilon ∈ firstOf first sign := by
  induction signs with
  | nil => simp [mem_firstOfAll_nil]
  | cons sign rest ih => simp [mem_firstOfAll_cons, ih]

/-- A sequence starts with what one of its signs starts with, if all signs before that one may vanish. -/
theorem mem_firstOfAll {first : SignSets T N} {signs : List (Sign T N)} {member : Sign T N}
    (solid : member ≠ .epsilon) :
    member ∈ firstOfAll first signs ↔ ∃ front sign back, signs = front ++ sign :: back ∧
      (∀ other ∈ front, .epsilon ∈ firstOf first other) ∧ member ∈ firstOf first sign := by
  induction signs with
  | nil => simp [mem_firstOfAll_nil, solid]
  | cons sign rest ih =>
    rw [mem_firstOfAll_cons, ih]
    constructor
    · rintro (⟨_, inside⟩ | ⟨vanishing, front, other, back, rfl, vanish, inside⟩)
      · exact ⟨[], sign, rest, rfl, by simp, inside⟩
      · refine ⟨sign :: front, other, back, rfl, ?_, inside⟩
        intro earlier present
        rcases List.mem_cons.mp present with rfl | later
        · exact vanishing
        · exact vanish earlier later
    · rintro ⟨front, other, back, split, vanish, inside⟩
      cases front with
      | nil =>
        cases split
        exact .inl ⟨solid, inside⟩
      | cons earlier front =>
        cases split
        refine .inr ⟨vanish sign (List.mem_cons_self ..), front, other, back, rfl, ?_, inside⟩
        exact fun between present => vanish between (List.mem_cons_of_mem _ present)

theorem firstOfAll_mono {small large : SignSets T N} (within : small.Within large) {signs : List (Sign T N)}
    {member : Sign T N} (inside : member ∈ firstOfAll small signs) : member ∈ firstOfAll large signs := by
  induction signs with
  | nil => exact inside
  | cons sign rest ih =>
    rw [mem_firstOfAll_cons] at inside ⊢
    rcases inside with ⟨solid, here⟩ | ⟨vanishing, later⟩
    · exact .inl ⟨solid, firstOf_mono within here⟩
    · exact .inr ⟨firstOf_mono within vanishing, ih later⟩

/-! First sets. -/

def firstStep (production : Production T N) (sets : SignSets T N) : SignSets T N :=
  sets.add production.left (firstOfAll sets production.right)

variable {grammar : Grammar T N}

theorem firstOf_bounded (valid : grammar.Valid) {sets : SignSets T N} (family : sets.Over grammar .epsilon)
    {production : Production T N} (member : production ∈ grammar.productions) {sign : Sign T N}
    (inside : sign ∈ production.right) {found : Sign T N} (first : found ∈ firstOf sets sign) :
    found = .epsilon ∨ ∃ kind ∈ grammar.terminals, found = .terminal kind := by
  rcases valid.right production member sign inside with ⟨kind, rfl⟩ | ⟨kind, _, rfl⟩
  · exact .inr ⟨kind, mem_terminals member inside, mem_firstOf_terminal.mp first⟩
  · exact family.members kind found first

theorem firstOfAll_bounded (valid : grammar.Valid) {sets : SignSets T N} (family : sets.Over grammar .epsilon)
    {production : Production T N} (member : production ∈ grammar.productions) {signs : List (Sign T N)}
    (part : ∀ sign ∈ signs, sign ∈ production.right) {found : Sign T N} (first : found ∈ firstOfAll sets signs) :
    found = .epsilon ∨ ∃ kind ∈ grammar.terminals, found = .terminal kind := by
  by_cases solid : found = .epsilon
  · exact .inl solid
  · obtain ⟨front, sign, back, rfl, _, inside⟩ := (mem_firstOfAll solid).mp first
    exact firstOf_bounded valid family member (part sign (by simp)) inside

theorem growing_first (valid : grammar.Valid) :
    SignSets.Growing grammar .epsilon firstStep grammar.productions where
  inflates production _ sets := sets.within_add production.left _
  monotone production _ small large within := by
    intro nonTerminal sign inside
    rcases SignSets.mem_of_add.mp inside with old | ⟨same, new⟩
    · exact SignSets.mem_of_add.mpr (.inl (within nonTerminal sign old))
    · exact SignSets.mem_of_add.mpr (.inr ⟨same, firstOfAll_mono within new⟩)
  keeps production member sets family := by
    apply family.add (left_mem_nonTerminals member)
    intro sign inside
    exact firstOfAll_bounded valid family member (fun _ present => present) inside

theorem over_firstSets (valid : grammar.Valid) : (firstSets grammar).Over grammar .epsilon :=
  SignSets.settle_induction _ (SignSets.over_none grammar .epsilon) (growing_first valid).keeps

/-- The First sets are closed under every production. -/
theorem firstSets_closed (valid : grammar.Valid) {production : Production T N}
    (member : production ∈ grammar.productions) {sign : Sign T N}
    (inside : sign ∈ firstOfAll (firstSets grammar) production.right) :
    sign ∈ (firstSets grammar).of production.left := by
  have enough : grammar.nonTerminals.size * (grammar.terminals.size + 1) <
      (SignSets.none grammar).count + rounds grammar := by
    rw [rounds]
    omega
  have closed := (growing_first valid).settle_closed (SignSets.over_none grammar .epsilon) enough production member
  apply closed production.left sign
  exact SignSets.mem_of_add.mpr (.inr ⟨rfl, inside⟩)

theorem epsilon_of_vanishes (valid : grammar.Valid) {height : Nat} {sign : Sign T N}
    (vanishes : grammar.Vanishes height sign) : .epsilon ∈ firstOf (firstSets grammar) sign := by
  induction vanishes with
  | expand member _ ih => exact firstSets_closed valid member (epsilon_mem_firstOfAll.mpr ih)

theorem mem_of_starts (valid : grammar.Valid) {kind : T} {height : Nat} {sign : Sign T N}
    (starts : grammar.Starts kind height sign) : .terminal kind ∈ firstOf (firstSets grammar) sign := by
  induction starts with
  | terminal height => exact mem_firstOf_terminal.mpr rfl
  | expand member right vanish _ ih =>
    apply firstSets_closed valid member
    rw [mem_firstOfAll (by simp)]
    refine ⟨_, _, _, right, ?_, ih⟩
    intro other inside
    obtain ⟨height, vanishes⟩ := vanish other inside
    exact epsilon_of_vanishes valid vanishes

/-- What a family of First sets may hold. -/
structure Justified (grammar : Grammar T N) (sets : SignSets T N) : Prop where
  vanishes : ∀ kind, .epsilon ∈ sets.of kind → ∃ height, grammar.Vanishes height (.nonTerminal kind)
  starts : ∀ kind terminal, .terminal terminal ∈ sets.of kind →
    ∃ height, grammar.Starts terminal height (.nonTerminal kind)

theorem Justified.sign_vanishes {sets : SignSets T N} (justified : Justified grammar sets) {sign : Sign T N}
    (solid : sign ≠ .epsilon) (first : .epsilon ∈ firstOf sets sign) : ∃ height, grammar.Vanishes height sign := by
  cases sign with
  | nonTerminal kind => exact justified.vanishes kind first
  | _ => exact absurd ((mem_firstOf_fixed rfl).mp first).symm solid

theorem Justified.sign_starts {sets : SignSets T N} (justified : Justified grammar sets) {sign : Sign T N}
    {terminal : T} (first : .terminal terminal ∈ firstOf sets sign) :
    ∃ height, grammar.Starts terminal height sign := by
  cases sign with
  | nonTerminal kind => exact justified.starts kind terminal first
  | terminal kind =>
    cases mem_firstOf_terminal.mp first
    exact ⟨0, .terminal 0⟩
  | epsilon => cases (mem_firstOf_fixed rfl).mp first
  | endMark => cases (mem_firstOf_fixed rfl).mp first

theorem Justified.firstStep {sets : SignSets T N} (justified : Justified grammar sets) (valid : grammar.Valid)
    {production : Production T N} (member : production ∈ grammar.productions) :
    Justified grammar (firstStep production sets) where
  vanishes kind first := by
    rcases SignSets.mem_of_add.mp first with old | ⟨rfl, new⟩
    · exact justified.vanishes kind old
    · obtain ⟨height, vanish⟩ := Grammar.vanishes_together fun sign inside =>
        justified.sign_vanishes (valid.proper member inside).1 (epsilon_mem_firstOfAll.mp new sign inside)
      exact ⟨height + 1, .expand member vanish⟩
  starts kind terminal first := by
    rcases SignSets.mem_of_add.mp first with old | ⟨rfl, new⟩
    · exact justified.starts kind terminal old
    · obtain ⟨front, sign, back, right, vanish, here⟩ := (mem_firstOfAll (by simp)).mp new
      obtain ⟨height, starts⟩ := justified.sign_starts here
      refine ⟨height + 1, .expand member right ?_ starts⟩
      intro other inside
      exact justified.sign_vanishes (valid.proper member (by simp [right, inside])).1 (vanish other inside)

theorem justified_firstSets (valid : grammar.Valid) : Justified grammar (firstSets grammar) := by
  apply SignSets.settle_induction (rounds grammar)
  · exact ⟨fun kind first => (SignSets.not_mem_of_none grammar kind _ first).elim,
      fun kind _ first => (SignSets.not_mem_of_none grammar kind _ first).elim⟩
  · intro production member sets justified
    exact justified.firstStep valid member

end First

/-! Follow sets. -/

/-- What follows a non-terminal inside a right-hand side, given what stands behind it there and what
follows the left-hand side. -/
def following (first : SignSets T N) (rest : List (Sign T N)) (outside : SignSet T N) : SignSet T N :=
  let next := firstOfAll first rest
  if next.contains .epsilon then next.erase .epsilon ∪ outside else next

/-- One rule for each place of a non-terminal in a right-hand side. -/
def followStep (first : SignSets T N) (rule : N × N × List (Sign T N)) (sets : SignSets T N) : SignSets T N :=
  sets.add rule.2.1 (following first rule.2.2 (sets.of rule.1))

/-- The places of non-terminals in a right-hand side: left-hand side, non-terminal, and what stands behind. -/
def occurrences (left : N) : List (Sign T N) → List (N × N × List (Sign T N))
  | [] => []
  | .nonTerminal kind :: rest => (left, kind, rest) :: occurrences left rest
  | _ :: rest => occurrences left rest

theorem followAlong_eq (first : SignSets T N) (left : N) (right : List (Sign T N)) (sets : SignSets T N) :
    followAlong first left right sets = SignSets.passOver (followStep first) (occurrences left right) sets := by
  induction right generalizing sets with
  | nil => rfl
  | cons sign rest ih =>
    cases sign with
    | nonTerminal kind => exact ih _
    | _ => exact ih _

def followRules (grammar : Grammar T N) : List (N × N × List (Sign T N)) :=
  grammar.productions.flatMap fun production => occurrences production.left production.right

theorem followPass_eq (grammar : Grammar T N) (first : SignSets T N) :
    followPass grammar first = SignSets.passOver (followStep first) (followRules grammar) := by
  funext sets
  rw [followPass, SignSets.passOver, followRules, List.foldl_flatMap]
  congr 1
  funext sets production
  exact followAlong_eq first production.left production.right sets

theorem followSets_eq (grammar : Grammar T N) (first : SignSets T N) :
    followSets grammar first = ((SignSets.none grammar).add grammar.start {Sign.endMark}).settle
      (SignSets.passOver (followStep first) (followRules grammar)) (rounds grammar) := by
  rw [followSets, followPass_eq]

omit [Ord T] [Ord N] in
theorem mem_occurrences {left : N} {right : List (Sign T N)} {rule : N × N × List (Sign T N)} :
    rule ∈ occurrences left right ↔
      rule.1 = left ∧ ∃ front, right = front ++ .nonTerminal rule.2.1 :: rule.2.2 := by
  obtain ⟨outer, kind, rest⟩ := rule
  induction right with
  | nil => simp [occurrences]
  | cons sign behind ih =>
    have later : (∃ front, sign :: behind = front ++ .nonTerminal kind :: rest) ↔
        (sign = .nonTerminal kind ∧ behind = rest) ∨ ∃ front, behind = front ++ .nonTerminal kind :: rest := by
      constructor
      · rintro ⟨front, split⟩
        cases front with
        | nil =>
          cases split
          exact .inl ⟨rfl, rfl⟩
        | cons _ front =>
          cases split
          exact .inr ⟨front, rfl⟩
      · rintro (⟨rfl, rfl⟩ | ⟨front, rfl⟩)
        · exact ⟨[], rfl⟩
        · exact ⟨sign :: front, rfl⟩
    rw [later]
    cases sign with
    | nonTerminal other =>
      rw [occurrences, List.mem_cons, ih, Prod.mk.injEq, Prod.mk.injEq, Sign.nonTerminal.injEq]
      grind
    | _ => simpa [occurrences] using ih

omit [Ord T] [Ord N] in
theorem mem_followRules {grammar : Grammar T N} {rule : N × N × List (Sign T N)} :
    rule ∈ followRules grammar ↔ ∃ production ∈ grammar.productions, rule.1 = production.left ∧
      ∃ front, production.right = front ++ .nonTerminal rule.2.1 :: rule.2.2 := by
  rw [followRules, List.mem_flatMap]
  simp only [mem_occurrences]

section Follow
variable [Std.TransOrd T] [Std.TransOrd N] [Std.LawfulEqOrd T] [Std.LawfulEqOrd N] {grammar : Grammar T N}

theorem mem_following {first : SignSets T N} {rest : List (Sign T N)} {outside : SignSet T N} {sign : Sign T N} :
    sign ∈ following first rest outside ↔
      (sign ≠ .epsilon ∧ sign ∈ firstOfAll first rest) ∨ (.epsilon ∈ firstOfAll first rest ∧ sign ∈ outside) :=
  mem_passing

theorem growing_follow (valid : grammar.Valid) {first : SignSets T N} (family : first.Over grammar .epsilon) :
    SignSets.Growing grammar .endMark (followStep first) (followRules grammar) where
  inflates rule _ sets := sets.within_add rule.2.1 _
  monotone rule _ small large within := by
    intro nonTerminal sign inside
    rcases SignSets.mem_of_add.mp inside with old | ⟨same, new⟩
    · exact SignSets.mem_of_add.mpr (.inl (within nonTerminal sign old))
    · refine SignSets.mem_of_add.mpr (.inr ⟨same, mem_following.mpr ?_⟩)
      exact (mem_following.mp new).imp id (And.imp id (within rule.1 sign))
  keeps rule member sets family' := by
    obtain ⟨production, present, _, front, right⟩ := mem_followRules.mp member
    apply family'.add
    · rcases valid.right production present (.nonTerminal rule.2.1) (by simp [right]) with
        ⟨kind, same⟩ | ⟨kind, known, same⟩
      · cases same
      · cases same
        exact mem_nonTerminals.mpr known
    · intro sign inside
      rcases mem_following.mp inside with ⟨solid, next⟩ | ⟨_, outside⟩
      · have bounded := firstOfAll_bounded valid family present (by simp +contextual [right]) next
        exact .inr (bounded.resolve_left solid)
      · exact family'.members rule.1 sign outside

theorem over_followStart (valid : grammar.Valid) :
    ((SignSets.none grammar).add grammar.start {Sign.endMark}).Over grammar .endMark := by
  apply (SignSets.over_none grammar .endMark).add (mem_nonTerminals.mpr valid.start)
  intro sign inside
  rw [Std.TreeSet.singleton_eq_insert, Std.TreeSet.mem_insert, Std.LawfulEqCmp.compare_eq_iff_eq] at inside
  simp only [Std.TreeSet.not_mem_emptyc, or_false] at inside
  exact .inl inside.symm

/-- The sets of a lookahead satisfy the rules that define First and Follow. -/
structure Closed (grammar : Grammar T N) (sets : Lookahead T N) : Prop where
  first : ∀ production ∈ grammar.productions, ∀ sign ∈ firstOfAll sets.first production.right,
    sign ∈ sets.first.of production.left
  next : ∀ production ∈ grammar.productions, ∀ front kind back,
    production.right = front ++ .nonTerminal kind :: back →
      ∀ sign ∈ firstOfAll sets.first back, sign ≠ .epsilon → sign ∈ sets.follow.of kind
  last : ∀ production ∈ grammar.productions, ∀ front kind back,
    production.right = front ++ .nonTerminal kind :: back → .epsilon ∈ firstOfAll sets.first back →
      ∀ sign ∈ sets.follow.of production.left, sign ∈ sets.follow.of kind
  finish : .endMark ∈ sets.follow.of grammar.start

theorem followSets_closed (valid : grammar.Valid) {first : SignSets T N} (family : first.Over grammar .epsilon)
    {production : Production T N} (member : production ∈ grammar.productions) {front back : List (Sign T N)}
    {kind : N} (right : production.right = front ++ .nonTerminal kind :: back) {sign : Sign T N}
    (inside : sign ∈ following first back ((followSets grammar first).of production.left)) :
    sign ∈ (followSets grammar first).of kind := by
  rw [followSets_eq] at inside ⊢
  apply (growing_follow valid family).settle_closed (over_followStart valid) (by rw [rounds]; omega)
    (production.left, kind, back) (mem_followRules.mpr ⟨production, member, rfl, front, right⟩) kind sign
  exact SignSets.mem_of_add.mpr (.inr ⟨rfl, inside⟩)

omit [Std.LawfulEqOrd T] in
theorem endMark_mem_followSets (grammar : Grammar T N) (first : SignSets T N) :
    .endMark ∈ (followSets grammar first).of grammar.start := by
  rw [followSets_eq]
  apply SignSets.settle_induction (P := fun sets => .endMark ∈ sets.of grammar.start)
  · refine SignSets.mem_of_add.mpr (.inr ⟨rfl, ?_⟩)
    rw [Std.TreeSet.singleton_eq_insert]
    exact Std.TreeSet.mem_insert_self
  · intro rule _ sets inside
    exact sets.within_add rule.2.1 _ _ _ inside

theorem closed_ofGrammar (valid : grammar.Valid) : Closed grammar (ofGrammar grammar) where
  first _ member _ inside := firstSets_closed valid member inside
  next _ member _ _ _ right _ inside solid :=
    followSets_closed valid (over_firstSets valid) member right (mem_following.mpr (.inl ⟨solid, inside⟩))
  last _ member _ _ _ right vanishing _ inside :=
    followSets_closed valid (over_firstSets valid) member right (mem_following.mpr (.inr ⟨vanishing, inside⟩))
  finish := endMark_mem_followSets grammar _

end Follow

end Lookahead

end Minuscule
