import Minuscule.Proofs.ProductionOrder

/-!
The loops that lead to First and Follow sets. A pass applies rule after rule to one family of sets, so that a rule sees
what the rules before it have added, and a loop makes another pass as long as some rule has changed the size of a set.
Nothing in the loop itself bounds the number of passes. It ends nevertheless, on left recursion and on rules that vanish
by way of each other as well: the sets only grow, they stay within the terminals and one mark, and a pass after which
the loop goes on has added a member. What the loop leaves is closed under every rule, since its last pass added nothing.
-/

namespace Minuscule

namespace SignSets
variable {T N R : Type} [Ord T] [Ord N] {grammar : Grammar T N} {mark : Sign T N}
  {step : R → SignSets T N → SignSets T N} {rules : List R}

/-- The families that a pass goes through, from the one that it is given to the one that it leaves. -/
def families (step : R → SignSets T N → SignSets T N) (rules : List R) (sets : SignSets T N) : List (SignSets T N) :=
  rules.scanl (fun sets rule => step rule sets) sets

theorem getLast?_families (sets : SignSets T N) :
    (families step rules sets).getLast? = some (passOver step rules sets) :=
  List.getLast?_scanl

theorem head?_families (sets : SignSets T N) : (families step rules sets).head? = some sets :=
  List.head?_scanl

/-- Passes in a row, each with the families that it goes through. Another pass follows if a rule has changed the number
of members, and only then. -/
inductive Loop (step : R → SignSets T N → SignSets T N) (rules : List R) :
    SignSets T N → List (List (SignSets T N)) → SignSets T N → Prop
  | last {sets : SignSets T N} (quiet : ∀ family ∈ families step rules sets, family.count = sets.count) :
      Loop step rules sets [families step rules sets] (passOver step rules sets)
  | next {sets : SignSets T N} {trace : List (List (SignSets T N))} {result : SignSets T N}
      (busy : ∃ family ∈ families step rules sets, family.count ≠ sets.count)
      (later : Loop step rules (passOver step rules sets) trace result) :
      Loop step rules sets (families step rules sets :: trace) result

theorem families_induction {P : SignSets T N → Prop} {sets : SignSets T N} (start : P sets)
    (preserved : ∀ rule ∈ rules, ∀ sets, P sets → P (step rule sets)) :
    ∀ family ∈ families step rules sets, P family := by
  induction rules generalizing sets with
  | nil => simpa [families] using start
  | cons rule rest ih =>
    obtain ⟨here, later⟩ := List.forall_mem_cons.mp preserved
    rw [families, List.scanl_cons, List.forall_mem_cons]
    exact ⟨start, ih (here sets start) later⟩

namespace Growing

theorem within_families (growing : Growing grammar mark step rules) (sets : SignSets T N) :
    ∀ family ∈ families step rules sets, sets.Within family :=
  families_induction (.refl sets) fun rule member _ within => within.trans (growing.inflates rule member _)

theorem families_within (growing : Growing grammar mark step rules) {sets : SignSets T N} :
    ∀ family ∈ families step rules sets, family.Within (passOver step rules sets) := by
  induction rules generalizing sets with
  | nil =>
    intro family member
    cases List.mem_singleton.mp member
    exact .refl sets
  | cons rule rest ih =>
    rw [families, List.scanl_cons, List.forall_mem_cons]
    exact ⟨growing.within_pass sets, ih growing.tail⟩

theorem pairwise_families (growing : Growing grammar mark step rules) (sets : SignSets T N) :
    (families step rules sets).Pairwise Within := by
  induction rules generalizing sets with
  | nil => exact List.pairwise_singleton _ _
  | cons rule rest ih =>
    rw [families, List.scanl_cons, List.pairwise_cons]
    refine ⟨?_, ih growing.tail (step rule sets)⟩
    intro family member
    exact (growing.inflates rule (List.mem_cons_self ..) sets).trans (growing.tail.within_families _ family member)

theorem over_families (growing : Growing grammar mark step rules) {sets : SignSets T N}
    (bounded : Over grammar mark sets) :
    ∀ family ∈ families step rules sets, Over grammar mark family :=
  families_induction bounded growing.keeps

theorem over_pass (growing : Growing grammar mark step rules) {sets : SignSets T N} (bounded : Over grammar mark sets) :
    Over grammar mark (passOver step rules sets) :=
  pass_induction bounded growing.keeps

variable [Std.TransOrd T] [Std.TransOrd N] [Std.LawfulEqOrd T] [Std.LawfulEqOrd N]

/-- No rule has changed the size of a set if the whole pass has kept the number of members. -/
theorem quiet_iff (growing : Growing grammar mark step rules) {sets : SignSets T N} (bounded : Over grammar mark sets) :
    (∀ family ∈ families step rules sets, family.count = sets.count) ↔
      (passOver step rules sets).count = sets.count := by
  constructor
  · intro quiet
    exact quiet _ (List.mem_of_getLast? (getLast?_families sets))
  · intro same family member
    have lower := bounded.count_mono (growing.over_families bounded family member)
      (growing.within_families sets family member)
    have upper := (growing.over_families bounded family member).count_mono (growing.over_pass bounded)
      (growing.families_within family member)
    omega

/-- The bounded loop is the unbounded one, if its bound exceeds the members that may still come. -/
theorem exists_loop (growing : Growing grammar mark step rules) {sets : SignSets T N} {rounds : Nat}
    (bounded : Over grammar mark sets)
    (enough : grammar.nonTerminals.size * (grammar.terminals.size + 1) < sets.count + rounds) :
    ∃ trace, Loop step rules sets trace (sets.settle (passOver step rules) rounds) ∧
      trace.length + sets.count ≤ grammar.nonTerminals.size * (grammar.terminals.size + 1) + 1 := by
  induction rounds generalizing sets with
  | zero =>
    have full := bounded.count_le
    omega
  | succ rounds ih =>
    have full := bounded.count_le
    have more := bounded.count_mono (growing.over_pass bounded) (growing.within_pass sets)
    rw [settle]
    by_cases same : (passOver step rules sets).count = sets.count
    · rw [if_pos same]
      refine ⟨_, .last ((growing.quiet_iff bounded).mpr same), ?_⟩
      rw [List.length_singleton]
      omega
    · rw [if_neg same]
      obtain ⟨trace, loop, short⟩ := ih (growing.over_pass bounded) (by omega)
      refine ⟨_, .next ?_ loop, ?_⟩
      · exact ⟨_, List.mem_of_getLast? (getLast?_families sets), same⟩
      · rw [List.length_cons]
        omega

end Growing

namespace Loop
variable {sets result : SignSets T N} {trace : List (List (SignSets T N))}

theorem bounded_trace (loop : Loop step rules sets trace result) (growing : Growing grammar mark step rules)
    (bounded : Over grammar mark sets) : ∀ pass ∈ trace, ∀ family ∈ pass, Over grammar mark family := by
  induction loop with
  | last _ => exact List.forall_mem_singleton.mpr (growing.over_families bounded)
  | next _ _ ih => exact List.forall_mem_cons.mpr ⟨growing.over_families bounded, ih (growing.over_pass bounded)⟩

theorem within_trace (loop : Loop step rules sets trace result) (growing : Growing grammar mark step rules) :
    ∀ family ∈ trace.flatten, sets.Within family := by
  induction loop with
  | last _ =>
    rw [List.flatten_singleton]
    exact growing.within_families _
  | @next sets _ _ _ _ ih =>
    rw [List.flatten_cons, List.forall_mem_append]
    exact ⟨growing.within_families sets, fun family member => (growing.within_pass sets).trans (ih family member)⟩

/-- From the first pass to the last one the sets never shrink. -/
theorem pairwise_trace (loop : Loop step rules sets trace result) (growing : Growing grammar mark step rules) :
    trace.flatten.Pairwise Within := by
  induction loop with
  | last _ =>
    rw [List.flatten_singleton]
    exact growing.pairwise_families _
  | @next sets _ _ _ later ih =>
    rw [List.flatten_cons, List.pairwise_append]
    refine ⟨growing.pairwise_families sets, ih, ?_⟩
    intro family member other behind
    exact (growing.families_within family member).trans (later.within_trace growing other behind)

theorem trace_ne_nil (loop : Loop step rules sets trace result) : trace ≠ [] := by
  cases loop <;> exact List.cons_ne_nil _ _

variable [Std.TransOrd T] [Std.TransOrd N] [Std.LawfulEqOrd T] [Std.LawfulEqOrd N]

/-- A pass after which the loop goes on has put a new member into some set. Otherwise the pass would have kept the
sizes of all sets, and the loop would have stopped. -/
theorem adds (loop : Loop step rules sets trace result) (growing : Growing grammar mark step rules)
    (bounded : Over grammar mark sets) : ∀ pass ∈ trace.dropLast, ∃ before ∈ pass.head?, ∃ after ∈ pass.getLast?,
      ∃ nonTerminal sign, sign ∈ after.of nonTerminal ∧ sign ∉ before.of nonTerminal := by
  induction loop with
  | last _ => simp
  | @next sets trace _ busy later ih =>
    rw [List.dropLast_cons_of_ne_nil later.trace_ne_nil, List.forall_mem_cons]
    refine ⟨⟨sets, head?_families sets, passOver step rules sets, getLast?_families sets, ?_⟩,
      ih (growing.over_pass bounded)⟩
    by_contra nothing
    have settled : (passOver step rules sets).Within sets := by
      intro nonTerminal sign inside
      by_contra outside
      exact nothing ⟨nonTerminal, sign, inside, outside⟩
    have less := (growing.over_pass bounded).count_mono bounded settled
    have more := bounded.count_mono (growing.over_pass bounded) (growing.within_pass sets)
    obtain ⟨family, member, changed⟩ := busy
    exact changed ((growing.quiet_iff bounded).mpr (Nat.le_antisymm less more) family member)

end Loop

variable [Std.TransOrd T] [Std.TransOrd N] [Std.LawfulEqOrd T] [Std.LawfulEqOrd N]

/-- A family that is closed under every rule passes through another pass unchanged. -/
theorem Growing.members_pass (growing : Growing grammar mark step rules) {sets : SignSets T N}
    (bounded : Over grammar mark sets) (closed : ∀ rule ∈ rules, (step rule sets).Within sets) :
    (passOver step rules sets).members = sets.members := by
  have settled : (passOver step rules sets).Within sets :=
    pass_induction (P := (·.Within sets)) (.refl sets) fun rule member _ within =>
      (growing.monotone rule member _ _ within).trans (closed rule member)
  exact bounded.members_congr (growing.over_pass bounded) (fun _ => .rfl) fun nonTerminal sign =>
    ⟨settled nonTerminal sign, growing.within_pass sets nonTerminal sign⟩

/-- What can be said of all passes of a loop: the sets hold terminals of the grammar and the mark only, they never
shrink, each pass but the last has added a member to some set, and there are no more passes than members and one. -/
structure Climbs (grammar : Grammar T N) (mark : Sign T N) (trace : List (List (SignSets T N))) : Prop where
  bounded : ∀ pass ∈ trace, ∀ family ∈ pass, ∀ nonTerminal, ∀ sign ∈ family.of nonTerminal,
    sign = mark ∨ ∃ kind ∈ grammar.terminals, sign = .terminal kind
  grows : trace.flatten.Pairwise Within
  adds : ∀ pass ∈ trace.dropLast, ∃ before ∈ pass.head?, ∃ after ∈ pass.getLast?,
    ∃ nonTerminal sign, sign ∈ after.of nonTerminal ∧ sign ∉ before.of nonTerminal
  short : trace.length ≤ grammar.nonTerminals.size * (grammar.terminals.size + 1) + 1

theorem Growing.exists_climb (growing : Growing grammar mark step rules) {sets : SignSets T N}
    (bounded : Over grammar mark sets) :
    ∃ trace, Loop step rules sets trace (sets.settle (passOver step rules) (Lookahead.rounds grammar)) ∧
      Climbs grammar mark trace := by
  have enough : grammar.nonTerminals.size * (grammar.terminals.size + 1) < sets.count + Lookahead.rounds grammar := by
    rw [Lookahead.rounds]
    omega
  obtain ⟨trace, loop, short⟩ := growing.exists_loop bounded enough
  refine ⟨trace, loop, ?_, loop.pairwise_trace growing, loop.adds growing bounded, by omega⟩
  exact fun pass member family inside => (loop.bounded_trace growing bounded pass member family inside).members

end SignSets

namespace Lookahead
variable {T N : Type} [Ord T] [Ord N] [Std.TransOrd T] [Std.TransOrd N] [Std.LawfulEqOrd T] [Std.LawfulEqOrd N]
  [DecidableEq N] {grammar : Grammar T N}

/-- The loops that compute First and Follow come to their end on every grammar, and what they leave is what the bounded
number of passes leaves. All families on the way hold nothing but terminals and the mark, they only grow, and every pass
but the last one adds a member. The sets in the end satisfy the rule of each production, so a further pass over the
productions leaves them as they are. The families of a pass are those between its steps: the last one is its result. -/
theorem lookahead_loops_settle {start : N} {productions : List (Production T N)}
    (accepted : Grammar.ofProductions start productions = .ok grammar) :
    (∃ trace, SignSets.Loop firstStep grammar.productions (SignSets.none grammar) trace (ofGrammar grammar).first ∧
      SignSets.Climbs grammar .epsilon trace) ∧
    (∃ trace, SignSets.Loop (followStep (ofGrammar grammar).first) (followRules grammar)
        ((SignSets.none grammar).add grammar.start {Sign.endMark}) trace (ofGrammar grammar).follow ∧
      SignSets.Climbs grammar .endMark trace) ∧
    (ofGrammar grammar).Closed grammar ∧
    (firstPass grammar (ofGrammar grammar).first).members = (ofGrammar grammar).first.members ∧
    (followPass grammar (ofGrammar grammar).first (ofGrammar grammar).follow).members =
      (ofGrammar grammar).follow.members ∧
    ∀ sets, (SignSets.families firstStep grammar.productions sets).getLast? = some (firstPass grammar sets) ∧
      (SignSets.families (followStep (ofGrammar grammar).first) (followRules grammar) sets).getLast? =
        some (followPass grammar (ofGrammar grammar).first sets) := by
  have valid := Grammar.valid_of_ofProductions accepted
  have growing := growing_first valid
  have growing' := growing_follow valid (over_firstSets valid)
  have bounded := over_firstSets valid
  have bounded' := over_followSets valid
  have closed := closed_ofGrammar valid
  refine ⟨growing.exists_climb (SignSets.over_none grammar .epsilon), ?_, closed, ?_, ?_, ?_⟩
  · have climbs := growing'.exists_climb (over_followStart valid)
    rw [← followSets_eq] at climbs
    exact climbs
  · apply growing.members_pass bounded
    intro production member nonTerminal sign inside
    rcases SignSets.mem_of_add.mp inside with old | ⟨rfl, new⟩
    · exact old
    · exact closed.first production member sign new
  · rw [followPass_eq]
    apply growing'.members_pass bounded'
    intro rule member nonTerminal sign inside
    obtain ⟨production, present, left, front, right⟩ := mem_followRules.mp member
    rcases SignSets.mem_of_add.mp inside with old | ⟨rfl, new⟩
    · exact old
    · rw [left] at new
      exact closed.following present right new
  · intro sets
    refine ⟨SignSets.getLast?_families sets, ?_⟩
    rw [followPass_eq]
    exact SignSets.getLast?_families sets

theorem knotted_loops_settle :
    Grammar.ofProductions 0 knotted.productions = .ok knotted ∧
      (∃ trace, SignSets.Loop firstStep knotted.productions (SignSets.none knotted) trace (ofGrammar knotted).first ∧
        SignSets.Climbs knotted .epsilon trace) ∧
      (ofGrammar knotted).first.count = 4 ∧
      (followPass knotted (ofGrammar knotted).first (ofGrammar knotted).follow).members =
        (ofGrammar knotted).follow.members := by
  have accepted : Grammar.ofProductions 0 knotted.productions = .ok knotted := by decide
  obtain ⟨first, _, _, _, again, _⟩ := lookahead_loops_settle accepted
  exact ⟨accepted, first, by decide +kernel, again⟩

end Lookahead

end Minuscule
