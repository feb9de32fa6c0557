import Minuscule.Proofs.FirstSets
import Minuscule.Proofs.Lists

/-!
Follow sets say what may stand behind a non-terminal. In a sentential form, all that can come to stand behind a
non-terminal is covered by its Follow set: what the rest of the form starts with and, if the rest may vanish, what
follows the sign that the form was derived from. A rewriting step keeps this, since the sets are closed under every
production. Conversely a member was put there by a place in a right-hand side, and this place can be reached by a
derivation.
-/

namespace Minuscule

namespace Grammar
variable {T N : Type} {grammar : Grammar T N}

/-- A sentential form of some non-terminal has the sign right behind `kind`. The end mark stands behind whatever
ends a sentential form of the start symbol. -/
def Trails (grammar : Grammar T N) (kind : N) : Sign T N → Prop
  | .terminal next => ∃ origin ∈ lefts grammar.productions, ∃ front back,
      grammar.Derives [.nonTerminal origin] (front ++ .nonTerminal kind :: .terminal next :: back)
  | .endMark => ∃ front, grammar.Derives [.nonTerminal grammar.start] (front ++ [.nonTerminal kind])
  | _ => False

/-- A production is applied inside a sentential form, and what stands behind one of its signs vanishes. -/
theorem Derives.descend {origin front back : List (Sign T N)} {production : Production T N}
    (derived : grammar.Derives origin (front ++ .nonTerminal production.left :: back))
    (member : production ∈ grammar.productions) {before rest : List (Sign T N)} {sign : Sign T N}
    (right : production.right = before ++ sign :: rest) (vanishes : grammar.Derives rest []) :
    grammar.Derives origin ((front ++ before) ++ sign :: back) := by
  have below : grammar.Derives [.nonTerminal production.left] (before ++ [sign]) := by
    have upper := derives_right member
    rw [right, List.append_cons] at upper
    have lower := vanishes.inside (before ++ [sign]) []
    simp only [List.append_nil] at lower
    exact upper.trans lower
  have place := below.inside front back
  simp only [List.append_assoc, List.cons_append, List.nil_append] at place ⊢
  exact derived.trans place

theorem Trails.descend {production : Production T N} (member : production ∈ grammar.productions)
    {before rest : List (Sign T N)} {kind : N} (right : production.right = before ++ .nonTerminal kind :: rest)
    (vanishes : grammar.Derives rest []) {sign : Sign T N} (trails : grammar.Trails production.left sign) :
    grammar.Trails kind sign := by
  cases sign with
  | terminal next =>
    obtain ⟨origin, known, front, back, derived⟩ := trails
    exact ⟨origin, known, front ++ before, back, derived.descend member right vanishes⟩
  | endMark =>
    obtain ⟨front, derived⟩ := trails
    exact ⟨front ++ before, derived.descend member right vanishes⟩
  | nonTerminal _ => exact trails.elim
  | epsilon => exact trails.elim

theorem trails_of_starts {production : Production T N} (member : production ∈ grammar.productions)
    {before rest behind : List (Sign T N)} {kind : N} {next : T}
    (right : production.right = before ++ .nonTerminal kind :: rest)
    (starts : grammar.Derives rest (.terminal next :: behind)) : grammar.Trails kind (.terminal next) := by
  have upper := derives_right member
  have lower := starts.inside (before ++ [.nonTerminal kind]) []
  rw [right] at upper
  simp only [List.append_nil, List.append_assoc, List.singleton_append] at lower
  exact ⟨production.left, List.mem_map.mpr ⟨production, member, rfl⟩, before, behind, upper.trans lower⟩

end Grammar

namespace Lookahead
variable {T N : Type} [Ord T] [Ord N] [Std.TransOrd T] [Std.TransOrd N] [Std.LawfulEqOrd T]
  [Std.LawfulEqOrd N] {grammar : Grammar T N}

theorem mem_following_append {first : SignSets T N} {front back : List (Sign T N)} {outside : SignSet T N}
    {sign : Sign T N} :
    sign ∈ following first (front ++ back) outside ↔
      sign ∈ following first front (following first back outside) := by
  simp only [mem_following, mem_firstOfAll_append]
  grind

theorem following_mono {first : SignSets T N} {rest : List (Sign T N)} {small large : SignSet T N}
    (within : ∀ sign ∈ small, sign ∈ large) {sign : Sign T N} (inside : sign ∈ following first rest small) :
    sign ∈ following first rest large :=
  mem_following.mpr ((mem_following.mp inside).imp id (And.imp id (within sign)))

/-- The Follow sets cover what may come to stand behind the non-terminals of a sentential form. -/
def Covers (sets : Lookahead T N) (origin : N) (form : List (Sign T N)) : Prop :=
  ∀ front kind back, form = front ++ .nonTerminal kind :: back →
    ∀ sign ∈ following sets.first back (sets.follow.of origin), sign ∈ sets.follow.of kind

theorem covers_origin (sets : Lookahead T N) (origin : N) : Covers sets origin [.nonTerminal origin] := by
  intro front kind back alone sign inside
  obtain ⟨rfl, rfl, rfl⟩ : front = [] ∧ origin = kind ∧ back = [] := by
    cases front <;> simp_all
  simpa [mem_following, mem_firstOfAll_nil] using inside

theorem Closed.following {sets : Lookahead T N} (closed : sets.Closed grammar) {production : Production T N}
    (member : production ∈ grammar.productions) {front back : List (Sign T N)} {kind : N}
    (right : production.right = front ++ .nonTerminal kind :: back) {sign : Sign T N}
    (inside : sign ∈ Lookahead.following sets.first back (sets.follow.of production.left)) :
    sign ∈ sets.follow.of kind := by
  rcases mem_following.mp inside with ⟨solid, next⟩ | ⟨vanishing, outside⟩
  · exact closed.next production member front kind back right sign next solid
  · exact closed.last production member front kind back right vanishing sign outside

/-- A place of the new form lies in front of the expanded sign, in the right-hand side, or behind. -/
theorem Covers.rewrites {sets : Lookahead T N} (closed : sets.Closed grammar) {origin : N}
    {before after : List (Sign T N)} (covers : Covers sets origin before) (step : grammar.Rewrites before after) :
    Covers sets origin after := by
  obtain ⟨outer, production, behind, member, rfl, rfl⟩ := step
  intro front kind back split sign inside
  rcases place_cases split with ⟨rest, place, rfl⟩ | ⟨early, rest, place, rfl⟩ | ⟨between, place⟩
  · apply covers front kind (rest ++ .nonTerminal production.left :: behind) (by simp [place]) sign
    have expands : ∀ sign ∈ firstOfAll sets.first production.right,
        sign ∈ firstOfAll sets.first [.nonTerminal production.left] := by
      intro sign first
      rw [mem_firstOfAll_singleton]
      exact closed.first production member sign first
    have covered : ∀ sign ∈ firstOfAll sets.first (rest ++ production.right ++ behind),
        sign ∈ firstOfAll sets.first (rest ++ .nonTerminal production.left :: behind) := by
      intro sign first
      simpa using firstOfAll_inside expands rest behind first
    rw [mem_following] at inside ⊢
    exact inside.imp (And.imp id (covered sign)) (And.imp (covered _) id)
  · apply closed.following member place
    apply following_mono (covers outer production.left behind rfl)
    exact mem_following_append.mp inside
  · exact covers (outer ++ .nonTerminal production.left :: between) kind back (by simp [place]) sign inside

theorem covers_of_derives {sets : Lookahead T N} (closed : sets.Closed grammar) {origin : N}
    {form : List (Sign T N)} (derived : grammar.Derives [.nonTerminal origin] form) : Covers sets origin form := by
  induction derived with
  | refl => exact covers_origin sets origin
  | tail _ step ih => exact ih.rewrites closed step

theorem mem_follow_of_trails {sets : Lookahead T N} (closed : sets.Closed grammar) {kind : N} {sign : Sign T N}
    (trails : grammar.Trails kind sign) : sign ∈ sets.follow.of kind := by
  cases sign with
  | terminal next =>
    obtain ⟨origin, _, front, back, derived⟩ := trails
    apply covers_of_derives closed derived front kind _ rfl
    rw [mem_following, mem_firstOfAll_cons, mem_firstOf_terminal]
    simp
  | endMark =>
    obtain ⟨front, derived⟩ := trails
    apply covers_of_derives closed derived front kind _ rfl
    rw [mem_following, mem_firstOfAll_nil]
    exact .inr ⟨rfl, closed.finish⟩
  | nonTerminal _ => exact trails.elim
  | epsilon => exact trails.elim

/-- Each place of a non-terminal in a right-hand side adds what can stand behind it. -/
theorem trails_followStep (valid : grammar.Valid) {rule : N × N × List (Sign T N)}
    (present : rule ∈ followRules grammar) {sets : SignSets T N}
    (justified : ∀ kind, ∀ sign ∈ sets.of kind, grammar.Trails kind sign) :
    ∀ kind, ∀ sign ∈ (followStep (firstSets grammar) rule sets).of kind, grammar.Trails kind sign := by
  intro kind sign inside
  rcases SignSets.mem_of_add.mp inside with old | ⟨rfl, new⟩
  · exact justified kind sign old
  · obtain ⟨production, member, left, front, right⟩ := mem_followRules.mp present
    have solid : ∀ other ∈ rule.2.2, other ≠ .epsilon ∧ other ≠ .endMark := fun other behind =>
      valid.proper member (by simp [right, behind])
    rcases mem_following.mp new with ⟨proper, next⟩ | ⟨vanishing, outside⟩
    · obtain ⟨terminal, rfl⟩ :=
        (mem_firstOfAll_cases valid (fun other behind => (solid other behind).2) next).resolve_left proper
      obtain ⟨behind, starts⟩ :=
        (terminal_mem_iff_derives valid fun other behind => (solid other behind).1).mp next
      exact Grammar.trails_of_starts member right starts
    · have vanishes := (epsilon_mem_iff_derives valid fun other behind => (solid other behind).1).mp vanishing
      rw [left] at outside
      exact .descend member right vanishes (justified production.left sign outside)

theorem trails_of_mem_follow (valid : grammar.Valid) {kind : N} {sign : Sign T N}
    (inside : sign ∈ (followSets grammar (firstSets grammar)).of kind) : grammar.Trails kind sign := by
  revert kind sign
  rw [followSets_eq]
  apply SignSets.settle_induction (P := fun sets => ∀ {kind sign}, sign ∈ sets.of kind → grammar.Trails kind sign)
  · intro kind sign inside
    rcases SignSets.mem_of_add.mp inside with none | ⟨rfl, mark⟩
    · exact (SignSets.not_mem_of_none grammar kind sign none).elim
    · replace mark : sign ∈ firstOf (SignSets.none grammar) .endMark := mark
      cases (mem_firstOf_fixed rfl).mp mark
      exact ⟨[], .refl⟩
  · intro rule present sets justified kind sign inside
    exact trails_followStep valid present (fun _ _ => justified) kind sign inside

theorem mem_follow_iff_trails (valid : grammar.Valid) {kind : N} {sign : Sign T N} :
    sign ∈ (ofGrammar grammar).follow.of kind ↔ grammar.Trails kind sign :=
  ⟨trails_of_mem_follow valid, mem_follow_of_trails (closed_ofGrammar valid)⟩

end Lookahead

namespace Grammar
variable {T N : Type} {grammar : Grammar T N}

/-- Every non-terminal stands in some sentential form of the start symbol. -/
def Connected (grammar : Grammar T N) : Prop :=
  ∀ kind ∈ lefts grammar.productions, ∃ front back,
    grammar.Derives [.nonTerminal grammar.start] (front ++ .nonTerminal kind :: back)

theorem Connected.trails_iff (connected : grammar.Connected) (start : grammar.start ∈ lefts grammar.productions)
    {kind : N} {next : T} :
    grammar.Trails kind (.terminal next) ↔ ∃ front back, grammar.Derives [.nonTerminal grammar.start]
      (front ++ .nonTerminal kind :: .terminal next :: back) := by
  constructor
  · rintro ⟨origin, known, front, back, derived⟩
    obtain ⟨outer, behind, reached⟩ := connected origin known
    have place := derived.inside outer behind
    refine ⟨outer ++ front, back ++ behind, ?_⟩
    simp only [List.append_assoc, List.cons_append, List.nil_append] at reached place ⊢
    exact reached.trans place
  · rintro ⟨front, back, derived⟩
    exact ⟨grammar.start, start, front, back, derived⟩

end Grammar

namespace Lookahead
variable {T N : Type} [Ord T] [Ord N] [Std.TransOrd T] [Std.TransOrd N] [Std.LawfulEqOrd T]
  [Std.LawfulEqOrd N] [DecidableEq N] {grammar : Grammar T N}

/-- The Follow set of a non-terminal holds the terminals that stand right behind it in a sentential form of some
non-terminal, the end mark exactly when it ends a sentential form of the start symbol, and no other sign. If all
non-terminals can be reached from the start symbol, the sentential forms of the start symbol are enough. -/
theorem follow_sets_exact {start : N} {productions : List (Production T N)}
    (accepted : Grammar.ofProductions start productions = .ok grammar) (kind : N) :
    (∀ next, .terminal next ∈ (ofGrammar grammar).follow.of kind ↔ ∃ origin ∈ grammar.nonTerminals, ∃ front back,
      grammar.Derives [.nonTerminal origin] (front ++ .nonTerminal kind :: .terminal next :: back)) ∧
    (.endMark ∈ (ofGrammar grammar).follow.of kind ↔
      ∃ front, grammar.Derives [.nonTerminal grammar.start] (front ++ [.nonTerminal kind])) ∧
    (∀ sign ∈ (ofGrammar grammar).follow.of kind, sign = .endMark ∨ ∃ next, sign = .terminal next) ∧
    (grammar.Connected → ∀ next, .terminal next ∈ (ofGrammar grammar).follow.of kind ↔
      ∃ front back, grammar.Derives [.nonTerminal grammar.start]
        (front ++ .nonTerminal kind :: .terminal next :: back)) := by
  have valid := Grammar.valid_of_ofProductions accepted
  refine ⟨?_, mem_follow_iff_trails valid, ?_, ?_⟩
  · intro next
    rw [mem_follow_iff_trails valid]
    simp only [Grammar.Trails, mem_nonTerminals]
  · intro sign inside
    have trails := (mem_follow_iff_trails valid).mp inside
    cases sign with
    | terminal next => exact .inr ⟨next, rfl⟩
    | endMark => exact .inl rfl
    | nonTerminal _ => exact trails.elim
    | epsilon => exact trails.elim
  · intro connected next
    rw [mem_follow_iff_trails valid, connected.trails_iff valid.start]

/-- Signs that vanish behind each other, and a non-terminal that the start symbol does not reach. -/
def loose : Grammar Nat Nat :=
  ⟨0, [⟨0, [.nonTerminal 1, .nonTerminal 2]⟩, ⟨1, [.terminal 7, .nonTerminal 0]⟩, ⟨1, []⟩, ⟨2, [.nonTerminal 1]⟩,
    ⟨3, [.nonTerminal 0, .terminal 9]⟩]⟩

/-- Right recursion, with every non-terminal within reach. -/
def chained : Grammar Nat Nat :=
  ⟨0, [⟨0, [.nonTerminal 1, .terminal 7, .nonTerminal 0]⟩, ⟨0, []⟩, ⟨1, [.terminal 8]⟩]⟩

theorem chained_connected : chained.Connected := by
  intro kind known
  obtain rfl | rfl : kind = 0 ∨ kind = 1 := by simpa [Grammar.lefts, chained] using known
  · exact ⟨[], [], .refl⟩
  · have expanded : chained.Derives [.nonTerminal 0] [.nonTerminal 1, .terminal 7, .nonTerminal 0] :=
      .single ⟨[], ⟨0, [.nonTerminal 1, .terminal 7, .nonTerminal 0]⟩, [], by decide, rfl, rfl⟩
    exact ⟨[], [.terminal 7, .nonTerminal 0], expanded⟩

theorem loose_and_chained_follow :
    Grammar.ofProductions 0 loose.productions = .ok loose ∧
      (∃ origin ∈ loose.nonTerminals, ∃ front back,
        loose.Derives [.nonTerminal origin] (front ++ .nonTerminal 2 :: .terminal 9 :: back)) ∧
      (∃ front, loose.Derives [.nonTerminal 0] (front ++ [.nonTerminal 1])) ∧
      (¬ ∃ front, loose.Derives [.nonTerminal 0] (front ++ [.nonTerminal 3])) ∧
      Grammar.ofProductions 0 chained.productions = .ok chained ∧ chained.Connected ∧
      ¬ ∃ front back, chained.Derives [.nonTerminal 0] (front ++ .nonTerminal 0 :: .terminal 7 :: back) := by
  have accepted : Grammar.ofProductions 0 loose.productions = .ok loose := by decide
  have accepted' : Grammar.ofProductions 0 chained.productions = .ok chained := by decide
  obtain ⟨next, _⟩ := follow_sets_exact accepted 2
  obtain ⟨_, last, _⟩ := follow_sets_exact accepted 1
  obtain ⟨_, apart, _⟩ := follow_sets_exact accepted 3
  obtain ⟨_, _, _, reached⟩ := follow_sets_exact accepted' 0
  refine ⟨accepted, (next 9).mp ?_, last.mp ?_, mt apart.mpr ?_, accepted', chained_connected,
    mt (reached chained_connected 7).mpr ?_⟩
  · decide +kernel
  · decide +kernel
  · decide +kernel
  · decide +kernel

end Lookahead

end Minuscule
