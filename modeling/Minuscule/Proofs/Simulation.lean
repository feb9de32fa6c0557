import Minuscule.Proofs.Calculation
import Minuscule.Proofs.WellFormed

/-!
The code of a function body does what the body means, and nothing else: a run of the body is followed by the machine,
and a run of the machine that stops is a run of the body. The machine stands at the code of a statement with other
code behind it; a statement that passes leaves it at the code behind, and one that returns leaves it at a return.
-/

namespace Minuscule

open Machine

section Expressions
variable {operations : Operations} {code rest : List Instruction} {expression : Expression} {store start : Store}

theorem Expression.reaches (spelled : expression.Spelled .hygienic) (agrees : store.Agrees start) {value : Int}
    (valued : expression.value? operations start = some value) (next : Nat) (rest : List Instruction) :
    ∃ after, Reaches operations code ⟨expression.code next ++ rest, store⟩ ⟨rest, after⟩ ∧
      store.Keeps next after ∧ after.Agrees start ∧ after.read (expression.place next) = value := by
  rw [← Expression.value?_congr agrees spelled, Expression.value?_eq spelled] at valued
  obtain ⟨after, done, found⟩ := Option.map_eq_some_iff.mp valued
  have scratch := Expression.scratch_code (Nat.le_refl next) expression
  have keeps := keeps_of_effects scratch done
  exact ⟨after, .of_effects (fun instruction member => (scratch instruction member).straight) rest done, keeps,
    agrees.trans (keeps.mono (Nat.zero_le next)), found⟩

/-- A run that stops gets past an expression, which has a value then. -/
theorem Expression.value_of_halts (spelled : expression.Spelled .hygienic) (agrees : store.Agrees start)
    {next total : Nat} {outcome : Outcome} {state : State}
    (halted : Halts operations code total ⟨expression.code next ++ rest, store⟩ outcome state) :
    ∃ value after left, expression.value? operations start = some value ∧ after.Agrees start ∧
      after.read (expression.place next) = value ∧ left ≤ total ∧
        Halts operations code left ⟨rest, after⟩ outcome state := by
  have scratch := Expression.scratch_code (Nat.le_refl next) expression
  obtain ⟨after, done⟩ := halted.effects fun instruction member => (scratch instruction member).straight
  have valued : expression.value? operations start = some (after.read (expression.place next)) := by
    rw [← Expression.value?_congr agrees spelled, Expression.value?_eq spelled, done]
    rfl
  obtain ⟨after, reached, _, agrees, found⟩ := @Expression.reaches _ code _ _ _ spelled agrees _ valued next rest
  obtain ⟨left, le, halted⟩ := halted.later reached
  exact ⟨_, after, left, valued, agrees, found, le, halted⟩

end Expressions

/-! The ways through a selection and a loop. -/

section Ways
variable {operations : Operations} {code : List Instruction}

/-- From the fork one way leads to the consequent and the other to the alternative, and both lead on. -/
structure Fork (operations : Operations) (code : List Instruction) (condition : String)
    (fork consequent joined alternative other rest : List Instruction) : Prop where
  consequentPlaced : consequent ++ joined <:+ code
  alternativePlaced : alternative ++ other <:+ code
  toConsequent : ∀ store, store.read condition ≠ 0 →
    Reaches operations code ⟨fork, store⟩ ⟨consequent ++ joined, store⟩
  toAlternative : ∀ store, store.read condition = 0 →
    Reaches operations code ⟨fork, store⟩ ⟨alternative ++ other, store⟩
  fromConsequent : ∀ store, Reaches operations code ⟨joined, store⟩ ⟨rest, store⟩
  fromAlternative : ∀ store, Reaches operations code ⟨other, store⟩ ⟨rest, store⟩

theorem fork_of_selection (unambiguous : Unambiguous code) {test consequent alternative rest : List Instruction}
    {condition consequentLabel alternativeLabel joinLabel : String}
    (placed : Layout.selection test condition consequent alternative consequentLabel alternativeLabel joinLabel ++ rest
      <:+ code) :
    ∃ fork joined other,
      Layout.selection test condition consequent alternative consequentLabel alternativeLabel joinLabel ++ rest =
        test ++ fork ∧
      Fork operations code condition fork consequent joined alternative other rest := by
  let joined := .goto joinLabel :: .label joinLabel :: rest
  let other := .goto joinLabel :: .label consequentLabel :: (consequent ++ joined)
  let fork := .ifGoto condition consequentLabel :: .label alternativeLabel :: (alternative ++ other)
  have whole :
      Layout.selection test condition consequent alternative consequentLabel alternativeLabel joinLabel ++ rest =
        test ++ fork := by
    simp [Layout.selection, fork, other, joined]
  rw [whole] at placed
  have forkPlaced : fork <:+ code := (List.suffix_append test fork).trans placed
  have alternativePlaced : alternative ++ other <:+ code :=
    ((List.suffix_cons _ _).trans (List.suffix_cons _ _)).trans forkPlaced
  have otherPlaced : .label consequentLabel :: (consequent ++ joined) <:+ code :=
    ((List.suffix_cons _ _).trans (List.suffix_append alternative other)).trans alternativePlaced
  have consequentPlaced : consequent ++ joined <:+ code := (List.suffix_cons _ _).trans otherPlaced
  have joinPlaced : .label joinLabel :: rest <:+ code :=
    ((List.suffix_cons _ _).trans (List.suffix_append consequent joined)).trans consequentPlaced
  have joins (skipped : List Instruction) (store : Store) :
      Reaches operations code ⟨.goto joinLabel :: skipped, store⟩ ⟨rest, store⟩ :=
    (Reaches.goto unambiguous joinPlaced skipped store).trans (.label ..)
  refine ⟨fork, joined, other, whole, consequentPlaced, alternativePlaced, ?_, ?_, joins _, joins _⟩
  · intro store holds
    exact (Reaches.branch unambiguous otherPlaced _ holds).trans (.label ..)
  · intro store fails
    exact (Reaches.fall _ _ _ fails).trans (.label ..)

/-- The fork leads into the body, which leads back to the test, or out of the loop. -/
structure Cycle (operations : Operations) (code : List Instruction) (condition : String)
    (entry fork body back rest : List Instruction) : Prop where
  bodyPlaced : body ++ back <:+ code
  toBody : ∀ store, store.read condition ≠ 0 → Reaches operations code ⟨fork, store⟩ ⟨body ++ back, store⟩
  toRest : ∀ store, store.read condition = 0 → Reaches operations code ⟨fork, store⟩ ⟨rest, store⟩
  toEntry : ∀ store, Reaches operations code ⟨back, store⟩ ⟨entry, store⟩

theorem cycle_of_iteration (unambiguous : Unambiguous code) {test body rest : List Instruction}
    {condition testLabel bodyLabel endLabel : String}
    (placed : Layout.iteration test condition body testLabel bodyLabel endLabel ++ rest <:+ code) :
    ∃ fork back,
      Layout.iteration test condition body testLabel bodyLabel endLabel ++ rest = .label testLabel :: (test ++ fork) ∧
      Cycle operations code condition (.label testLabel :: (test ++ fork)) fork body back rest := by
  let back := .goto testLabel :: .label endLabel :: rest
  let fork := .ifGoto condition bodyLabel :: .goto endLabel :: .label bodyLabel :: (body ++ back)
  have whole : Layout.iteration test condition body testLabel bodyLabel endLabel ++ rest =
      .label testLabel :: (test ++ fork) := by
    simp [Layout.iteration, fork, back]
  rw [whole] at placed
  have bodyLabelPlaced : .label bodyLabel :: (body ++ back) <:+ code :=
    (((List.suffix_cons _ _).trans (List.suffix_cons _ _)).trans
      ((List.suffix_append test fork).trans (List.suffix_cons _ _))).trans placed
  have bodyPlaced : body ++ back <:+ code := (List.suffix_cons _ _).trans bodyLabelPlaced
  have endPlaced : .label endLabel :: rest <:+ code :=
    ((List.suffix_cons _ _).trans (List.suffix_append body back)).trans bodyPlaced
  refine ⟨fork, back, whole, bodyPlaced, ?_, ?_, ?_⟩
  · intro store holds
    exact (Reaches.branch unambiguous bodyLabelPlaced _ holds).trans (.label ..)
  · intro store fails
    exact (Reaches.fall _ _ _ fails).trans ((Reaches.goto unambiguous endPlaced _ store).trans (.label ..))
  · intro store
    exact .goto unambiguous placed _ store

end Ways

/-! Statements. -/

/-- The machine has come to the code behind a statement, or to a return. -/
def Machine.State.Arrives (state : State) (rest : List Instruction) : Outcome → Prop
  | .passed => state.rest = rest
  | .returned value => state.outcome? = some (.returned value)

/-- From the start the machine follows a statement to its outcome, with other code behind the statement. -/
def Machine.Follows (operations : Operations) (code : List Instruction) (start : State) (rest : List Instruction)
    (outcome : Outcome) (final : Store) : Prop :=
  ∃ state, Reaches operations code start state ∧ state.Arrives rest outcome ∧ state.store.Agrees final

namespace Machine.Follows
variable {operations : Operations} {code rest rest' : List Instruction} {start state : State} {outcome : Outcome}
  {final : Store}

theorem after (first : Reaches operations code start state)
    (follows : Follows operations code state rest outcome final) :
    Follows operations code start rest outcome final := by
  obtain ⟨stop, reached, arrived, agrees⟩ := follows
  exact ⟨stop, first.trans reached, arrived, agrees⟩

theorem onward (way : ∀ store, Reaches operations code ⟨rest, store⟩ ⟨rest', store⟩)
    (follows : Follows operations code start rest outcome final) :
    Follows operations code start rest' outcome final := by
  obtain ⟨⟨stop, store⟩, reached, arrived, agrees⟩ := follows
  cases outcome with
  | passed =>
    cases arrived
    exact ⟨⟨rest', store⟩, reached.trans (way store), rfl, agrees⟩
  | returned value => exact ⟨⟨stop, store⟩, reached, arrived, agrees⟩

theorem passed (follows : Follows operations code start rest .passed final) :
    ∃ store, Reaches operations code start ⟨rest, store⟩ ∧ store.Agrees final := by
  obtain ⟨⟨_, store⟩, reached, rfl, agrees⟩ := follows
  exact ⟨store, reached, agrees⟩

end Machine.Follows

namespace Statement

section Run
variable {operations : Operations} {code : List Instruction}

/-- The machine follows every run of a statement. -/
theorem Runs.follows (unambiguous : Unambiguous code) {statement : Statement} {start final : Store} {outcome : Outcome}
    (runs : statement.Runs operations start outcome final) :
    ∀ (names : Names) (rest : List Instruction) (store : Store), statement.Spelled .hygienic →
      statement.code names ++ rest <:+ code → store.Agrees start →
        Follows operations code ⟨statement.code names ++ rest, store⟩ rest outcome final := by
  induction runs with
  | skip =>
    intro names rest store _ _ agrees
    exact ⟨⟨rest, store⟩, .refl _, rfl, agrees⟩
  | seq _ _ ihFirst ihRest =>
    intro names rest store spelled placed agrees
    rw [Statement.code, List.append_assoc] at placed ⊢
    obtain ⟨middle, reached, agrees⟩ := (ihFirst _ _ _ spelled.1 placed agrees).passed
    exact .after reached (ihRest _ _ _ spelled.2 ((List.suffix_append _ _).trans placed) agrees)
  | seqReturned _ ih =>
    intro names rest store spelled placed agrees
    rw [Statement.code, List.append_assoc] at placed ⊢
    exact ih _ _ _ spelled.1 placed agrees
  | @assign target value _ result valued =>
    intro names rest store spelled _ agrees
    rw [Statement.code, List.append_assoc]
    obtain ⟨after, reached, _, kept, rfl⟩ :=
      Expression.reaches spelled.2 agrees valued names.temporaries ([.assign target.name _] ++ rest)
    exact ⟨⟨rest, _⟩, reached.trans (.of_step rfl), rfl, kept.assign _ _⟩
  | @store target index value start position result indexed valued =>
    intro names rest store spelled _ agrees
    rw [Statement.code, List.append_assoc, List.append_assoc]
    obtain ⟨middle, first, _, keptFirst, rfl⟩ := Expression.reaches spelled.2.1 agrees indexed names.temporaries
      (value.code (names.temporaries + index.temporaries) ++ ([.store target.name _ _] ++ rest))
    obtain ⟨after, second, keeps, kept, rfl⟩ := Expression.reaches spelled.2.2 keptFirst valued
      (names.temporaries + index.temporaries) ([.store target.name _ _] ++ rest)
    refine ⟨⟨rest, _⟩, (first.trans second).trans (.of_step rfl), rfl, ?_⟩
    rw [← keeps.read (Expression.settled_place Vocabulary.settles_hygienic spelled.2.1)]
    exact kept.write _ _ _
  | consequent tested holds _ ih =>
    intro names rest store spelled placed agrees
    obtain ⟨fork, joined, other, whole, ways⟩ := fork_of_selection unambiguous placed
    obtain ⟨middle, reached, _, kept, rfl⟩ := Expression.reaches spelled.1 agrees tested names.temporaries fork
    rw [Statement.code, whole]
    exact .after (reached.trans (ways.toConsequent middle holds))
      (.onward ways.fromConsequent (ih _ _ _ spelled.2.1 ways.consequentPlaced kept))
  | alternative tested _ ih =>
    intro names rest store spelled placed agrees
    obtain ⟨fork, joined, other, whole, ways⟩ := fork_of_selection unambiguous placed
    obtain ⟨middle, reached, _, kept, fails⟩ := Expression.reaches spelled.1 agrees tested names.temporaries fork
    rw [Statement.code, whole]
    exact .after (reached.trans (ways.toAlternative middle fails))
      (.onward ways.fromAlternative (ih _ _ _ spelled.2.2 ways.alternativePlaced kept))
  | loopEnd tested =>
    intro names rest store spelled placed agrees
    obtain ⟨fork, back, whole, ways⟩ := cycle_of_iteration unambiguous placed
    obtain ⟨middle, reached, _, kept, fails⟩ := Expression.reaches spelled.1 agrees tested names.temporaries fork
    rw [Statement.code, whole]
    exact ⟨⟨rest, middle⟩, (Reaches.label ..).trans (reached.trans (ways.toRest middle fails)), rfl, kept⟩
  | loopRound tested holds _ _ ihBody ihLoop =>
    intro names rest store spelled placed agrees
    obtain ⟨fork, back, whole, ways⟩ := cycle_of_iteration unambiguous placed
    obtain ⟨middle, reached, _, kept, rfl⟩ := Expression.reaches spelled.1 agrees tested names.temporaries fork
    obtain ⟨after, round, agrees⟩ := (ihBody _ _ _ spelled.2 ways.bodyPlaced kept).passed
    have again := ihLoop names rest after spelled placed agrees
    rw [Statement.code, whole] at again ⊢
    have once := (reached.trans (ways.toBody middle holds)).trans (round.trans (ways.toEntry after))
    exact .after ((Reaches.label ..).trans once) again
  | loopReturned tested holds _ ih =>
    intro names rest store spelled placed agrees
    obtain ⟨fork, back, whole, ways⟩ := cycle_of_iteration unambiguous placed
    obtain ⟨middle, reached, _, kept, rfl⟩ := Expression.reaches spelled.1 agrees tested names.temporaries fork
    obtain ⟨stop, returned, arrived, agrees⟩ := ih _ _ _ spelled.2 ways.bodyPlaced kept
    rw [Statement.code, whole]
    have once := (reached.trans (ways.toBody middle holds)).trans returned
    exact ⟨stop, (Reaches.label ..).trans once, arrived, agrees⟩
  | retVoid =>
    intro names rest store _ _ agrees
    exact ⟨_, .refl _, rfl, agrees⟩
  | @ret value _ result valued =>
    intro names rest store spelled _ agrees
    rw [Statement.code, List.append_assoc]
    obtain ⟨after, reached, _, kept, rfl⟩ :=
      Expression.reaches spelled agrees valued names.temporaries ([.ret (some _)] ++ rest)
    exact ⟨_, reached, rfl, kept⟩

/-- A run that stops gets past a statement that passes. -/
theorem Runs.halts (unambiguous : Unambiguous code) {statement : Statement} {start middle store : Store} {names : Names}
    {rest : List Instruction} {total : Nat} {outcome : Outcome} {state : State}
    (runs : statement.Runs operations start .passed middle) (spelled : statement.Spelled .hygienic)
    (placed : statement.code names ++ rest <:+ code) (agrees : store.Agrees start)
    (halted : Halts operations code total ⟨statement.code names ++ rest, store⟩ outcome state) :
    ∃ after left, after.Agrees middle ∧ left ≤ total ∧ Halts operations code left ⟨rest, after⟩ outcome state := by
  obtain ⟨after, reached, agrees⟩ := (runs.follows unambiguous names rest store spelled placed agrees).passed
  obtain ⟨left, le, halted⟩ := halted.later reached
  exact ⟨after, left, agrees, le, halted⟩

/-- A loop through which the machine stops has a run, by the number of steps: each round takes at least one. -/
theorem loop_of_halts (unambiguous : Unambiguous code) {test : Expression} {body : Statement} {names : Names}
    {rest : List Instruction} (spelled : (Statement.loop test body).Spelled .hygienic)
    (placed : (Statement.loop test body).code names ++ rest <:+ code) {outcome : Outcome} {state : State}
    (inside : ∀ {names : Names} {rest : List Instruction} {store start : Store} {total : Nat},
      body.code names ++ rest <:+ code → store.Agrees start →
        Halts operations code total ⟨body.code names ++ rest, store⟩ outcome state →
          ∃ result final, body.Runs operations start result final)
    (total : Nat) {store start : Store} (agrees : store.Agrees start)
    (halted : Halts operations code total ⟨(Statement.loop test body).code names ++ rest, store⟩ outcome state) :
    ∃ result final, (Statement.loop test body).Runs operations start result final := by
  induction total using Nat.strong_induction_on generalizing store start with
  | h total ih =>
    obtain ⟨fork, back, whole, ways⟩ := cycle_of_iteration unambiguous placed
    rw [Statement.code, whole] at halted
    obtain ⟨left, total_eq, halted⟩ := halted.label
    obtain ⟨condition, middle, tested, valued, agrees, found, le, halted⟩ :=
      Expression.value_of_halts spelled.1 agrees halted
    by_cases fails : condition = 0
    · subst fails
      exact ⟨_, _, .loopEnd valued⟩
    · obtain ⟨early, soon, halted⟩ := halted.later (ways.toBody middle (found.symm ▸ fails))
      obtain ⟨result, final, runs⟩ := inside ways.bodyPlaced agrees halted
      cases result with
      | returned value => exact ⟨_, _, .loopReturned valued fails runs⟩
      | passed =>
        obtain ⟨after, late, agrees, sooner, halted⟩ := runs.halts unambiguous spelled.2 ways.bodyPlaced agrees halted
        obtain ⟨last, soonest, halted⟩ := halted.later (ways.toEntry after)
        rw [← whole] at halted
        obtain ⟨result, final, again⟩ := ih last (by omega) agrees halted
        exact ⟨_, _, .loopRound valued fails runs again⟩

/-- A statement through which the machine stops has a run. -/
theorem runs_of_halts (unambiguous : Unambiguous code) {outcome : Outcome} {state : State} (statement : Statement)
    {names : Names} {rest : List Instruction} {store start : Store} {total : Nat}
    (spelled : statement.Spelled .hygienic) (placed : statement.code names ++ rest <:+ code)
    (agrees : store.Agrees start)
    (halted : Halts operations code total ⟨statement.code names ++ rest, store⟩ outcome state) :
    ∃ result final, statement.Runs operations start result final := by
  induction statement generalizing names rest store start total with
  | skip => exact ⟨_, _, .skip⟩
  | seq first second ihFirst ihSecond =>
    rw [Statement.code, List.append_assoc] at placed halted
    obtain ⟨result, middle, runs⟩ := ihFirst spelled.1 placed agrees halted
    cases result with
    | returned value => exact ⟨_, _, .seqReturned runs⟩
    | passed =>
      obtain ⟨after, left, agrees, _, halted⟩ := runs.halts unambiguous spelled.1 placed agrees halted
      obtain ⟨result, final, onward⟩ := ihSecond spelled.2 ((List.suffix_append _ _).trans placed) agrees halted
      exact ⟨_, _, .seq runs onward⟩
  | assign target value =>
    rw [Statement.code, List.append_assoc] at halted
    obtain ⟨_, _, _, valued, _⟩ := Expression.value_of_halts spelled.2 agrees halted
    exact ⟨_, _, .assign valued⟩
  | store target index value =>
    rw [Statement.code, List.append_assoc, List.append_assoc] at halted
    obtain ⟨_, _, _, indexed, agrees', _, _, halted⟩ := Expression.value_of_halts spelled.2.1 agrees halted
    obtain ⟨_, _, _, valued, _⟩ := Expression.value_of_halts spelled.2.2 agrees' halted
    exact ⟨_, _, .store indexed valued⟩
  | call callee arguments =>
    have straight : ∀ instruction ∈ (Statement.call callee arguments).code names, Straight instruction := by
      intro instruction member
      rcases List.mem_append.mp member with early | late
      · exact (Arguments.scratch_code (Nat.le_refl _) arguments instruction early).straight
      · exact (scratch_call (Nat.le_refl _) _ _ instruction late).straight
    obtain ⟨after, done⟩ := halted.effects straight
    rw [Statement.code, effects_append, funext (effects_call callee.name _ _), Option.bind_fun_none] at done
    cases done
  | select test consequent alternative ihConsequent ihAlternative =>
    obtain ⟨fork, joined, other, whole, ways⟩ := fork_of_selection unambiguous placed
    rw [Statement.code, whole] at halted
    obtain ⟨condition, middle, left, valued, agrees, found, _, halted⟩ :=
      Expression.value_of_halts spelled.1 agrees halted
    by_cases fails : condition = 0
    · subst fails
      obtain ⟨_, _, halted⟩ := halted.later (ways.toAlternative middle found)
      obtain ⟨result, final, runs⟩ := ihAlternative spelled.2.2 ways.alternativePlaced agrees halted
      exact ⟨_, _, .alternative valued runs⟩
    · obtain ⟨_, _, halted⟩ := halted.later (ways.toConsequent middle (found.symm ▸ fails))
      obtain ⟨result, final, runs⟩ := ihConsequent spelled.2.1 ways.consequentPlaced agrees halted
      exact ⟨_, _, .consequent valued fails runs⟩
  | loop test body ih => exact loop_of_halts unambiguous spelled placed (ih spelled.2) total agrees halted
  | ret value =>
    cases value with
    | none => exact ⟨_, _, .retVoid⟩
    | some value =>
      rw [Statement.code, List.append_assoc] at halted
      obtain ⟨_, _, _, valued, _⟩ := Expression.value_of_halts spelled agrees halted
      exact ⟨_, _, .ret valued⟩

end Run

end Statement

end Minuscule
