import Minuscule.Proofs.Meaning

/-!
The code of an expression leaves its value in its place. It writes nothing but temporaries that were not in use, so
the places of earlier operands hold until the operators of a chain are applied to them.
-/

namespace Minuscule

open Machine

/-- An instruction that leaves a result in a temporary from this number on, or belongs to a call. -/
def Scratch (next : Nat) : Instruction → Prop
  | .binary target .. | .load target .. | .result target => ∃ number, next ≤ number ∧ target = temporary number
  | .param _ | .call .. => True
  | _ => False

theorem Scratch.straight {next : Nat} {instruction : Instruction} (scratch : Scratch next instruction) :
    Straight instruction := by
  cases instruction
  case ret | goto | ifGoto => exact scratch
  all_goals trivial

section Effects
variable {operations : Operations}

theorem effects_cons (instruction : Instruction) (rest : List Instruction) (store : Store) :
    effects operations (instruction :: rest) store =
      (effect operations store instruction).bind (effects operations rest) :=
  rfl

theorem effects_append (front back : List Instruction) (store : Store) :
    effects operations (front ++ back) store = (effects operations front store).bind (effects operations back) :=
  List.foldlM_append

theorem Scratch.keeps {next : Nat} {instruction : Instruction} (scratch : Scratch next instruction)
    {store after : Store} (done : effect operations store instruction = some after) : store.Keeps next after := by
  cases instruction
  case binary target left operator right =>
    obtain ⟨number, high, rfl⟩ := scratch
    obtain ⟨value, _, rfl⟩ := Option.map_eq_some_iff.mp done
    exact .temporary high store value
  case load target array index =>
    obtain ⟨number, high, rfl⟩ := scratch
    rw [← Option.some.inj done]
    exact .temporary high store _
  case assign | store | label => exact scratch.elim
  all_goals cases done

theorem keeps_of_effects {next : Nat} {part : List Instruction}
    (scratch : ∀ instruction ∈ part, Scratch next instruction) {store after : Store}
    (done : effects operations part store = some after) : store.Keeps next after := by
  induction part generalizing store with
  | nil =>
    cases done
    exact .refl next _
  | cons instruction part ih =>
    obtain ⟨first, others⟩ := List.forall_mem_cons.mp scratch
    obtain ⟨middle, changed, done⟩ := Option.bind_eq_some_iff.mp done
    exact (first.keeps changed).trans (ih others done)

/-- No effect goes past a call. -/
theorem effects_call (function : String) (args : List String) (target : String) (store : Store) :
    effects operations (Layout.call function args target) store = none := by
  cases args <;> rfl

end Effects

/-! What is written. -/

theorem scratch_chain {low next : Nat} (le : low ≤ next) (place : String) (operands : List (Operator × String)) :
    ∀ instruction ∈ Layout.chain next place operands, Scratch low instruction := by
  induction operands generalizing next place with
  | nil => simp [Layout.chain]
  | cons operand operands ih =>
    obtain ⟨operator, right⟩ := operand
    rw [Layout.chain, List.forall_mem_cons]
    exact ⟨⟨next, le, rfl⟩, ih (Nat.le_succ_of_le le) (temporary next)⟩

theorem scratch_call {low next : Nat} (le : low ≤ next) (function : String) (args : List String) :
    ∀ instruction ∈ Layout.call function args (temporary next), Scratch low instruction := by
  intro instruction member
  rcases List.mem_append.mp member with param | other
  · obtain ⟨place, _, rfl⟩ := List.mem_map.mp param
    trivial
  · rcases List.mem_cons.mp other with rfl | last
    · trivial
    · rw [List.mem_singleton.mp last]
      exact ⟨next, le, rfl⟩

mutual

theorem Expression.scratch_code {low next : Nat} (le : low ≤ next) :
    ∀ expression : Expression, ∀ instruction ∈ expression.code next, Scratch low instruction
  | .number _ => by simp [Expression.code]
  | .scalar _ => by simp [Expression.code]
  | .element use index => by
    rw [Expression.code, List.forall_mem_append, List.forall_mem_singleton]
    exact ⟨Expression.scratch_code le index, _, le.trans (Nat.le_add_right ..), rfl⟩
  | .call callee arguments => by
    rw [Expression.code, List.forall_mem_append]
    exact ⟨Arguments.scratch_code le arguments, scratch_call (le.trans (Nat.le_add_right ..)) _ _⟩
  | .chain head links => by
    rw [Expression.code, List.forall_mem_append, List.forall_mem_append]
    have later : low ≤ next + head.temporaries := le.trans (Nat.le_add_right ..)
    exact ⟨⟨Expression.scratch_code le head, Links.scratch_code later links⟩,
      scratch_chain (later.trans (Nat.le_add_right ..)) _ _⟩

theorem Links.scratch_code {low next : Nat} (le : low ≤ next) :
    ∀ links : Links, ∀ instruction ∈ links.code next, Scratch low instruction
  | .nil => by simp [Links.code]
  | .cons _ operand rest => by
    rw [Links.code, List.forall_mem_append]
    exact ⟨Expression.scratch_code le operand, Links.scratch_code (le.trans (Nat.le_add_right ..)) rest⟩

theorem Arguments.scratch_code {low next : Nat} (le : low ≤ next) :
    ∀ arguments : Arguments, ∀ instruction ∈ arguments.code next, Scratch low instruction
  | .nil => by simp [Arguments.code]
  | .cons first rest => by
    rw [Arguments.code, List.forall_mem_append]
    exact ⟨Expression.scratch_code le first, Arguments.scratch_code (le.trans (Nat.le_add_right ..)) rest⟩

end

/-! Where values are. -/

theorem settled_chainPlace {next : Nat} {place : String} (settled : Settled next place)
    (operands : List (Operator × String)) :
    Settled (next + operands.length) (Layout.chainPlace next place operands) := by
  induction operands generalizing next place with
  | nil => exact settled
  | cons operand operands ih =>
    have rest := ih (settled_temporary (Nat.lt_succ_self next))
    exact rest.mono (by simp only [List.length_cons]; omega)

mutual

theorem Expression.settled_place {words : Vocabulary} (settles : words.Settles) {next : Nat} :
    ∀ {expression : Expression}, expression.Spelled words →
      Settled (next + expression.temporaries) (expression.place next)
  | .number _, spelled => (settles _ (.inr spelled)).mono (Nat.zero_le _)
  | .scalar _, spelled => (settles _ (.inl spelled)).mono (Nat.zero_le _)
  | .element _ _, _ => settled_temporary (Nat.lt_succ_self _)
  | .call _ _, _ => settled_temporary (Nat.lt_succ_self _)
  | .chain head links, spelled => by
    have first : Settled (next + head.temporaries) (head.place next) :=
      Expression.settled_place settles spelled.1
    have whole := settled_chainPlace (first.mono (Nat.le_add_right _ links.temporaries))
      (links.operands (next + head.temporaries))
    rw [Links.length_operands] at whole
    exact whole.mono (by rw [Expression.temporaries]; omega)

theorem Links.settled_operands {words : Vocabulary} (settles : words.Settles) {next : Nat} :
    ∀ {links : Links}, links.Spelled words →
      ∀ operand ∈ links.operands next, Settled (next + links.temporaries) operand.2
  | .nil, _ => by simp [Links.operands]
  | .cons operator operand rest, spelled => by
    rw [Links.operands, List.forall_mem_cons]
    constructor
    · exact (Expression.settled_place settles spelled.1).mono (by rw [Links.temporaries]; omega)
    · intro later member
      exact (Links.settled_operands settles spelled.2 later member).mono (by rw [Links.temporaries]; omega)

end

/-! Which values. -/

/-- The operators of a chain, on what the places of their right operands hold. -/
def fold? (operations : Operations) (store : Store) (operands : List (Operator × String)) (left : Int) : Option Int :=
  operands.foldlM (fun left operand => operations operand.1 left (store.read operand.2)) left

theorem fold?_cons (operations : Operations) (store : Store) (operator : Operator) (place : String)
    (operands : List (Operator × String)) (left : Int) :
    fold? operations store ((operator, place) :: operands) left =
      (operations operator left (store.read place)).bind (fold? operations store operands) :=
  rfl

theorem fold?_congr {operations : Operations} {next : Nat} {before after : Store} (keeps : before.Keeps next after)
    {operands : List (Operator × String)} (settled : ∀ operand ∈ operands, Settled next operand.2) (left : Int) :
    fold? operations after operands left = fold? operations before operands left := by
  induction operands generalizing left with
  | nil => rfl
  | cons operand operands ih =>
    obtain ⟨operator, place⟩ := operand
    obtain ⟨first, others⟩ := List.forall_mem_cons.mp settled
    rw [fold?_cons, fold?_cons, keeps.read first, funext (ih others)]

theorem fold?_eq {operations : Operations} {next : Nat} {place : String} {operands : List (Operator × String)}
    (settled : ∀ operand ∈ operands, Settled next operand.2) (store : Store) :
    fold? operations store operands (store.read place) =
      (effects operations (Layout.chain next place operands) store).map
        (·.read (Layout.chainPlace next place operands)) := by
  induction operands generalizing next place store with
  | nil => rfl
  | cons operand operands ih =>
    obtain ⟨operator, right⟩ := operand
    obtain ⟨first, others⟩ := List.forall_mem_cons.mp settled
    rw [fold?_cons, Layout.chain, effects_cons, Layout.chainPlace, effect]
    rcases operations operator (store.read place) (store.read right) with _ | value
    · rfl
    · have later := @ih (next + 1) (temporary next)
        (fun operand member => (others operand member).mono (Nat.le_succ next)) (store.assign (temporary next) value)
      rw [Store.read_temporary, fold?_congr (.temporary (Nat.le_refl next) store value) others] at later
      exact later

mutual

/-- The value of an expression is what its place holds when its code has been run, and its code gets stuck if it has
none. -/
theorem Expression.value?_eq {operations : Operations} {next : Nat} :
    ∀ {expression : Expression}, expression.Spelled .hygienic → ∀ store : Store,
      expression.value? operations store =
        (effects operations (expression.code next) store).map (·.read (expression.place next))
  | .number _, spelled, store => congrArg some (Store.read_numeral spelled store).symm
  | .scalar _, spelled, store => congrArg some (Store.read_name spelled.1 store).symm
  | .element use index, spelled, store => by
    rw [Expression.value?, Expression.value?_eq spelled.2 store, Expression.code, effects_append, Expression.place]
    rcases done : effects operations (index.code next) store with _ | after
    · rfl
    · have keeps := keeps_of_effects (Expression.scratch_code (Nat.le_refl next) index) done
      change some _ = some (Store.read (after.assign _ _) _)
      rw [Store.read_temporary, keeps.arrays]
  | .call callee arguments, _, store => by
    rw [Expression.value?, Expression.code, effects_append, funext (effects_call callee.name _ _), Option.bind_fun_none]
    rfl
  | .chain head links, spelled, store => by
    rw [Expression.value?, Expression.value?_eq spelled.1 store, Expression.code, List.append_assoc, effects_append]
    rcases begun : effects operations (head.code next) store with _ | middle
    · rfl
    · have early := keeps_of_effects (Expression.scratch_code (Nat.le_refl next) head) begun
      change links.value? operations store (middle.read (head.place next)) = (effects operations (_ ++ _) middle).map _
      rw [← Links.value?_congr (early.mono (Nat.zero_le next)) spelled.2, Links.value?_eq spelled.2 middle,
        effects_append]
      rcases done : effects operations (links.code (next + head.temporaries)) middle with _ | after
      · rfl
      · have late := keeps_of_effects (Links.scratch_code (Nat.le_refl _) links) done
        change fold? operations after _ _ = (effects operations _ after).map _
        rw [← late.read (Expression.settled_place Vocabulary.settles_hygienic spelled.1),
          fold?_eq (Links.settled_operands Vocabulary.settles_hygienic spelled.2)]
        rfl

theorem Links.value?_eq {operations : Operations} {next : Nat} :
    ∀ {links : Links}, links.Spelled .hygienic → ∀ (store : Store) (left : Int),
      links.value? operations store left =
        (effects operations (links.code next) store).bind (fold? operations · (links.operands next) left)
  | .nil, _, _, _ => rfl
  | .cons operator operand rest, spelled, store, left => by
    rw [Links.value?, Expression.value?_eq spelled.1 store, Links.code, effects_append, Links.operands]
    rcases begun : effects operations (operand.code next) store with _ | middle
    · rfl
    · have early := keeps_of_effects (Expression.scratch_code (Nat.le_refl next) operand) begun
      have others : ∀ value, rest.value? operations store value =
          (effects operations (rest.code (next + operand.temporaries)) middle).bind
            (fold? operations · (rest.operands (next + operand.temporaries)) value) := by
        intro value
        rw [← Links.value?_congr (early.mono (Nat.zero_le next)) spelled.2, Links.value?_eq spelled.2 middle]
      change (operations operator left (middle.read (operand.place next))).bind _ =
        (effects operations (rest.code (next + operand.temporaries)) middle).bind _
      rw [funext others, Option.bind_comm]
      rcases done : effects operations (rest.code (next + operand.temporaries)) middle with _ | after
      · rfl
      · have late := keeps_of_effects (Links.scratch_code (Nat.le_refl _) rest) done
        change Option.bind _ _ = fold? operations after _ left
        rw [fold?_cons, late.read (Expression.settled_place Vocabulary.settles_hygienic spelled.1)]
        rfl

end

end Minuscule
