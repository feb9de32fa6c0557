import Mathlib.Data.List.Infix
import Mathlib.Data.List.Nodup
import Minuscule.Instruction
import Minuscule.Numeral

/-!
A machine for three-address code. Its state is a store and the instructions that are left; a jump goes back to the
whole code and goes on at a label there. Operators mean whatever partial functions they are given. Calls belong to
no single segment of code, and the machine gets stuck on them.
-/

namespace Minuscule

abbrev Operations := Operator → Int → Int → Option Int

/-- What the scalar variables and the arrays hold. -/
structure Store where
  scalars : String → Int
  arrays : String → Int → Int

namespace Store

/-- What a place stands for: a numeral for its value, any other text for a variable. -/
def read (store : Store) (place : String) : Int :=
  ((Numeral.digits? place.toList).map Int.ofNat).getD (store.scalars place)

def assign (store : Store) (name : String) (value : Int) : Store :=
  { store with scalars := Function.update store.scalars name value }

def write (store : Store) (array : String) (index value : Int) : Store :=
  { store with arrays := Function.update store.arrays array (Function.update (store.arrays array) index value) }

end Store

/-- How a piece of program ends: by going on behind it, or by returning. -/
inductive Outcome where
  | passed
  | returned (value : Option Int)
  deriving DecidableEq, Repr

namespace Machine

/-- The code from a label on. -/
def target? (name : String) : List Instruction → Option (List Instruction)
  | [] => none
  | instruction :: rest => if instruction = .label name then some (instruction :: rest) else target? name rest

/-- What an instruction makes of the store if it neither jumps nor returns. -/
def effect (operations : Operations) (store : Store) : Instruction → Option Store
  | .assign target source => some (store.assign target (store.read source))
  | .binary target left operator right =>
    (operations operator (store.read left) (store.read right)).map (store.assign target)
  | .store array index value => some (store.write array (store.read index) (store.read value))
  | .load target array index => some (store.assign target (store.arrays array (store.read index)))
  | .label _ => some store
  | .param _ | .call .. | .result _ | .ret _ | .goto _ | .ifGoto .. => none

structure State where
  rest : List Instruction
  store : Store

def State.outcome? (state : State) : Option Outcome :=
  match state.rest with
  | [] => some .passed
  | .ret value :: _ => some (.returned (value.map state.store.read))
  | _ => none

section Run
variable (operations : Operations) (code : List Instruction)

def step (state : State) : Option State :=
  match state.rest with
  | [] => none
  | .goto name :: _ => (target? name code).map (⟨·, state.store⟩)
  | .ifGoto condition name :: rest =>
    if state.store.read condition ≠ 0 then (target? name code).map (⟨·, state.store⟩) else some ⟨rest, state.store⟩
  | instruction :: rest => (effect operations state.store instruction).map (⟨rest, ·⟩)

def steps : Nat → State → Option State
  | 0, state => some state
  | count + 1, state => (step operations code state).bind (steps count)

def Reaches (start state : State) : Prop :=
  ∃ count, steps operations code count start = some state

/-- After so many steps the machine stops, and does not get stuck. -/
def Halts (count : Nat) (start : State) (outcome : Outcome) (state : State) : Prop :=
  steps operations code count start = some state ∧ state.outcome? = some outcome

/-- The code ends in this way with this store when it is run from its first instruction. -/
def Runs (start : Store) (outcome : Outcome) (final : Store) : Prop :=
  ∃ count rest, Halts operations code count ⟨code, start⟩ outcome ⟨rest, final⟩

/-- One after the other, without a jump. -/
def effects (store : Store) : Option Store :=
  code.foldlM (effect operations) store

end Run

section Steps
variable {operations : Operations} {code : List Instruction} {start middle state : State}

theorem step_of_outcome {outcome : Outcome} (ended : state.outcome? = some outcome) :
    step operations code state = none := by
  obtain ⟨rest, store⟩ := state
  rcases rest with _ | ⟨instruction, rest⟩
  · rfl
  · cases instruction
    case ret => rfl
    all_goals exact absurd ended (by simp [State.outcome?])

theorem steps_add (first second : Nat) (begun : steps operations code first start = some middle) :
    steps operations code (first + second) start = steps operations code second middle := by
  induction first generalizing start with
  | zero =>
    cases begun
    rw [Nat.zero_add]
  | succ first ih =>
    obtain ⟨next, stepped, begun⟩ := Option.bind_eq_some_iff.mp begun
    rw [Nat.succ_add, steps, stepped]
    exact ih begun

theorem Reaches.refl (state : State) : Reaches operations code state state :=
  ⟨0, rfl⟩

theorem Reaches.trans (first : Reaches operations code start middle) (second : Reaches operations code middle state) :
    Reaches operations code start state := by
  obtain ⟨early, begun⟩ := first
  obtain ⟨late, ended⟩ := second
  exact ⟨early + late, by rw [steps_add early late begun, ended]⟩

theorem Reaches.of_step (stepped : step operations code start = some state) : Reaches operations code start state :=
  ⟨1, by rw [steps, stepped]; rfl⟩

/-- A run that stops goes through every state that is reached, so what is left of it stops from there. -/
theorem Halts.resume {outcome : Outcome} {total count : Nat} (halted : Halts operations code total start outcome state)
    (reached : steps operations code count start = some middle) :
    ∃ left, total = count + left ∧ Halts operations code left middle outcome state := by
  induction count generalizing start total with
  | zero =>
    cases reached
    exact ⟨total, (Nat.zero_add total).symm, halted⟩
  | succ count ih =>
    obtain ⟨next, stepped, reached⟩ := Option.bind_eq_some_iff.mp reached
    cases total with
    | zero =>
      obtain ⟨same, ended⟩ := halted
      cases same
      rw [step_of_outcome ended] at stepped
      cases stepped
    | succ total =>
      have later : Halts operations code total next outcome state := by
        obtain ⟨taken, ended⟩ := halted
        rw [steps, stepped] at taken
        exact ⟨taken, ended⟩
      obtain ⟨left, total_eq, halted⟩ := ih later reached
      exact ⟨left, by omega, halted⟩

theorem Halts.later {outcome : Outcome} {total : Nat} (halted : Halts operations code total start outcome state)
    (reached : Reaches operations code start middle) :
    ∃ left, left ≤ total ∧ Halts operations code left middle outcome state := by
  obtain ⟨count, reached⟩ := reached
  obtain ⟨left, total_eq, halted⟩ := halted.resume reached
  exact ⟨left, by omega, halted⟩

/-- Where a run stops, and how, does not depend on the way it is cut into steps. -/
theorem Halts.unique {outcome outcome' : Outcome} {state' : State} {total : Nat}
    (halted : Halts operations code total start outcome state) (reached : Reaches operations code start state')
    (ended : state'.outcome? = some outcome') : outcome' = outcome ∧ state' = state := by
  obtain ⟨count, reached⟩ := reached
  obtain ⟨left, _, ⟨taken, stopped⟩⟩ := halted.resume reached
  cases left with
  | zero =>
    cases taken
    rw [ended] at stopped
    exact ⟨Option.some.inj stopped, rfl⟩
  | succ left =>
    rw [steps, step_of_outcome ended] at taken
    cases taken

end Steps

/-! Code without a jump. -/

/-- An instruction that neither jumps nor returns. -/
def Straight : Instruction → Prop
  | .ret _ | .goto _ | .ifGoto .. => False
  | _ => True

section Straight
variable {operations : Operations} {code : List Instruction}

theorem step_of_straight {instruction : Instruction} (straight : Straight instruction) (rest : List Instruction)
    (store : Store) :
    step operations code ⟨instruction :: rest, store⟩ = (effect operations store instruction).map (⟨rest, ·⟩) := by
  cases instruction
  case ret | goto | ifGoto => exact straight.elim
  all_goals rfl

theorem outcome?_of_straight {instruction : Instruction} (straight : Straight instruction) (rest : List Instruction)
    (store : Store) : State.outcome? ⟨instruction :: rest, store⟩ = none := by
  cases instruction
  case ret | goto | ifGoto => exact straight.elim
  all_goals rfl

theorem Reaches.of_effects {part : List Instruction} (straight : ∀ instruction ∈ part, Straight instruction)
    (rest : List Instruction) {store after : Store} (done : effects operations part store = some after) :
    Reaches operations code ⟨part ++ rest, store⟩ ⟨rest, after⟩ := by
  induction part generalizing store with
  | nil =>
    cases done
    exact .refl _
  | cons instruction part ih =>
    obtain ⟨first, others⟩ := List.forall_mem_cons.mp straight
    obtain ⟨next, changed, done⟩ := Option.bind_eq_some_iff.mp done
    have stepped : step operations code ⟨instruction :: (part ++ rest), store⟩ = some ⟨part ++ rest, next⟩ := by
      rw [step_of_straight first, changed]
      rfl
    exact (Reaches.of_step stepped).trans (ih others done)

/-- Straight code that does not get stuck has an effect. -/
theorem Halts.effects {part : List Instruction} (straight : ∀ instruction ∈ part, Straight instruction)
    {rest : List Instruction} {store : Store} {count : Nat} {outcome : Outcome} {state : State}
    (halted : Halts operations code count ⟨part ++ rest, store⟩ outcome state) :
    ∃ after, effects operations part store = some after := by
  induction part generalizing store count with
  | nil => exact ⟨store, rfl⟩
  | cons instruction part ih =>
    obtain ⟨first, others⟩ := List.forall_mem_cons.mp straight
    obtain ⟨taken, ended⟩ := halted
    cases count with
    | zero =>
      cases taken
      rw [List.cons_append, outcome?_of_straight first] at ended
      cases ended
    | succ count =>
      obtain ⟨next, stepped, taken⟩ := Option.bind_eq_some_iff.mp taken
      rw [List.cons_append, step_of_straight first] at stepped
      obtain ⟨changed, effective, rfl⟩ := Option.map_eq_some_iff.mp stepped
      obtain ⟨after, done⟩ := ih others ⟨taken, ended⟩
      exact ⟨after, Option.bind_eq_some_iff.mpr ⟨changed, effective, done⟩⟩

end Straight

/-! Jumps. -/

/-- No label stands twice. -/
def Unambiguous (code : List Instruction) : Prop :=
  (code.filter Instruction.isLabel).Nodup

theorem target?_append {name : String} {front : List Instruction} (fresh : .label name ∉ front)
    (rest : List Instruction) : target? name (front ++ .label name :: rest) = some (.label name :: rest) := by
  induction front with
  | nil => exact if_pos rfl
  | cons instruction front ih =>
    obtain ⟨other, fresh⟩ := not_or.mp (List.mem_cons.not.mp fresh)
    rw [List.cons_append, target?, if_neg (Ne.symm other), ih fresh]

theorem Unambiguous.target? {code : List Instruction} (unambiguous : Unambiguous code) {name : String}
    {rest : List Instruction} (placed : .label name :: rest <:+ code) :
    target? name code = some (.label name :: rest) := by
  obtain ⟨front, rfl⟩ := placed
  apply target?_append
  intro earlier
  rw [Unambiguous, List.filter_append, List.filter_cons_of_pos rfl, List.nodup_middle] at unambiguous
  apply (List.nodup_cons.mp unambiguous).1
  exact List.mem_append_left _ (List.mem_filter.mpr ⟨earlier, rfl⟩)

section Jump
variable {operations : Operations} {code : List Instruction}

theorem step_goto (name : String) (skipped : List Instruction) (store : Store) :
    step operations code ⟨.goto name :: skipped, store⟩ = (target? name code).map (⟨·, store⟩) :=
  rfl

theorem step_ifGoto (condition name : String) (rest : List Instruction) (store : Store) :
    step operations code ⟨.ifGoto condition name :: rest, store⟩ =
      if store.read condition ≠ 0 then (target? name code).map (⟨·, store⟩) else some ⟨rest, store⟩ :=
  rfl

theorem Reaches.label (name : String) (rest : List Instruction) (store : Store) :
    Reaches operations code ⟨.label name :: rest, store⟩ ⟨rest, store⟩ :=
  .of_step rfl

theorem Halts.label {name : String} {rest : List Instruction} {store : Store} {total : Nat} {outcome : Outcome}
    {state : State} (halted : Halts operations code total ⟨.label name :: rest, store⟩ outcome state) :
    ∃ left, total = left + 1 ∧ Halts operations code left ⟨rest, store⟩ outcome state := by
  have entered : steps operations code 1 ⟨.label name :: rest, store⟩ = some ⟨rest, store⟩ := rfl
  obtain ⟨left, total_eq, halted⟩ := halted.resume entered
  exact ⟨left, by omega, halted⟩

theorem Reaches.goto (unambiguous : Unambiguous code) {name : String} {rest : List Instruction}
    (placed : .label name :: rest <:+ code) (skipped : List Instruction) (store : Store) :
    Reaches operations code ⟨.goto name :: skipped, store⟩ ⟨.label name :: rest, store⟩ := by
  apply Reaches.of_step
  rw [step_goto, unambiguous.target? placed]
  rfl

theorem Reaches.branch (unambiguous : Unambiguous code) {name : String} {rest : List Instruction}
    (placed : .label name :: rest <:+ code) (skipped : List Instruction) {condition : String} {store : Store}
    (holds : store.read condition ≠ 0) :
    Reaches operations code ⟨.ifGoto condition name :: skipped, store⟩ ⟨.label name :: rest, store⟩ := by
  apply Reaches.of_step
  rw [step_ifGoto, if_pos holds, unambiguous.target? placed]
  rfl

theorem Reaches.fall (condition name : String) (rest : List Instruction) {store : Store}
    (fails : store.read condition = 0) :
    Reaches operations code ⟨.ifGoto condition name :: rest, store⟩ ⟨rest, store⟩ :=
  .of_step (if_neg (not_not.mpr fails))

end Jump

end Machine

end Minuscule
