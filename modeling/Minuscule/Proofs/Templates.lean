import Minuscule.Proofs.Definitions
import Minuscule.Proofs.Spelling

/-!
Code as a function of the names that have been handed out in front of it. What the source has written stands in the
code of a phrase at every place, whatever it looks like. The names that are made up are counted from the first numbers
that are left, temporaries and block labels each on their own. Instruction by instruction nothing else depends on the
place, so the code of a phrase is a template with blanks for two numbers.
-/

namespace Minuscule

namespace Template

/-- The number lies at a fixed distance from the first one left. -/
def Counted (first number : Names → Nat) : Prop :=
  ∃ offset, ∀ names, number names = first names + offset

/-- A text at all places: one that is written and stays, or a name that is made up and counts along. -/
inductive Text (written : String → Prop) (name : Nat → String) (first : Names → Nat) : (Names → String) → Prop
  | written {text : String} (own : written text) : Text written name first fun _ => text
  | made {number : Names → Nat} (counted : Counted first number) :
    Text written name first fun names => name (number names)

/-- A made-up name is another one at some other place, so that a template tells what is made up. -/
theorem made_ne_written {name : Nat → String} (injective : ∀ {number other}, name number = name other → number = other)
    {first number : Names → Nat} (moves : first ⟨0, 0⟩ ≠ first ⟨1, 1⟩) (counted : Counted first number)
    (text : String) : (fun names => name (number names)) ≠ fun _ => text := by
  intro same
  obtain ⟨offset, counts⟩ := counted
  have equal := injective ((congrFun same ⟨0, 0⟩).trans (congrFun same ⟨1, 1⟩).symm)
  rw [counts, counts] at equal
  exact moves (Nat.add_right_cancel equal)

/-- Operands and destinations. -/
abbrev Place (written : String → Prop) : (Names → String) → Prop :=
  Text written temporary Names.temporaries

/-- Labels, and the targets of jumps. -/
abbrev Mark (written : String → Prop) : (Names → String) → Prop :=
  Text written blockLabel Names.labels

inductive Line (written : String → Prop) : (Names → Instruction) → Prop
  | assign {target source : Names → String} (writes : Place written target) (reads : Place written source) :
    Line written fun names => .assign (target names) (source names)
  | binary {target left right : Names → String} (operator : Operator) (writes : Place written target)
    (first : Place written left) (second : Place written right) :
    Line written fun names => .binary (target names) (left names) operator (right names)
  | store {array index value : Names → String} (base : Place written array) (element : Place written index)
    (reads : Place written value) : Line written fun names => .store (array names) (index names) (value names)
  | load {target array index : Names → String} (writes : Place written target) (base : Place written array)
    (element : Place written index) : Line written fun names => .load (target names) (array names) (index names)
  | param {value : Names → String} (reads : Place written value) : Line written fun names => .param (value names)
  | call {function : String} (own : written function) (count : Nat) : Line written fun _ => .call function count
  | result {target : Names → String} (writes : Place written target) :
    Line written fun names => .result (target names)
  | retVoid : Line written fun _ => .ret none
  | ret {value : Names → String} (reads : Place written value) : Line written fun names => .ret (some (value names))
  | goto {target : Names → String} (mark : Mark written target) : Line written fun names => .goto (target names)
  | ifGoto {condition target : Names → String} (reads : Place written condition) (mark : Mark written target) :
    Line written fun names => .ifGoto (condition names) (target names)
  | label {name : Names → String} (mark : Mark written name) : Line written fun names => .label (name names)

/-- As many items at all places, and each of them of a sort. -/
inductive Row {α : Type} (sort : (Names → α) → Prop) : (Names → List α) → Prop
  | nil : Row sort fun _ => []
  | cons {first : Names → α} {rest : Names → List α} (here : sort first) (later : Row sort rest) :
    Row sort fun names => first names :: rest names

/-- Code at all places. -/
abbrev Code (written : String → Prop) : (Names → List Instruction) → Prop :=
  Row (Line written)

/-- The words of a source, as far as they get into code. -/
def vocabulary (written : String → Prop) : Vocabulary :=
  ⟨written, written⟩

theorem counted_self (first : Names → Nat) : Counted first first :=
  ⟨0, fun _ => rfl⟩

theorem Counted.add {first number : Names → Nat} (counted : Counted first number) (more : Nat) :
    Counted first fun names => number names + more := by
  obtain ⟨offset, same⟩ := counted
  exact ⟨offset + more, fun names => by simp only [same, Nat.add_assoc]⟩

namespace Row
variable {α β : Type} {sort : (Names → α) → Prop} {list : Names → List α}

theorem single {item : Names → α} (here : sort item) : Row sort fun names => [item names] :=
  .cons here .nil

theorem append {back : Names → List α} (front : Row sort list) (later : Row sort back) :
    Row sort fun names => list names ++ back names := by
  induction front with
  | nil => exact later
  | cons here _ ih => exact .cons here ih

theorem map {other : (Names → β) → Prop} {change : α → β} (row : Row sort list)
    (each : ∀ item, sort item → other fun names => change (item names)) :
    Row other fun names => (list names).map change := by
  induction row with
  | nil => exact .nil
  | cons here _ ih => exact .cons (each _ here) ih

theorem length_eq (row : Row sort list) : ∃ count, ∀ names, (list names).length = count := by
  induction row with
  | nil => exact ⟨0, fun _ => rfl⟩
  | cons _ _ ih =>
    obtain ⟨count, same⟩ := ih
    exact ⟨count + 1, fun names => congrArg (· + 1) (same names)⟩

theorem mem (row : Row sort list) {names : Names} {value : α} (member : value ∈ list names) :
    ∃ item, sort item ∧ item names = value := by
  induction row with
  | nil => cases member
  | cons here _ ih =>
    rcases List.mem_cons.mp member with rfl | later
    · exact ⟨_, here, rfl⟩
    · exact ih later

end Row

section Layouts
variable {written : String → Prop}

theorem code_call {function : String} (own : written function) {args : Names → List String}
    (places : Row (Place written) args) {target : Names → String} (writes : Place written target) :
    Code written fun names => Layout.call function (args names) (target names) := by
  obtain ⟨count, length⟩ := places.length_eq
  have params : Code written fun names => (args names).map .param := places.map fun _ reads => .param reads
  have whole := params.append (.cons (.call own count) (.single (.result writes)))
  simpa only [Layout.call, length] using whole

section Jumps
variable {test : Names → List Instruction} {condition first second third : Names → String}
  (tests : Code written test) (reads : Place written condition) (here : Mark written first)
  (there : Mark written second) (last : Mark written third)
include tests reads here there last

theorem code_selection {consequent alternative : Names → List Instruction} (taken : Code written consequent)
    (left : Code written alternative) :
    Code written fun names => Layout.selection (test names) (condition names) (consequent names) (alternative names)
      (first names) (second names) (third names) := by
  have jump := tests.append (.cons (.ifGoto reads here) (.single (.label there)))
  have join := (jump.append left).append (.cons (.goto last) (.single (.label here)))
  exact (join.append taken).append (.cons (.goto last) (.single (.label last)))

theorem code_iteration {body : Names → List Instruction} (inside : Code written body) :
    Code written fun names => Layout.iteration (test names) (condition names) (body names) (first names) (second names)
      (third names) := by
  have jump := ((Row.single (.label here)).append tests).append
    (.cons (.ifGoto reads there) (.cons (.goto last) (.single (.label there))))
  exact (jump.append inside).append (.cons (.goto here) (.single (.label last)))

end Jumps

/-- An operator, the same at all places, and its right operand. -/
inductive Operand (written : String → Prop) : (Names → Operator × String) → Prop
  | mk {right : Names → String} (operator : Operator) (reads : Place written right) :
    Operand written fun names => (operator, right names)

theorem code_chain {operands : Names → List (Operator × String)} (row : Row (Operand written) operands)
    {next : Names → Nat} (counted : Counted Names.temporaries next) {place : Names → String}
    (first : Place written place) :
    (Code written fun names => Layout.chain (next names) (place names) (operands names)) ∧
      Place written fun names => Layout.chainPlace (next names) (place names) (operands names) := by
  induction row generalizing next place with
  | nil => exact ⟨.nil, first⟩
  | cons here _ ih =>
    obtain ⟨operator, second⟩ := here
    have writes : Place written fun names => temporary (next names) := .made counted
    obtain ⟨code, place⟩ := ih (counted.add 1) writes
    exact ⟨.cons (.binary operator writes first second) code, place⟩

end Layouts

end Template

section Phrases
variable {written : String → Prop}

/-! Expressions. -/

mutual

theorem Expression.template : ∀ {expression : Expression}, expression.Spelled (Template.vocabulary written) →
    ∀ {next : Names → Nat}, Template.Counted Names.temporaries next →
      (Template.Code written fun names => expression.code (next names)) ∧
        Template.Place written fun names => expression.place (next names)
  | .number _, spelled, _, _ => ⟨.nil, .written spelled⟩
  | .scalar _, spelled, _, _ => ⟨.nil, .written spelled⟩
  | .element use index, spelled, next, counted => by
    obtain ⟨code, place⟩ := Expression.template spelled.2 counted
    have writes : Template.Place written fun names => temporary (next names + index.temporaries) :=
      .made (counted.add _)
    exact ⟨code.append (.single (.load writes (.written spelled.1) place)), writes⟩
  | .call callee arguments, spelled, next, counted => by
    obtain ⟨code, places⟩ := Arguments.template spelled.2 counted
    have writes : Template.Place written fun names => temporary (next names + arguments.temporaries) :=
      .made (counted.add _)
    exact ⟨code.append (Template.code_call spelled.1 places writes), writes⟩
  | .chain head links, spelled, next, counted => by
    obtain ⟨first, place⟩ := Expression.template spelled.1 counted
    have later := counted.add head.temporaries
    obtain ⟨code, operands⟩ := Links.template spelled.2 later
    obtain ⟨chain, last⟩ := Template.code_chain operands (later.add links.temporaries) place
    exact ⟨(first.append code).append chain, last⟩

theorem Links.template : ∀ {links : Links}, links.Spelled (Template.vocabulary written) →
    ∀ {next : Names → Nat}, Template.Counted Names.temporaries next →
      (Template.Code written fun names => links.code (next names)) ∧
        Template.Row (Template.Operand written) fun names => links.operands (next names)
  | .nil, _, _, _ => ⟨.nil, .nil⟩
  | .cons operator operand rest, spelled, next, counted => by
    obtain ⟨first, place⟩ := Expression.template spelled.1 counted
    obtain ⟨code, operands⟩ := Links.template spelled.2 (counted.add operand.temporaries)
    exact ⟨first.append code, .cons (.mk operator place) operands⟩

theorem Arguments.template : ∀ {arguments : Arguments}, arguments.Spelled (Template.vocabulary written) →
    ∀ {next : Names → Nat}, Template.Counted Names.temporaries next →
      (Template.Code written fun names => arguments.code (next names)) ∧
        Template.Row (Template.Place written) fun names => arguments.places (next names)
  | .nil, _, _, _ => ⟨.nil, .nil⟩
  | .cons first rest, spelled, next, counted => by
    obtain ⟨code, place⟩ := Expression.template spelled.1 counted
    obtain ⟨others, places⟩ := Arguments.template spelled.2 (counted.add first.temporaries)
    exact ⟨code.append others, .cons place places⟩

end

/-! Statements. -/

/-- Names in front of a phrase that lies at a fixed distance from where its definition starts. -/
structure Template.Inside (place : Names → Names) : Prop where
  temporaries : Counted Names.temporaries fun names => (place names).temporaries
  labels : Counted Names.labels fun names => (place names).labels

theorem Template.Inside.advance {place : Names → Names} (inside : Inside place) (temporaries labels : Nat) :
    Inside fun names => (place names).advance temporaries labels :=
  ⟨inside.temporaries.add temporaries, inside.labels.add labels⟩

theorem Statement.template {statement : Statement} (spelled : statement.Spelled (Template.vocabulary written))
    {place : Names → Names} (inside : Template.Inside place) :
    Template.Code written fun names => statement.code (place names) := by
  induction statement generalizing place with
  | skip => exact .nil
  | seq first rest ihFirst ihRest => exact (ihFirst spelled.1 inside).append (ihRest spelled.2 (inside.advance _ _))
  | assign target value =>
    obtain ⟨code, reads⟩ := value.template spelled.2 inside.temporaries
    exact code.append (.single (.assign (.written spelled.1) reads))
  | store target index value =>
    obtain ⟨named, indexed, valued⟩ := spelled
    obtain ⟨first, element⟩ := index.template indexed inside.temporaries
    obtain ⟨second, reads⟩ := value.template valued (inside.temporaries.add index.temporaries)
    exact (first.append second).append (.single (.store (.written named) element reads))
  | call callee arguments =>
    obtain ⟨code, places⟩ := arguments.template spelled.2 inside.temporaries
    exact code.append (Template.code_call spelled.1 places (.made (inside.temporaries.add _)))
  | select test consequent alternative ihConsequent ihAlternative =>
    obtain ⟨tested, taken, left⟩ := spelled
    obtain ⟨code, reads⟩ := test.template tested inside.temporaries
    have inner := inside.advance test.temporaries 0
    have other := inner.advance consequent.temporaries consequent.labels
    have labels := (other.advance 0 alternative.labels).labels
    exact Template.code_selection code reads (.made (labels.add 0)) (.made (labels.add 1)) (.made (labels.add 2))
      (ihConsequent taken inner) (ihAlternative left other)
  | loop test body ih =>
    obtain ⟨code, reads⟩ := test.template spelled.1 inside.temporaries
    have labels := (inside.advance 0 body.labels).labels
    exact Template.code_iteration code reads (.made (labels.add 0)) (.made (labels.add 1)) (.made (labels.add 2))
      (ih spelled.2 (inside.advance test.temporaries 0))
  | ret value =>
    cases value with
    | none => exact .single .retVoid
    | some value =>
      obtain ⟨code, reads⟩ := value.template spelled inside.temporaries
      exact code.append (.single (.ret reads))

/-- The code of a definition is a template. -/
theorem Definition.template {definition : Definition} (spelled : definition.Spelled (Template.vocabulary written)) :
    Template.Code written definition.code := by
  obtain ⟨declarator, length | ⟨params, locals, body⟩⟩ := definition
  · exact .nil
  · have inside : Template.Inside id := ⟨Template.counted_self _, Template.counted_self _⟩
    exact .cons (.label (.written spelled.1)) (body.template spelled.2.2.2 inside)

end Phrases

end Minuscule
