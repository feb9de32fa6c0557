import Minuscule.Proofs.Concatenation
import Minuscule.Proofs.Decompilation
import Minuscule.Proofs.Lists
import Minuscule.Proofs.Uses

/-!
Calls in the code. A call has a block of its own: the parameters from left to right, the call with their number, and the
result. Code is laid out from pieces without calls and from calls whose arguments are laid out in front of their blocks,
so that no block is ever interrupted. The blocks of a program are those of the calls in its source, one for each, and
there are no other parameters, calls and results.
-/

namespace Minuscule

/-! Blocks. -/

namespace Instruction

def isParam : Instruction → Bool
  | param _ => true
  | _ => false

/-- The instructions that calls are made of. -/
def ofCall : Instruction → Bool
  | param _ | call .. | result _ => true
  | _ => false

end Instruction

/-- The instructions of a call, from an index of the code on. -/
structure Block where
  start : Nat
  function : String
  values : List String
  target : String

namespace Block

def code (block : Block) : List Instruction :=
  block.values.map .param ++ [.call block.function block.values.length, .result block.target]

/-- The index behind the block. -/
def limit (block : Block) : Nat :=
  block.start + block.values.length + 2

/-- The block stands in the code at its index, and there is no parameter in front of it. -/
def Stands (code : List Instruction) (block : Block) : Prop :=
  ∃ before after, code = before ++ block.code ++ after ∧ before.length = block.start ∧
    ∀ last ∈ before.getLast?, last.isParam = false

def Covers (block : Block) (index : Nat) : Prop :=
  block.start ≤ index ∧ index < block.limit

theorem length_code (block : Block) : block.code.length = block.values.length + 2 := by
  simp [code]

theorem code_injective {block other : Block} (start : block.start = other.start) (same : block.code = other.code) :
    block = other := by
  obtain ⟨first, function, values, target⟩ := block
  obtain ⟨_, function', values', target'⟩ := other
  cases start
  have lengths : (values.map Instruction.param).length = (values'.map Instruction.param).length := by
    have := congrArg List.length same
    simpa [code] using this
  obtain ⟨params, rest⟩ := List.append_inj same lengths
  have injective : Function.Injective Instruction.param := fun _ _ => Instruction.param.inj
  cases List.map_injective_iff.mpr injective params
  cases rest
  rfl

namespace Stands
variable {code : List Instruction} {block other : Block}

theorem getElem? (stands : block.Stands code) (offset : Nat) (inside : offset < block.values.length + 2) :
    code[block.start + offset]? = block.code[offset]? := by
  obtain ⟨before, after, rfl, length, _⟩ := stands
  rw [← length, List.append_assoc, List.getElem?_append_right (Nat.le_add_right ..), Nat.add_sub_cancel_left,
    List.getElem?_append_left (by rw [length_code]; exact inside)]

theorem getElem?_param (stands : block.Stands code) (offset : Nat) (inside : offset < block.values.length) :
    ∃ value, code[block.start + offset]? = some (.param value) := by
  refine ⟨block.values[offset], ?_⟩
  rw [stands.getElem? offset (by omega), Block.code, List.getElem?_append_left (by simpa using inside)]
  simp [inside]

theorem getElem?_call (stands : block.Stands code) :
    code[block.start + block.values.length]? = some (.call block.function block.values.length) := by
  rw [stands.getElem? _ (by omega), Block.code, List.getElem?_append_right (by simp)]
  simp

theorem getElem?_result (stands : block.Stands code) :
    code[block.start + block.values.length + 1]? = some (.result block.target) := by
  rw [Nat.add_assoc, stands.getElem? _ (by omega), Block.code, List.getElem?_append_right (by simp)]
  simp

/-- No block has its call in front of the call of a block that it meets: there the other block has a parameter, or
begins behind the result. -/
theorem call_le (stands : block.Stands code) (others : other.Stands code) {index : Nat} (covers : block.Covers index)
    (covers' : other.Covers index) :
    block.start + block.values.length ≤ other.start + other.values.length := by
  by_contra early
  obtain ⟨low, _⟩ := covers
  have high : index < other.start + other.values.length + 2 := covers'.2
  have call := others.getElem?_call
  by_cases inside : block.start ≤ other.start + other.values.length
  · obtain ⟨value, param⟩ := stands.getElem?_param (other.start + other.values.length - block.start) (by omega)
    rw [Nat.add_sub_cancel' inside, call] at param
    cases param
  · have behind : block.start = other.start + other.values.length + 1 := by omega
    have result := others.getElem?_result
    rw [← behind] at result
    by_cases empty : block.values.length = 0
    · have first := stands.getElem?_call
      rw [empty, Nat.add_zero, result] at first
      cases first
    · obtain ⟨value, param⟩ := stands.getElem?_param 0 (Nat.pos_of_ne_zero empty)
      rw [Nat.add_zero, result] at param
      cases param

/-- Blocks do not overlap. -/
theorem unique (stands : block.Stands code) (others : other.Stands code) {index : Nat} (covers : block.Covers index)
    (covers' : other.Covers index) : block = other := by
  have here := stands.call_le others covers covers'
  have there := others.call_le stands covers' covers
  have call := stands.getElem?_call
  rw [Nat.le_antisymm here there, others.getElem?_call] at call
  have count : other.values.length = block.values.length := (Instruction.call.inj (Option.some.inj call)).2
  have start : block.start = other.start := by omega
  obtain ⟨before, after, whole, length, _⟩ := stands
  obtain ⟨before', after', whole', length', _⟩ := others
  rw [whole, List.append_assoc, List.append_assoc] at whole'
  have rest := List.append_inj_right whole' (by omega)
  apply code_injective start
  exact List.append_inj_left rest (by rw [length_code, length_code, count])

end Stands

end Block

/-! Layout. -/

/-- A call in the code: the index at which the code of its arguments begins, and the number of its first temporary. -/
structure PlacedCall where
  start : Nat
  next : Nat
  callee : Occurrence
  arguments : Arguments

namespace PlacedCall

def block (call : PlacedCall) : Block where
  start := call.start + (call.arguments.code call.next).length
  function := call.callee.name
  values := call.arguments.places call.next
  target := temporary (call.next + call.arguments.temporaries)

def code (call : PlacedCall) : List Instruction :=
  call.arguments.code call.next ++ call.block.code

/-- The call as the source has it. -/
def source (call : PlacedCall) : Occurrence × List Expression :=
  (call.callee, call.arguments.toList)

theorem block_start (call : PlacedCall) :
    call.block.start = call.start + (call.arguments.code call.next).length :=
  rfl

theorem start_add_length (call : PlacedCall) : call.start + call.code.length = call.block.limit := by
  rw [code, List.length_append, Block.length_code, Block.limit, block_start]
  omega

end PlacedCall

/-- Code from an index on, with its calls in their order. -/
inductive Lays : Nat → List Instruction → List PlacedCall → Prop
  | plain {start : Nat} {code : List Instruction} (still : ∀ instruction ∈ code, instruction.ofCall = false) :
    Lays start code []
  | call {placed : PlacedCall} {row : List PlacedCall}
    (arguments : Lays placed.start (placed.arguments.code placed.next) row) :
    Lays placed.start placed.code (row ++ [placed])
  | append {start : Nat} {code more : List Instruction} {row rows : List PlacedCall} (first : Lays start code row)
    (rest : Lays (start + code.length) more rows) : Lays start (code ++ more) (row ++ rows)

/-- Code that does not end inside the parameters of a call. -/
def EndsOutside (code : List Instruction) : Prop :=
  ∀ last ∈ code.getLast?, last.isParam = false

theorem EndsOutside.append {code more : List Instruction} (first : EndsOutside code) (rest : EndsOutside more) :
    EndsOutside (code ++ more) := by
  intro last member
  rw [List.getLast?_append, Option.mem_def, Option.or_eq_some_iff] at member
  rcases member with behind | ⟨_, front⟩
  · exact rest last behind
  · exact first last front

namespace Lays
variable {start : Nat} {code : List Instruction} {row : List PlacedCall}

theorem endsOutside (laid : Lays start code row) : EndsOutside code := by
  induction laid with
  | plain still =>
    intro last member
    have other := still last (List.mem_of_getLast? member)
    cases last <;> first | rfl | cases other
  | @call placed row arguments ih =>
    intro last member
    have result : placed.code.getLast? = some (.result placed.block.target) := by
      simp [PlacedCall.code, Block.code]
    rw [result] at member
    cases member
    rfl
  | append first rest ihFirst ihRest => exact ihFirst.append ihRest

/-- The calls stay in the code. -/
theorem within (laid : Lays start code row) :
    ∀ call ∈ row, start ≤ call.start ∧ call.block.limit ≤ start + code.length := by
  induction laid with
  | plain still => simp
  | @call placed row arguments ih =>
    rw [List.forall_mem_append, List.forall_mem_singleton]
    refine ⟨fun call member => ?_, Nat.le_refl _, Nat.le_of_eq placed.start_add_length.symm⟩
    obtain ⟨low, high⟩ := ih call member
    rw [PlacedCall.code, List.length_append]
    exact ⟨low, by omega⟩
  | @append start code more row rows first rest ihFirst ihRest =>
    rw [List.forall_mem_append, List.length_append]
    refine ⟨fun call member => ?_, fun call member => ?_⟩
    · obtain ⟨low, high⟩ := ihFirst call member
      exact ⟨low, by omega⟩
    · obtain ⟨low, high⟩ := ihRest call member
      exact ⟨by omega, by omega⟩

/-- Blocks on two sides of an index are different. -/
theorem disjoint {row rows : List PlacedCall} {index : Nat} (early : ∀ call ∈ row, call.block.limit ≤ index)
    (late : ∀ call ∈ rows, index ≤ call.block.start) :
    (row.map PlacedCall.block).Disjoint (rows.map PlacedCall.block) := by
  intro block first second
  obtain ⟨call, member, rfl⟩ := List.mem_map.mp first
  obtain ⟨other, member', same⟩ := List.mem_map.mp second
  have low := early call member
  have high := late other member'
  rw [same] at high
  rw [Block.limit] at low
  omega

theorem nodup (laid : Lays start code row) : (row.map PlacedCall.block).Nodup := by
  induction laid with
  | plain still => exact List.nodup_nil
  | @call placed row arguments ih =>
    rw [List.map_append]
    refine ih.append (List.nodup_singleton _) (disjoint (fun call member => (arguments.within call member).2) ?_)
    exact List.forall_mem_singleton.mpr (Nat.le_of_eq placed.block_start.symm)
  | @append start code more row rows first rest ihFirst ihRest =>
    rw [List.map_append]
    refine ihFirst.append ihRest (disjoint (fun call member => (first.within call member).2) fun call member => ?_)
    rw [call.block_start]
    exact Nat.le_add_right_of_le (rest.within call member).1

/-- There are no instructions of calls outside the blocks. -/
theorem covers (laid : Lays start code row) {index : Nat} {instruction : Instruction}
    (found : code[index]? = some instruction) (member : instruction.ofCall = true) :
    ∃ call ∈ row, call.block.Covers (start + index) := by
  induction laid generalizing index with
  | plain still =>
    rw [still instruction (List.mem_of_getElem? found)] at member
    cases member
  | @call placed row arguments ih =>
    by_cases early : index < (placed.arguments.code placed.next).length
    · rw [PlacedCall.code, List.getElem?_append_left early] at found
      obtain ⟨call, inside, covers⟩ := ih found
      exact ⟨call, List.mem_append_left _ inside, covers⟩
    · have bound := (List.getElem?_eq_some_iff.mp found).1
      refine ⟨placed, List.mem_append_right _ (List.mem_singleton_self _), ?_, ?_⟩
      · rw [placed.block_start]
        omega
      · rw [← placed.start_add_length]
        omega
  | @append start code more row rows first rest ihFirst ihRest =>
    by_cases early : index < code.length
    · rw [List.getElem?_append_left early] at found
      obtain ⟨call, inside, covers⟩ := ihFirst found
      exact ⟨call, List.mem_append_left _ inside, covers⟩
    · rw [List.getElem?_append_right (by omega)] at found
      obtain ⟨call, inside, covers⟩ := ihRest found
      rw [Nat.add_assoc, Nat.add_sub_cancel' (by omega)] at covers
      exact ⟨call, List.mem_append_right _ inside, covers⟩

/-- Each call is found in the code, the code of its arguments in front of its block. -/
theorem found (laid : Lays start code row) {before : List Instruction} (length : before.length = start)
    (outside : EndsOutside before) :
    ∀ call ∈ row, ∃ front back, before ++ code = front ++ call.code ++ back ∧ front.length = call.start ∧
      EndsOutside (front ++ call.arguments.code call.next) := by
  induction laid generalizing before with
  | plain still => simp
  | @call placed row arguments ih =>
    rw [List.forall_mem_append, List.forall_mem_singleton]
    refine ⟨fun call member => ?_, before, [], (List.append_nil _).symm, length, outside.append arguments.endsOutside⟩
    obtain ⟨front, back, whole, rest⟩ := ih length outside call member
    refine ⟨front, back ++ placed.block.code, ?_, rest⟩
    rw [PlacedCall.code, ← List.append_assoc, whole, List.append_assoc]
  | @append start code more row rows first rest ihFirst ihRest =>
    rw [List.forall_mem_append]
    refine ⟨fun call member => ?_, fun call member => ?_⟩
    · obtain ⟨front, back, whole, others⟩ := ihFirst length outside call member
      refine ⟨front, back ++ more, ?_, others⟩
      rw [← List.append_assoc, whole, List.append_assoc]
    · have longer : (before ++ code).length = start + code.length := by rw [List.length_append, length]
      obtain ⟨front, back, whole, others⟩ := ihRest longer (outside.append first.endsOutside) call member
      exact ⟨front, back, by rw [← List.append_assoc, whole], others⟩

/-! Code from its first index on. -/

theorem found_whole (laid : Lays 0 code row) {call : PlacedCall} (member : call ∈ row) :
    ∃ front back, code = front ++ call.code ++ back ∧ front.length = call.start ∧
      EndsOutside (front ++ call.arguments.code call.next) := by
  have nothing : EndsOutside [] := fun last absent => by cases absent
  exact laid.found List.length_nil nothing call member

theorem stands (laid : Lays 0 code row) : ∀ block ∈ row.map PlacedCall.block, block.Stands code := by
  intro block member
  obtain ⟨call, inside, rfl⟩ := List.mem_map.mp member
  obtain ⟨front, back, whole, length, outside⟩ := laid.found_whole inside
  refine ⟨front ++ call.arguments.code call.next, back, ?_, ?_, outside⟩
  · rw [whole, PlacedCall.code, ← List.append_assoc]
  · rw [List.length_append, length, call.block_start]

/-- Each instruction of a call lies in one block. -/
theorem existsUnique_covers (laid : Lays 0 code row) {index : Nat} {instruction : Instruction}
    (placed : code[index]? = some instruction) (part : instruction.ofCall = true) :
    ∃! block, block ∈ row.map PlacedCall.block ∧ block.Covers index := by
  obtain ⟨call, inside, covers⟩ := laid.covers placed part
  rw [Nat.zero_add] at covers
  have member := List.mem_map_of_mem (f := PlacedCall.block) inside
  refine ⟨call.block, ⟨member, covers⟩, ?_⟩
  rintro other ⟨member', covers'⟩
  exact (laid.stands other member').unique (laid.stands call.block member) covers' covers

/-- There are no blocks but those of the calls. -/
theorem mem_blocks_iff (laid : Lays 0 code row) (block : Block) :
    block ∈ row.map PlacedCall.block ↔ block.Stands code := by
  refine ⟨laid.stands block, fun standing => ?_⟩
  obtain ⟨other, ⟨member, covers⟩, _⟩ := laid.existsUnique_covers standing.getElem?_call rfl
  have own : block.Covers (block.start + block.values.length) :=
    ⟨Nat.le_add_right .., Nat.lt_add_of_pos_right (by decide)⟩
  rw [standing.unique (laid.stands other member) own covers]
  exact member

end Lays

/-! Calls of a program. -/

/-- The function and the arguments of a call. -/
def Use.call? {E : Type} (use : Use E) : Option (Occurrence × List E) :=
  match use.usage with
  | .call arguments => some (use.subject, arguments)
  | _ => none

def callsOf {E : Type} (uses : List (Use E)) : List (Occurrence × List E) :=
  uses.filterMap Use.call?

theorem callsOf_append {E : Type} (uses more : List (Use E)) : callsOf (uses ++ more) = callsOf uses ++ callsOf more :=
  List.filterMap_append

theorem callsOf_map {E F : Type} (value : E → F) (uses : List (Use E)) :
    callsOf (uses.map (Use.map value)) = (callsOf uses).map (Prod.map id (List.map value)) := by
  rw [callsOf, callsOf, List.filterMap_map, List.map_filterMap]
  congr 1
  funext use
  obtain ⟨subject, _ | _ | _⟩ := use <;> rfl

/-- Code that has the given calls, wherever it stands. -/
def LaidOut (code : List Instruction) (calls : List (Occurrence × List Expression)) : Prop :=
  ∀ start, ∃ row, Lays start code row ∧ (row.map PlacedCall.source).Perm calls

section LaidOut
variable {code more : List Instruction} {calls others : List (Occurrence × List Expression)}

theorem laidOut_plain (still : ∀ instruction ∈ code, instruction.ofCall = false) : LaidOut code [] :=
  fun _ => ⟨[], .plain still, .refl _⟩

theorem LaidOut.append (first : LaidOut code calls) (rest : LaidOut more others) :
    LaidOut (code ++ more) (calls ++ others) := by
  intro start
  obtain ⟨row, laid, perm⟩ := first start
  obtain ⟨rows, behind, perms⟩ := rest (start + code.length)
  exact ⟨row ++ rows, laid.append behind, by rw [List.map_append]; exact perm.append perms⟩

theorem LaidOut.plain_behind (first : LaidOut code calls) (still : ∀ instruction ∈ more, instruction.ofCall = false) :
    LaidOut (code ++ more) calls := by
  have whole := first.append (laidOut_plain still)
  rwa [List.append_nil] at whole

theorem LaidOut.call {arguments : Arguments} {next : Nat} (inside : LaidOut (arguments.code next) calls)
    (callee : Occurrence) :
    LaidOut (arguments.code next ++
        Layout.call callee.name (arguments.places next) (temporary (next + arguments.temporaries)))
      (calls ++ [(callee, arguments.toList)]) := by
  intro start
  obtain ⟨row, laid, perm⟩ := inside start
  let placed : PlacedCall := ⟨start, next, callee, arguments⟩
  refine ⟨row ++ [placed], @Lays.call placed row laid, ?_⟩
  rw [List.map_append]
  exact perm.append_right _

theorem LaidOut.perm (whole : LaidOut code calls) (perm : calls.Perm others) : LaidOut code others := by
  intro start
  obtain ⟨row, laid, here⟩ := whole start
  exact ⟨row, laid, here.trans perm⟩

/-- The alternative stands in front of the consequent. -/
theorem LaidOut.selection {test consequent alternative : List Instruction}
    {tested first second : List (Occurrence × List Expression)} (laid : LaidOut test tested)
    (inside : LaidOut consequent first) (inside' : LaidOut alternative second)
    (condition consequentLabel alternativeLabel joinLabel : String) :
    LaidOut (Layout.selection test condition consequent alternative consequentLabel alternativeLabel joinLabel)
      (tested ++ first ++ second) := by
  have order : (tested ++ second ++ first).Perm (tested ++ first ++ second) := by
    rw [List.append_assoc, List.append_assoc]
    exact List.perm_append_comm.append_left _
  rw [Layout.selection]
  refine LaidOut.perm ?_ order
  exact ((((laid.plain_behind (by simp [Instruction.ofCall])).append inside').plain_behind
    (by simp [Instruction.ofCall])).append inside).plain_behind (by simp [Instruction.ofCall])

theorem LaidOut.iteration {test body : List Instruction} {tested inner : List (Occurrence × List Expression)}
    (laid : LaidOut test tested) (inside : LaidOut body inner) (condition testLabel bodyLabel endLabel : String) :
    LaidOut (Layout.iteration test condition body testLabel bodyLabel endLabel) (tested ++ inner) := by
  have entry : LaidOut [.label testLabel] [] := laidOut_plain (by simp [Instruction.ofCall])
  rw [Layout.iteration]
  exact (((entry.append laid).plain_behind (by simp [Instruction.ofCall])).append inside).plain_behind
    (by simp [Instruction.ofCall])

end LaidOut

theorem Layout.still_chain (next : Nat) (place : String) (operands : List (Operator × String)) :
    ∀ instruction ∈ chain next place operands, instruction.ofCall = false := by
  induction operands generalizing next place with
  | nil => simp [chain]
  | cons operand rest ih =>
    rw [chain, List.forall_mem_cons]
    exact ⟨rfl, ih _ _⟩

mutual

theorem Expression.laidOut : ∀ (expression : Expression) (next : Nat),
    LaidOut (expression.code next) (callsOf expression.uses)
  | .number _, _ => laidOut_plain (by simp [Expression.code])
  | .scalar _, _ => laidOut_plain (by simp [Expression.code])
  | .element use index, next => by
    rw [Expression.code, Expression.uses, callsOf_append]
    exact (Expression.laidOut index next).append (laidOut_plain (by simp [Instruction.ofCall]))
  | .call callee arguments, next => by
    rw [Expression.code, Expression.uses, callsOf_append]
    exact (Arguments.laidOut arguments next).call callee
  | .chain head links, next => by
    rw [Expression.code, Expression.uses, callsOf_append]
    exact ((Expression.laidOut head next).append (Links.laidOut links _)).plain_behind (Layout.still_chain _ _ _)

theorem Links.laidOut : ∀ (links : Links) (next : Nat), LaidOut (links.code next) (callsOf links.uses)
  | .nil, _ => laidOut_plain (by simp [Links.code])
  | .cons operator operand rest, next => by
    rw [Links.code, Links.uses, callsOf_append]
    exact (Expression.laidOut operand next).append (Links.laidOut rest _)

theorem Arguments.laidOut : ∀ (arguments : Arguments) (next : Nat),
    LaidOut (arguments.code next) (callsOf arguments.uses)
  | .nil, _ => laidOut_plain (by simp [Arguments.code])
  | .cons first rest, next => by
    rw [Arguments.code, Arguments.uses, callsOf_append]
    exact (Expression.laidOut first next).append (Arguments.laidOut rest _)

end

theorem Statement.laidOut (statement : Statement) (names : Names) :
    LaidOut (statement.code names) (callsOf statement.uses) := by
  induction statement generalizing names with
  | skip => exact laidOut_plain (by simp [code])
  | seq first rest ihFirst ihRest =>
    rw [code, uses, callsOf_append]
    exact (ihFirst names).append (ihRest _)
  | assign target value =>
    rw [code, uses, callsOf_append]
    exact (value.laidOut _).append (laidOut_plain (by simp [Instruction.ofCall]))
  | store target index value =>
    rw [code, uses, callsOf_append, callsOf_append]
    exact ((index.laidOut _).append (value.laidOut _)).append (laidOut_plain (by simp [Instruction.ofCall]))
  | call callee arguments =>
    rw [code, uses, callsOf_append]
    exact (arguments.laidOut _).call callee
  | select test consequent alternative ihConsequent ihAlternative =>
    rw [uses, callsOf_append, callsOf_append]
    exact (test.laidOut _).selection (ihConsequent _) (ihAlternative _) _ _ _ _
  | loop test body ih =>
    rw [uses, callsOf_append]
    exact (test.laidOut _).iteration (ih _) _ _ _ _
  | ret value =>
    cases value with
    | none => exact laidOut_plain (by simp [code, Instruction.ofCall])
    | some value => exact (value.laidOut _).plain_behind (by simp [Instruction.ofCall])

theorem Definition.laidOut (definition : Definition) (names : Names) :
    LaidOut (definition.code names) (callsOf definition.form.uses) := by
  obtain ⟨declarator, length | ⟨params, locals, body⟩⟩ := definition
  · exact laidOut_plain (by simp [code])
  · have entry : LaidOut [.label declarator.subject.name] [] := laidOut_plain (by simp [Instruction.ofCall])
    exact entry.append (body.laidOut names)

theorem Program.laidOut (program : Program) (names : Names) :
    LaidOut (program.code names) (callsOf program.uses) := by
  induction program generalizing names with
  | nil => exact laidOut_plain (by simp [code])
  | cons definition rest ih =>
    rw [code, uses, List.flatMap_cons, callsOf_append]
    exact (definition.laidOut names).append (ih _)

/-! Calls and their records. -/

theorem Symbols.function?_of_callFaults {symbols : Symbols} {callee : Occurrence} {count : Nat}
    (quiet : symbols.callFaults callee count = []) :
    ∃ record, symbols.function? callee.name = some record ∧ record.params.length = count := by
  unfold callFaults at quiet
  split at quiet
  · cases quiet
  · next record known =>
    by_cases same : record.params.length = count
    · exact ⟨record, known, same⟩
    · rw [if_pos same] at quiet
      cases quiet

theorem Definition.calls_known {definition : Definition} {symbols : Symbols} (quiet : definition.faults symbols = [])
    {callee : Occurrence} {arguments : List Expression} (member : (callee, arguments) ∈ callsOf definition.form.uses) :
    ∃ record, (definition.after symbols).function? callee.name = some record ∧
      record.params.length = arguments.length := by
  obtain ⟨declarator, length | ⟨params, locals, body⟩⟩ := definition
  · cases member
  · obtain ⟨⟨subject, usage⟩, used, call⟩ := List.mem_filterMap.mp member
    have inside : body.faults (bodySymbols symbols declarator params locals) (.local symbols.locals.size) = [] :=
      (List.append_eq_nil_iff.mp quiet).2
    rw [Statement.faults_eq_flatMap, List.flatMap_eq_nil_iff] at inside
    cases usage with
    | plain => cases call
    | element => cases call
    | call =>
      cases call
      exact Symbols.function?_of_callFaults (inside _ used)

/-- A program without errors calls functions that have records, with as many arguments as the record asks for. -/
theorem Program.calls_known {program : Program} {symbols : Symbols} (quiet : program.faults symbols = [])
    {callee : Occurrence} {arguments : List Expression} (member : (callee, arguments) ∈ callsOf program.uses) :
    ∃ record, (program.after symbols).function? callee.name = some record ∧
      record.params.length = arguments.length := by
  induction program generalizing symbols with
  | nil => cases member
  | cons definition rest ih =>
    obtain ⟨here, later⟩ := List.append_eq_nil_iff.mp quiet
    rw [uses, List.flatMap_cons, callsOf_append] at member
    rcases List.mem_append.mp member with own | other
    · obtain ⟨record, known, count⟩ := definition.calls_known here own
      exact ⟨record, (Program.extends_after _ rest).foundFunction _ _ known, count⟩
    · exact ih later other

/-! Arguments of trees. -/

/-- The calls in a tree, those in the arguments of a call in front of it. -/
def Tree.calls (tree : ParseTree) : List (Occurrence × List ParseTree) :=
  callsOf tree.uses

theorem Tree.isExpression_argument {tree : ParseTree} (conforming : tree.conforms Language.grammar = true)
    {callee : Occurrence} {arguments : List ParseTree} (member : (callee, arguments) ∈ tree.calls) :
    ∀ argument ∈ arguments, argument.IsExpression := by
  obtain ⟨⟨subject, usage⟩, used, call⟩ := List.mem_filterMap.mp member
  cases usage with
  | plain => cases call
  | element => cases call
  | call found =>
    cases call
    exact fun argument given => (hasExpression_operand conforming used argument given).toIsExpression

/-- The places of the values of trees that are evaluated in a row. -/
def Walk.places (inherited : Inherited) : List ParseTree → Progress → List String
  | [], _ => []
  | tree :: rest, progress =>
    (ofTree tree inherited progress).1.place :: places inherited rest (ofTree tree inherited progress).2

theorem Walk.places_eq (inherited : Inherited) {trees : List ParseTree} (each : ∀ tree ∈ trees, tree.HasValue)
    {arguments : Arguments} (same : trees.map Expression.ofTree = arguments.toList) (progress : Progress) :
    places inherited trees progress = arguments.places progress.names.temporaries := by
  induction trees generalizing arguments progress with
  | nil =>
    cases arguments with
    | nil => rfl
    | cons => cases same
  | cons tree rest ih =>
    cases arguments with
    | nil => cases same
    | cons first others =>
      obtain ⟨here, later⟩ := List.forall_mem_cons.mp each
      injection same with head tail
      rw [places, here.ofTree, ih later tail, ← head]
      rfl

theorem Arguments.code_eq_flatten (arguments : Arguments) (next : Nat) :
    arguments.code next = (codesFrom next arguments.toList).flatten := by
  cases arguments with
  | nil => rfl
  | cons first rest => exact congrArg (first.code next ++ ·) (rest.code_eq_flatten (next + first.temporaries))

/-- The place of a value stands for the one formula as which the words of the tree are read. -/
def HoldsValue (code : List Instruction) (tree : ParseTree) (place : String) : Prop :=
  ∃ formula used, decompile code place = some (formula, used) ∧
    ∀ other, Reads .comparison tree.words other ↔ other = formula

/-- A block of the code that a call of a tree has. The code of the arguments, evaluated in a row, stands in front of it,
and the parameters are the places of their values. -/
structure Realizes (code : List Instruction) (call : Occurrence × List ParseTree) (block : Block) : Prop where
  function : block.function = call.1.name
  count : block.values.length = call.2.length
  evaluated : ∃ progress, ∀ inherited, (Walk.codes inherited call.2 progress).flatten <:+ code.take block.start ∧
    block.values = Walk.places inherited call.2 progress
  values : (∀ argument ∈ call.2, ∀ label ∈ argument.leafLabels, ∀ lexeme ∈ label.lexeme, isTemporary lexeme = false) →
    List.Forall₂ (HoldsValue (code.take block.start)) call.2 block.values

theorem holdsValue_all {trees : List ParseTree} (each : ∀ tree ∈ trees, tree.IsExpression) {arguments : Arguments}
    (same : trees.map Expression.ofTree = arguments.toList) {code : List Instruction} {places : List String}
    {used : List Nat} (all : DecompilesAll code places arguments.formulas used) :
    List.Forall₂ (HoldsValue code) trees places := by
  induction trees generalizing arguments places used with
  | nil =>
    cases arguments with
    | nil => cases all; exact .nil
    | cons => cases same
  | cons tree rest ih =>
    cases arguments with
    | nil => cases same
    | cons first others =>
      obtain ⟨⟨conforming, signed⟩, later⟩ := List.forall_mem_cons.mp each
      injection same with head tail
      have reading := Phrase.reads_ofTree tree conforming
      rw [signed] at reading
      cases all with
      | cons here behind =>
        refine .cons ⟨_, _, here, fun other => ?_⟩ (ih later tail behind)
        rw [← head]
        exact ⟨fun reading' => reading'.unique reading, fun same => same ▸ reading⟩

theorem Arguments.spelled_plain {trees : List ParseTree} (each : ∀ tree ∈ trees, tree.IsExpression)
    (plain : ∀ tree ∈ trees, ∀ label ∈ tree.leafLabels, ∀ lexeme ∈ label.lexeme, isTemporary lexeme = false)
    {arguments : Arguments} (same : trees.map Expression.ofTree = arguments.toList) : arguments.Spelled .plain := by
  induction trees generalizing arguments with
  | nil =>
    cases arguments with
    | nil => trivial
    | cons => cases same
  | cons tree rest ih =>
    cases arguments with
    | nil => cases same
    | cons first others =>
      obtain ⟨⟨conforming, signed⟩, later⟩ := List.forall_mem_cons.mp each
      obtain ⟨here, behind⟩ := List.forall_mem_cons.mp plain
      injection same with head tail
      have spelled := Phrase.spelled_plain conforming here
      rw [signed] at spelled
      exact ⟨head ▸ spelled, ih later behind tail⟩

theorem PlacedCall.realizes {code front back : List Instruction} {call : PlacedCall}
    (whole : code = front ++ call.code ++ back) (length : front.length = call.start) {trees : List ParseTree}
    (each : ∀ tree ∈ trees, tree.IsExpression) (same : trees.map Expression.ofTree = call.arguments.toList) :
    Realizes code (call.callee, trees) call.block := by
  have valued : ∀ tree ∈ trees, tree.HasValue := fun tree member => (each tree member).hasValue
  have before : code.take call.block.start = front ++ call.arguments.code call.next := by
    rw [whole, PlacedCall.code, ← List.append_assoc, List.append_assoc, List.take_left']
    rw [List.length_append, length, call.block_start]
  refine ⟨rfl, ?_, ?_, ?_⟩
  · change (call.arguments.places call.next).length = _
    rw [Arguments.length_places, ← Arguments.length_toList, ← same, List.length_map]
  · let progress : Progress := { Progress.start with names := { Names.fresh with temporaries := call.next } }
    refine ⟨progress, fun inherited => ⟨?_, (Walk.places_eq inherited valued same progress).symm⟩⟩
    have codes : Walk.codes inherited trees progress = codesFrom call.next call.arguments.toList :=
      (Walk.codes_eq inherited valued progress).trans (congrArg (codesFrom call.next) same)
    rw [before, codes, ← Arguments.code_eq_flatten]
    exact List.suffix_append _ _
  · intro plain
    obtain ⟨used, all, _⟩ := Arguments.decompile_code (Arguments.spelled_plain each plain same) front call.next
    rw [before]
    exact holdsValue_all each same all

/-- The blocks of a program. They are the blocks that stand in the code, and they belong to the calls of the source,
one to each. Every parameter, call and result of the code lies in one of them. In a program without errors each block
has as many parameters as the record of its function. The calls stand in the code in another order than in the source
if there are alternatives. -/
theorem calls_emitted_as_blocks {tree : ParseTree} (conforming : tree.conforms Language.grammar = true)
    (rooted : tree.sign = .nonTerminal .program) :
    let code := (Evaluation.ofTree tree).code
    ∃ row : List Block, List.Forall₂ (Realizes code) tree.calls row ∧ row.Nodup ∧
      (∀ block, block ∈ row ↔ block.Stands code) ∧
      (∀ index instruction, code[index]? = some instruction → instruction.ofCall = true →
        ∃! block, block ∈ row ∧ block.Covers index) ∧
      ((Evaluation.ofTree tree).errors = [] → ∀ block ∈ row, ∃ record,
        (Evaluation.ofTree tree).symbols.function? block.function = some record ∧
          record.params.length = block.values.length) := by
  intro code
  have whole := Evaluation.ofTree_eq_program conforming rooted
  have emitted : code = (Program.ofTree tree).code .fresh := congrArg Evaluation.code whole
  obtain ⟨placed, laid, perm⟩ := (Program.ofTree tree).laidOut .fresh 0
  rw [← emitted] at laid
  obtain ⟨row, sources, order⟩ : ∃ row : List PlacedCall,
      callsOf (Program.ofTree tree).uses = row.map PlacedCall.source ∧ row.Perm placed :=
    (congrFun (congrFun (List.eq_map_comp_perm PlacedCall.source) _) _).mpr perm.symm
  have blocks : ∀ block, block ∈ row.map PlacedCall.block ↔ block ∈ placed.map PlacedCall.block :=
    fun block => (order.map PlacedCall.block).mem_iff
  refine ⟨row.map PlacedCall.block, ?_, ?_, ?_, ?_, ?_⟩
  · have calls : tree.calls.map (Prod.map id (List.map Expression.ofTree)) = row.map PlacedCall.source := by
      rw [Tree.calls, ← callsOf_map, Program.uses_ofTree conforming rooted, sources]
    rw [List.forall₂_map_right_iff]
    apply forall₂_of_map_eq calls
    rintro ⟨callee, arguments⟩ member call inside source
    obtain ⟨front, back, split, length, _⟩ := laid.found_whole (order.mem_iff.mp inside)
    cases congrArg Prod.fst source
    exact PlacedCall.realizes split length (Tree.isExpression_argument conforming member) (congrArg Prod.snd source)
  · exact (order.map PlacedCall.block).nodup_iff.mpr laid.nodup
  · intro block
    rw [blocks, laid.mem_blocks_iff]
  · intro index instruction found part
    simp only [blocks]
    exact laid.existsUnique_covers found part
  · intro quiet block member
    obtain ⟨call, inside, rfl⟩ := List.mem_map.mp member
    have listed : call.source ∈ callsOf (Program.ofTree tree).uses := sources ▸ List.mem_map_of_mem inside
    rw [whole] at quiet ⊢
    obtain ⟨record, known, count⟩ := Program.calls_known quiet listed
    refine ⟨record, known, ?_⟩
    rw [count, Arguments.length_toList]
    exact (Arguments.length_places _ _).symm

/-- Calls among the arguments of calls, in expressions and as statements, and an alternative. -/
def nestedCalls : String :=
  "int f(int x, int y) \x7b return f(f(1, x), y); \x7d " ++
    "void h(void) \x7b if (f(2, f(3, 4))) \x7b f(5, 6); \x7d else \x7b f(7, 8); \x7d \x7d"

def nestedCallsCode : List Instruction :=
  [.label "f", .param "1", .param "x", .call "f" 2, .result "_v0", .param "_v0", .param "y", .call "f" 2, .result "_v1",
    .ret (some "_v1"), .label "h", .param "3", .param "4", .call "f" 2, .result "_v2", .param "2", .param "_v2",
    .call "f" 2, .result "_v3", .ifGoto "_v3" "__b0", .label "__b1", .param "7", .param "8", .call "f" 2, .result "_v5",
    .goto "__b2", .label "__b0", .param "5", .param "6", .call "f" 2, .result "_v4", .goto "__b2", .label "__b2"]

theorem calls_emitted_as_blocks_nested :
    ∃ tree, parseSource nestedCalls = .ok tree ∧ tree.conforms Language.grammar = true ∧
      tree.sign = .nonTerminal .program ∧ (Evaluation.ofTree tree).code = nestedCallsCode ∧
      (Evaluation.ofTree tree).errors = [] ∧ tree.calls.length = 6 ∧
      ∃ row : List Block, List.Forall₂ (Realizes nestedCallsCode) tree.calls row ∧ row.Nodup ∧
        ⟨15, "f", ["2", "_v2"], "_v3"⟩ ∈ row ∧
        ∃ record, (Evaluation.ofTree tree).symbols.function? "f" = some record ∧ record.params.length = 2 := by
  have passes : (Preview.descent 500).sourcePasses (fun _ program =>
      program.code .fresh = nestedCallsCode && (program.faults .empty).isEmpty && (callsOf program.uses).length = 6)
      nestedCalls = true := by
    decide +kernel
  obtain ⟨_, tree, _, parsed, passes⟩ := Preview.parseSource_of_sourcePasses passes
  obtain ⟨conforming, rooted⟩ := parseSource_conforms parsed
  simp only [Bool.and_eq_true, List.isEmpty_iff, decide_eq_true_eq] at passes
  obtain ⟨⟨code, quiet⟩, count⟩ := passes
  have whole := Evaluation.ofTree_eq_program conforming rooted
  have emitted : (Evaluation.ofTree tree).code = nestedCallsCode := by rw [whole, code]
  have silent : (Evaluation.ofTree tree).errors = [] := by rw [whole, quiet]
  rw [← Program.uses_ofTree conforming rooted, callsOf_map, List.length_map] at count
  obtain ⟨row, realized, distinct, standing, _, records⟩ := calls_emitted_as_blocks conforming rooted
  rw [emitted] at realized standing
  have outer : Block.Stands nestedCallsCode ⟨15, "f", ["2", "_v2"], "_v3"⟩ :=
    ⟨nestedCallsCode.take 15, nestedCallsCode.drop 19, rfl, rfl, fun last same => by cases same; rfl⟩
  have member := (standing _).mpr outer
  exact ⟨tree, parsed, conforming, rooted, emitted, silent, count, row, realized, distinct, member,
    records silent _ member⟩

end Minuscule
