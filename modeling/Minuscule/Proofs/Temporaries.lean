import Minuscule.Proofs.ControlFlow

/-!
The life of a temporary. Every temporary that is handed out is the destination of one instruction. What the code of an
expression reads, together with the place of its value, is what the source names there and each temporary of the
expression once; so a temporary is read once, unless it is the result of a call statement and is not read at all. All
that is read lies in the stretch of straight code in which it was left.
-/

namespace Minuscule

namespace Instruction

/-- Where an operator, a load or a call leaves its result. -/
def destination? : Instruction → Option String
  | binary target .. | load target .. | result target => some target
  | _ => none

/-- What an instruction reads. An array that is indexed counts as read, whether an element is taken or set. -/
def operands : Instruction → List String
  | assign _ source => [source]
  | binary _ left _ right => [left, right]
  | store array index value => [array, index, value]
  | load _ array index => [array, index]
  | param value => [value]
  | ret value => value.toList
  | ifGoto condition _ => [condition]
  | call .. | result _ | goto _ | label _ => []

/-- Where straight code ends. -/
def isBoundary : Instruction → Bool
  | label _ | goto _ | ifGoto .. => true
  | _ => false

end Instruction

/-- The form of the names of temporaries: `_v` and a number. -/
def isTemporary (name : String) : Bool :=
  match name.toList with
  | '_' :: 'v' :: digits => !digits.isEmpty && digits.all Char.isDigit
  | _ => false

theorem isTemporary_temporary (number : Nat) : isTemporary (temporary number) = true := by
  rw [isTemporary, toList_temporary]
  have digits : (Nat.toDigits 10 number).all Char.isDigit = true := by
    rw [List.all_eq_true]
    intro digit member
    exact Nat.isDigit_of_mem_toDigits (by decide) (by decide) member
  have some : (Nat.toDigits 10 number).isEmpty = false := by
    rw [List.isEmpty_eq_false_iff]
    exact Nat.toDigits_ne_nil
  simp [digits, some]

theorem isTemporary_eq_false {name : String} (other : name.toList.head? ≠ some '_') : isTemporary name = false := by
  unfold isTemporary
  split
  · next digits spelled =>
    rw [spelled] at other
    exact absurd rfl other
  · rfl

/-- The temporaries with so many numbers from the first on. -/
def temporariesFrom (first count : Nat) : List String :=
  (List.range' first count).map temporary

theorem temporariesFrom_add (first count more : Nat) :
    temporariesFrom first (count + more) = temporariesFrom first count ++ temporariesFrom (first + count) more := by
  rw [temporariesFrom, ← List.range'_append_1, List.map_append]
  rfl

theorem temporariesFrom_succ (first count : Nat) :
    temporariesFrom first (count + 1) = temporary first :: temporariesFrom (first + 1) count :=
  rfl

theorem temporariesFrom_one (first : Nat) : temporariesFrom first 1 = [temporary first] :=
  rfl

theorem nodup_temporariesFrom (first count : Nat) : (temporariesFrom first count).Nodup := by
  apply List.Nodup.map _ List.nodup_range'
  intro number number' same
  exact temporary_injective same

theorem isTemporary_of_mem {first count : Nat} {place : String} (member : place ∈ temporariesFrom first count) :
    isTemporary place = true := by
  obtain ⟨number, _, rfl⟩ := List.mem_map.mp member
  exact isTemporary_temporary number

/-- The destinations of a piece of code. -/
def written (code : List Instruction) : List String :=
  code.filterMap Instruction.destination?

/-- What a piece of code reads, as often as it reads it. -/
def reads (code : List Instruction) : List String :=
  code.flatMap Instruction.operands

theorem written_append (code more : List Instruction) : written (code ++ more) = written code ++ written more :=
  List.filterMap_append

theorem reads_append (code more : List Instruction) : reads (code ++ more) = reads code ++ reads more :=
  List.flatMap_append

/-! Calls and chains. -/

theorem written_call (function : String) (args : List String) (target : String) :
    written (Layout.call function args target) = [target] := by
  have params : written (args.map .param) = [] := by
    rw [written, List.filterMap_map, List.filterMap_eq_nil_iff]
    exact fun _ _ => rfl
  rw [Layout.call, written_append, params]
  rfl

theorem reads_call (function : String) (args : List String) (target : String) :
    reads (Layout.call function args target) = args := by
  have params : reads (args.map .param) = args := by
    rw [reads, List.flatMap_map]
    exact List.flatMap_singleton' args
  rw [Layout.call, reads_append, params]
  exact List.append_nil args

theorem written_chain (next : Nat) (place : String) (operands : List (Operator × String)) :
    written (Layout.chain next place operands) = temporariesFrom next operands.length := by
  induction operands generalizing next place with
  | nil => rfl
  | cons operand rest ih =>
    obtain ⟨operator, right⟩ := operand
    rw [List.length_cons, temporariesFrom_succ, ← ih]
    rfl

/-- A chain reads its operands and all its temporaries but the last, which is its place. -/
theorem perm_chain (next : Nat) (place : String) (operands : List (Operator × String)) :
    List.Perm (reads (Layout.chain next place operands) ++ [Layout.chainPlace next place operands])
      (place :: operands.map Prod.snd ++ temporariesFrom next operands.length) := by
  induction operands generalizing next place with
  | nil => exact .refl _
  | cons operand rest ih =>
    obtain ⟨operator, right⟩ := operand
    have first : reads (Layout.chain next place ((operator, right) :: rest)) =
        place :: right :: reads (Layout.chain (next + 1) (temporary next) rest) := rfl
    rw [first, List.length_cons, temporariesFrom_succ]
    apply List.Perm.cons
    apply List.Perm.cons
    refine (ih (next + 1) (temporary next)).trans ?_
    exact List.perm_middle.symm

/-! Expressions. -/

mutual

/-- The names and literals of the source that an expression reads. -/
def Expression.leaves : Expression → List String
  | .number literal => [literal]
  | .scalar use => [use.name]
  | .element use index => use.name :: index.leaves
  | .call _ arguments => arguments.leaves
  | .chain head links => head.leaves ++ links.leaves

def Links.leaves : Links → List String
  | .nil => []
  | .cons _ operand rest => operand.leaves ++ rest.leaves

def Arguments.leaves : Arguments → List String
  | .nil => []
  | .cons first rest => first.leaves ++ rest.leaves

end

mutual

theorem Expression.written_code : ∀ (expression : Expression) (next : Nat),
    written (expression.code next) = temporariesFrom next expression.temporaries
  | .number _, _ => rfl
  | .scalar _, _ => rfl
  | .element use index, next => by
    rw [Expression.code, written_append, Expression.written_code index, Expression.temporaries, temporariesFrom_add]
    rfl
  | .call callee arguments, next => by
    rw [Expression.code, written_append, Arguments.written_code arguments, written_call, Expression.temporaries,
      temporariesFrom_add]
    rfl
  | .chain head links, next => by
    rw [Expression.code, written_append, written_append, Expression.written_code head, Links.written_code links,
      written_chain, Links.length_operands, Expression.temporaries, temporariesFrom_add, temporariesFrom_add,
      Nat.add_assoc]

theorem Links.written_code : ∀ (links : Links) (next : Nat),
    written (links.code next) = temporariesFrom next links.temporaries
  | .nil, _ => rfl
  | .cons operator operand rest, next => by
    rw [Links.code, written_append, Expression.written_code operand, Links.written_code rest, Links.temporaries,
      temporariesFrom_add]

theorem Arguments.written_code : ∀ (arguments : Arguments) (next : Nat),
    written (arguments.code next) = temporariesFrom next arguments.temporaries
  | .nil, _ => rfl
  | .cons first rest, next => by
    rw [Arguments.code, written_append, Expression.written_code first, Arguments.written_code rest,
      Arguments.temporaries, temporariesFrom_add]

end

mutual

/-- An expression reads what the source names, and each of its temporaries once up to its place. -/
theorem Expression.perm_reads : ∀ (expression : Expression) (next : Nat),
    List.Perm (reads (expression.code next) ++ [expression.place next])
      (expression.leaves ++ temporariesFrom next expression.temporaries)
  | .number _, _ => .refl _
  | .scalar _, _ => .refl _
  | .element use index, next => by
    apply List.perm_iff_count.mpr
    intro place
    have inner := (Expression.perm_reads index next).count_eq place
    have last : reads [.load (temporary (next + index.temporaries)) use.name (index.place next)] =
        [use.name] ++ [index.place next] := rfl
    have named : (Expression.element use index).leaves = [use.name] ++ index.leaves := rfl
    rw [Expression.code, reads_append, last, named, Expression.temporaries, temporariesFrom_add, temporariesFrom_one,
      Expression.place]
    simp only [List.count_append] at inner ⊢
    omega
  | .call callee arguments, next => by
    rw [Expression.code, reads_append, reads_call, Expression.leaves, Expression.temporaries, temporariesFrom_add,
      temporariesFrom_one, Expression.place, ← List.append_assoc]
    exact (Arguments.perm_reads arguments next).append_right _
  | .chain head links, next => by
    apply List.perm_iff_count.mpr
    intro place
    have first := (Expression.perm_reads head next).count_eq place
    have others := (Links.perm_reads links (next + head.temporaries)).count_eq place
    have last := (perm_chain (next + head.temporaries + links.temporaries) (head.place next)
      (links.operands (next + head.temporaries))).count_eq place
    rw [Links.length_operands, ← List.singleton_append (x := head.place next)] at last
    rw [Expression.code, reads_append, reads_append, Expression.leaves, Expression.temporaries, temporariesFrom_add,
      temporariesFrom_add, Expression.place, ← Nat.add_assoc]
    simp only [List.count_append] at first others last ⊢
    omega

theorem Links.perm_reads : ∀ (links : Links) (next : Nat),
    List.Perm (reads (links.code next) ++ (links.operands next).map Prod.snd)
      (links.leaves ++ temporariesFrom next links.temporaries)
  | .nil, _ => .refl _
  | .cons operator operand rest, next => by
    apply List.perm_iff_count.mpr
    intro place
    have first := (Expression.perm_reads operand next).count_eq place
    have others := (Links.perm_reads rest (next + operand.temporaries)).count_eq place
    rw [Links.code, reads_append, Links.operands, List.map_cons, ← List.singleton_append, Links.leaves,
      Links.temporaries, temporariesFrom_add]
    simp only [List.count_append] at first others ⊢
    omega

theorem Arguments.perm_reads : ∀ (arguments : Arguments) (next : Nat),
    List.Perm (reads (arguments.code next) ++ arguments.places next)
      (arguments.leaves ++ temporariesFrom next arguments.temporaries)
  | .nil, _ => .refl _
  | .cons first rest, next => by
    apply List.perm_iff_count.mpr
    intro place
    have here := (Expression.perm_reads first next).count_eq place
    have others := (Arguments.perm_reads rest (next + first.temporaries)).count_eq place
    rw [Arguments.code, reads_append, Arguments.places, ← List.singleton_append, Arguments.leaves,
      Arguments.temporaries, temporariesFrom_add]
    simp only [List.count_append] at here others ⊢
    omega

end

/-! Statements. -/

theorem written_selection (test consequent alternative : List Instruction)
    (condition consequentLabel alternativeLabel joinLabel : String) :
    written (Layout.selection test condition consequent alternative consequentLabel alternativeLabel joinLabel) =
      written test ++ written alternative ++ written consequent := by
  simp only [Layout.selection, written_append]
  simp [written, List.filterMap_cons, Instruction.destination?]

theorem reads_selection (test consequent alternative : List Instruction)
    (condition consequentLabel alternativeLabel joinLabel : String) :
    reads (Layout.selection test condition consequent alternative consequentLabel alternativeLabel joinLabel) =
      reads test ++ [condition] ++ reads alternative ++ reads consequent := by
  simp only [Layout.selection, reads_append]
  simp [reads, Instruction.operands]

theorem infix_selection (test consequent alternative : List Instruction)
    (condition consequentLabel alternativeLabel joinLabel : String) :
    alternative <:+:
      Layout.selection test condition consequent alternative consequentLabel alternativeLabel joinLabel := by
  rw [Layout.selection, List.append_assoc, List.append_assoc]
  exact List.infix_append _ _ _

theorem written_iteration (test body : List Instruction) (condition testLabel bodyLabel endLabel : String) :
    written (Layout.iteration test condition body testLabel bodyLabel endLabel) = written test ++ written body := by
  simp only [Layout.iteration, written_append]
  simp [written, List.filterMap_cons, Instruction.destination?]

theorem reads_iteration (test body : List Instruction) (condition testLabel bodyLabel endLabel : String) :
    reads (Layout.iteration test condition body testLabel bodyLabel endLabel) =
      reads test ++ [condition] ++ reads body := by
  simp only [Layout.iteration, reads_append]
  simp [reads, Instruction.operands]

/-- A call statement, with the number of its first temporary. -/
structure CallSite where
  next : Nat
  callee : Occurrence
  arguments : Arguments

namespace CallSite

/-- Where the call leaves its result. -/
def result (site : CallSite) : String :=
  temporary (site.next + site.arguments.temporaries)

def code (site : CallSite) : List Instruction :=
  site.arguments.code site.next ++ Layout.call site.callee.name (site.arguments.places site.next) site.result

end CallSite

namespace Statement

/-- The names and literals of the source that a statement reads. The element of an array that is set counts too. -/
def leaves : Statement → List String
  | .skip | .ret none => []
  | .seq first rest => first.leaves ++ rest.leaves
  | .assign _ value | .ret (some value) => value.leaves
  | .store target index value => [target.name] ++ index.leaves ++ value.leaves
  | .call _ arguments => arguments.leaves
  | .select test consequent alternative => test.leaves ++ consequent.leaves ++ alternative.leaves
  | .loop test body => test.leaves ++ body.leaves

/-- The call statements inside a statement whose temporaries are numbered from `next` on. -/
def callSites (next : Nat) : Statement → List CallSite
  | .skip | .assign .. | .store .. | .ret _ => []
  | .seq first rest => first.callSites next ++ rest.callSites (next + first.temporaries)
  | .call callee arguments => [⟨next, callee, arguments⟩]
  | .select test consequent alternative =>
    consequent.callSites (next + test.temporaries) ++
      alternative.callSites (next + test.temporaries + consequent.temporaries)
  | .loop test body => body.callSites (next + test.temporaries)

/-- The alternative of a selection stands in front of the consequent and takes its temporaries behind it. -/
theorem perm_written (statement : Statement) (names : Names) :
    List.Perm (written (statement.code names)) (temporariesFrom names.temporaries statement.temporaries) := by
  induction statement generalizing names with
  | skip => exact .refl _
  | seq first rest ihFirst ihRest =>
    rw [code, written_append, temporaries, temporariesFrom_add]
    exact (ihFirst names).append (ihRest _)
  | assign target value =>
    rw [code, written_append, value.written_code]
    exact .of_eq (List.append_nil _)
  | store target index value =>
    rw [code, written_append, written_append, index.written_code, value.written_code, temporaries, temporariesFrom_add]
    exact .of_eq (List.append_nil _)
  | call callee arguments =>
    rw [code, written_append, arguments.written_code, written_call, temporaries, temporariesFrom_add]
    exact .refl _
  | select test consequent alternative ihConsequent ihAlternative =>
    rw [code, written_selection, test.written_code, temporaries, temporariesFrom_add, temporariesFrom_add,
      List.append_assoc, List.append_assoc, ← Nat.add_assoc]
    have inner := ihConsequent (names.advance test.temporaries 0)
    have outer := ihAlternative ((names.advance test.temporaries 0).advance consequent.temporaries consequent.labels)
    exact (List.perm_append_comm.trans (inner.append outer)).append_left _
  | loop test body ih =>
    rw [code, written_iteration, test.written_code, temporaries, temporariesFrom_add]
    exact (ih _).append_left _
  | ret value =>
    cases value with
    | none => exact .refl _
    | some value =>
      rw [code, written_append, value.written_code]
      exact .of_eq (List.append_nil _)

/-- A statement reads what the source names, and each of its temporaries once except the results of call statements. -/
theorem perm_reads (statement : Statement) (names : Names) :
    List.Perm (reads (statement.code names) ++ (statement.callSites names.temporaries).map CallSite.result)
      (statement.leaves ++ temporariesFrom names.temporaries statement.temporaries) := by
  induction statement generalizing names with
  | skip => exact .refl _
  | seq first rest ihFirst ihRest =>
    apply List.perm_iff_count.mpr
    intro place
    have early := (ihFirst names).count_eq place
    have late := (ihRest (names.advance first.temporaries first.labels)).count_eq place
    simp only [code, leaves, callSites, temporaries, temporariesFrom_add, reads_append, List.map_append,
      List.count_append, Names.advance] at early late ⊢
    omega
  | assign target value =>
    rw [code, reads_append, callSites, List.map_nil, List.append_nil]
    exact value.perm_reads names.temporaries
  | store target index value =>
    apply List.perm_iff_count.mpr
    intro place
    have first := (index.perm_reads names.temporaries).count_eq place
    have second := (value.perm_reads (names.temporaries + index.temporaries)).count_eq place
    have last : reads [.store target.name (index.place names.temporaries)
        (value.place (names.temporaries + index.temporaries))] =
        [target.name] ++ [index.place names.temporaries] ++
          [value.place (names.temporaries + index.temporaries)] := rfl
    simp only [code, leaves, callSites, temporaries, temporariesFrom_add, reads_append, last, List.map_nil,
      List.append_nil, List.count_append] at first second ⊢
    omega
  | call callee arguments =>
    rw [code, reads_append, reads_call, callSites, temporaries, temporariesFrom_add, ← List.append_assoc]
    exact (arguments.perm_reads names.temporaries).append_right _
  | select test consequent alternative ihConsequent ihAlternative =>
    apply List.perm_iff_count.mpr
    intro place
    have first := (test.perm_reads names.temporaries).count_eq place
    have inner := (ihConsequent (names.advance test.temporaries 0)).count_eq place
    have outer := (ihAlternative ((names.advance test.temporaries 0).advance consequent.temporaries
      consequent.labels)).count_eq place
    simp only [code, leaves, callSites, temporaries, temporariesFrom_add, reads_selection, List.map_append,
      List.count_append, Names.advance, ← Nat.add_assoc] at first inner outer ⊢
    omega
  | loop test body ih =>
    apply List.perm_iff_count.mpr
    intro place
    have first := (test.perm_reads names.temporaries).count_eq place
    have inner := (ih (names.advance test.temporaries 0)).count_eq place
    simp only [code, leaves, callSites, temporaries, temporariesFrom_add, reads_iteration, List.count_append,
      Names.advance] at first inner ⊢
    omega
  | ret value =>
    cases value with
    | none => exact .refl _
    | some value =>
      rw [code, reads_append, callSites, List.map_nil, List.append_nil]
      exact value.perm_reads names.temporaries

/-- The code of a call statement stands in the code of each statement around it. -/
theorem infix_code (statement : Statement) (names : Names) :
    ∀ site ∈ statement.callSites names.temporaries, site.code <:+: statement.code names := by
  induction statement generalizing names with
  | skip | assign | store | ret => exact fun _ member => nomatch member
  | seq first rest ihFirst ihRest =>
    rw [callSites, List.forall_mem_append]
    exact ⟨fun site member => (ihFirst names site member).trans (List.prefix_append ..).isInfix,
      fun site member => (ihRest (names.advance first.temporaries first.labels) site member).trans
        (List.suffix_append ..).isInfix⟩
  | call callee arguments =>
    rw [callSites, List.forall_mem_singleton]
    exact List.infix_refl _
  | select test consequent alternative ihConsequent ihAlternative =>
    let inner := names.advance test.temporaries 0
    let other := inner.advance consequent.temporaries consequent.labels
    rw [callSites, List.forall_mem_append]
    exact ⟨fun site member => (ihConsequent inner site member).trans (List.infix_append _ _ _),
      fun site member => (ihAlternative other site member).trans (infix_selection ..)⟩
  | loop test body ih =>
    intro site member
    exact (ih (names.advance test.temporaries 0) site member).trans (List.infix_append _ _ _)

end Statement

/-! Programs. -/

namespace Program

def temporaries (program : Program) : Nat :=
  sumOf (fun definition => definition.body.temporaries) program

def leaves (program : Program) : List String :=
  program.flatMap fun definition => definition.body.leaves

def callSites (next : Nat) : Program → List CallSite
  | [] => []
  | definition :: rest => definition.body.callSites next ++ callSites (next + definition.body.temporaries) rest

theorem temporaries_definition (definition : Definition) (names : Names) :
    (definition.names names).temporaries = names.temporaries + definition.body.temporaries := by
  obtain ⟨declarator, length | ⟨params, locals, body⟩⟩ := definition <;> rfl

theorem temporaries_names (program : Program) (names : Names) :
    (Program.names names program).temporaries = names.temporaries + program.temporaries := by
  induction program generalizing names with
  | nil => rfl
  | cons definition rest ih =>
    rw [Program.names, ih, temporaries_definition, Nat.add_assoc]
    rfl

theorem written_definition (definition : Definition) (names : Names) :
    written (definition.code names) = written (definition.body.code names) := by
  obtain ⟨declarator, length | ⟨params, locals, body⟩⟩ := definition <;> rfl

theorem reads_definition (definition : Definition) (names : Names) :
    reads (definition.code names) = reads (definition.body.code names) := by
  obtain ⟨declarator, length | ⟨params, locals, body⟩⟩ := definition <;> rfl

theorem perm_written (program : Program) (names : Names) :
    List.Perm (written (program.code names)) (temporariesFrom names.temporaries program.temporaries) := by
  induction program generalizing names with
  | nil => exact .refl _
  | cons definition rest ih =>
    have later := ih (definition.names names)
    rw [temporaries_definition] at later
    rw [code, written_append, written_definition, temporaries, sumOf_cons, temporariesFrom_add]
    exact (definition.body.perm_written names).append later

theorem perm_reads (program : Program) (names : Names) :
    List.Perm (reads (program.code names) ++ (program.callSites names.temporaries).map CallSite.result)
      (program.leaves ++ temporariesFrom names.temporaries program.temporaries) := by
  induction program generalizing names with
  | nil => exact .refl _
  | cons definition rest ih =>
    apply List.perm_iff_count.mpr
    intro place
    have here := (definition.body.perm_reads names).count_eq place
    have later := (ih (definition.names names)).count_eq place
    rw [temporaries_definition] at later
    simp only [code, leaves, callSites, temporaries, sumOf_cons, temporariesFrom_add, reads_append, reads_definition,
      List.flatMap_cons, List.map_append, List.count_append] at here later ⊢
    omega

theorem infix_code (program : Program) (names : Names) :
    ∀ site ∈ program.callSites names.temporaries, site.code <:+: program.code names := by
  induction program generalizing names with
  | nil => exact fun _ member => nomatch member
  | cons definition rest ih =>
    have later := ih (definition.names names)
    rw [temporaries_definition] at later
    rw [callSites, List.forall_mem_append]
    refine ⟨fun site member => ?_, fun site member => (later site member).trans (List.suffix_append ..).isInfix⟩
    refine List.IsInfix.trans ?_ (List.prefix_append ..).isInfix
    obtain ⟨declarator, length | ⟨params, locals, body⟩⟩ := definition
    · cases member
    · exact (body.infix_code names site member).trans (List.suffix_cons ..).isInfix

end Program

end Minuscule
