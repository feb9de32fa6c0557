import Minuscule.Proofs.Elaboration

/-!
What an elaboration emits and what it reports, as functions of the syntax. The code of a phrase depends on the
phrase and on the numbers of the names handed out before it; the errors depend on the phrase and on the symbols
declared before it. Expressions and statements declare nothing.
-/

namespace Minuscule

open Minuscule.Action

namespace Names

def advance (names : Names) (temporaries labels : Nat) : Names :=
  ⟨names.temporaries + temporaries, names.labels + labels⟩

end Names

namespace Progress

/-- So many names later, with these errors behind the others. -/
def advance (progress : Progress) (temporaries labels : Nat) (faults : List SemanticError) : Progress :=
  ⟨progress.symbols, progress.names.advance temporaries labels, progress.errors ++ faults.toArray⟩

theorem advance_quiet (progress : Progress) (temporaries labels : Nat) :
    progress.advance temporaries labels [] =
      { progress with names := progress.names.advance temporaries labels } := by
  simp [advance]

theorem advance_zero (progress : Progress) : progress.advance 0 0 [] = progress := by
  simp [advance, Names.advance]

theorem advance_advance (progress : Progress) (temporaries labels temporaries' labels' : Nat)
    (faults faults' : List SemanticError) :
    (progress.advance temporaries labels faults).advance temporaries' labels' faults' =
      progress.advance (temporaries + temporaries') (labels + labels') (faults ++ faults') := by
  simp [advance, Names.advance, Nat.add_assoc]

end Progress

/-! Errors. -/

def Symbols.variableFaults (symbols : Symbols) (scope : Scope) (use : Occurrence) : List SemanticError :=
  match symbols.resolve? scope use.name with
  | some _ => []
  | none => [⟨.undefinedVariable use.name, use.line⟩]

def Symbols.elementFaults (symbols : Symbols) (scope : Scope) (use : Occurrence) (constant : Option Int) :
    List SemanticError :=
  match symbols.resolve? scope use.name with
  | none => [⟨.undefinedVariable use.name, use.line⟩]
  | some found =>
    if found.kind.isArray then
      match constant, found.kind.length? with
      | some index, some length =>
        if outOfBounds index length then [⟨.indexOutOfBounds use.name index length, use.line⟩] else []
      | _, _ => []
    else [⟨.notAnArray use.name, use.line⟩]

def Symbols.callFaults (symbols : Symbols) (callee : Occurrence) (count : Nat) : List SemanticError :=
  match symbols.function? callee.name with
  | none => [⟨.undefinedFunction callee.name, callee.line⟩]
  | some function =>
    if function.params.length ≠ count then
      [⟨.argumentCountMismatch callee.name function.params.length count, callee.line⟩]
    else []

theorem run_get (progress : Progress) : (get : Action Progress).run progress = (progress, progress) :=
  rfl

theorem run_report (cause : Cause) (line : Nat) (progress : Progress) :
    (report cause line).run progress = ((), progress.advance 0 0 [⟨cause, line⟩]) := by
  change ((), { progress with errors := progress.errors.push ⟨cause, line⟩ }) = _
  rw [Array.push_eq_append]
  rfl

theorem run_quiet (progress : Progress) : (pure () : Action Unit).run progress = ((), progress.advance 0 0 []) := by
  rw [Progress.advance_zero]
  rfl

theorem run_checkVariable (scope : Scope) (use : Occurrence) (progress : Progress) :
    (checkVariable scope use).run progress =
      ((), progress.advance 0 0 (progress.symbols.variableFaults scope use)) := by
  rw [checkVariable, run_bind, run_get]
  rcases found : progress.symbols.resolve? scope use.name with _ | entry <;> simp only [Symbols.variableFaults, found]
  · exact run_report _ _ progress
  · exact run_quiet progress

theorem run_checkElement (scope : Scope) (use : Occurrence) (constant : Option Int) (progress : Progress) :
    (checkElement scope use constant).run progress =
      ((), progress.advance 0 0 (progress.symbols.elementFaults scope use constant)) := by
  rw [checkElement, run_bind, run_get]
  rcases found : progress.symbols.resolve? scope use.name with _ | entry <;> simp only [Symbols.elementFaults, found]
  · exact run_report _ _ progress
  · by_cases array : entry.kind.isArray = true
    · rw [if_pos array, if_pos array]
      rcases constant with _ | index
      · exact run_quiet progress
      · rcases entry.kind.length? with _ | length
        · exact run_quiet progress
        · by_cases outside : outOfBounds index length = true
          · simp only [outside, if_true]
            exact run_report _ _ progress
          · simp only [outside]
            exact run_quiet progress
    · rw [if_neg array, if_neg array]
      exact run_report _ _ progress

theorem run_checkCall (callee : Occurrence) (count : Nat) (progress : Progress) :
    (checkCall callee count).run progress =
      ((), progress.advance 0 0 (progress.symbols.callFaults callee count)) := by
  rw [checkCall, run_bind, run_get]
  rcases found : progress.symbols.function? callee.name with _ | function <;> simp only [Symbols.callFaults, found]
  · exact run_report _ _ progress
  · split
    · exact run_report _ _ progress
    · exact run_quiet progress

theorem run_newTemporary (progress : Progress) :
    newTemporary.run progress = (temporary progress.names.temporaries, progress.advance 1 0 []) := by
  rw [Progress.advance_quiet]
  rfl

theorem run_newLabel (progress : Progress) :
    newLabel.run progress = (blockLabel progress.names.labels, progress.advance 0 1 []) := by
  rw [Progress.advance_quiet]
  rfl

theorem run_call (callee : Occurrence) (args : List String) (code : List Instruction) (progress : Progress) :
    (Action.call callee args code).run progress =
      (.ofValue (code ++ Layout.call callee.name args (temporary progress.names.temporaries))
        (temporary progress.names.temporaries),
        progress.advance 1 0 (progress.symbols.callFaults callee args.length)) := by
  rw [Action.call, run_bind, run_checkCall, run_bind, run_newTemporary, Progress.advance_advance]
  simp only [Nat.zero_add, List.append_nil]
  rfl

theorem run_foldChain (head : Attributes) (code : List Instruction) (links : List (Operator × String))
    (progress : Progress) :
    (foldChain head code links).run progress =
      (if links.isEmpty then head
        else .ofValue (head.code ++ code ++ Layout.chain progress.names.temporaries head.place links)
          (Layout.chainPlace progress.names.temporaries head.place links), progress.advance links.length 0 []) := by
  unfold foldChain
  split
  · next none =>
    rw [List.isEmpty_iff.mp none]
    exact Prod.ext rfl (Progress.advance_zero progress).symm
  · rw [Progress.advance_quiet]
    rfl

theorem run_selection (test consequent alternative : Attributes) (progress : Progress) :
    (selection test consequent alternative).run progress =
      (.ofCode (Layout.selection test.code test.place consequent.code alternative.code
        (blockLabel progress.names.labels) (blockLabel (progress.names.labels + 1))
        (blockLabel (progress.names.labels + 2))), progress.advance 0 3 []) := by
  rw [selection, run_bind, run_newLabel, run_bind, run_newLabel, run_bind, run_newLabel, Progress.advance_advance,
    Progress.advance_advance]
  rfl

theorem run_iteration (test body : Attributes) (progress : Progress) :
    (iteration test body).run progress =
      (.ofCode (Layout.iteration test.code test.place body.code
        (blockLabel progress.names.labels) (blockLabel (progress.names.labels + 1))
        (blockLabel (progress.names.labels + 2))), progress.advance 0 3 []) := by
  rw [iteration, run_bind, run_newLabel, run_bind, run_newLabel, run_bind, run_newLabel, Progress.advance_advance,
    Progress.advance_advance]
  rfl

/-! Expressions. -/

def Links.length : Links → Nat
  | .nil => 0
  | .cons _ _ rest => rest.length + 1

def Arguments.length : Arguments → Nat
  | .nil => 0
  | .cons _ rest => rest.length + 1

mutual

/-- How many temporaries an expression takes. -/
def Expression.temporaries : Expression → Nat
  | .number _ | .scalar _ => 0
  | .element _ index => index.temporaries + 1
  | .call _ arguments => arguments.temporaries + 1
  | .chain head links => head.temporaries + links.temporaries + links.length

def Links.temporaries : Links → Nat
  | .nil => 0
  | .cons _ operand rest => operand.temporaries + rest.temporaries

def Arguments.temporaries : Arguments → Nat
  | .nil => 0
  | .cons first rest => first.temporaries + rest.temporaries

end

mutual

/-- The place of the value when temporaries are numbered from `next` on. -/
def Expression.place (next : Nat) : Expression → String
  | .number literal => literal
  | .scalar use => use.name
  | .element _ index => temporary (next + index.temporaries)
  | .call _ arguments => temporary (next + arguments.temporaries)
  | .chain head links =>
    Layout.chainPlace (next + head.temporaries + links.temporaries) (head.place next)
      (links.operands (next + head.temporaries))

/-- The operators with the places of their right operands. -/
def Links.operands (next : Nat) : Links → List (Operator × String)
  | .nil => []
  | .cons operator operand rest =>
    (operator, operand.place next) :: rest.operands (next + operand.temporaries)

end

def Arguments.places (next : Nat) : Arguments → List String
  | .nil => []
  | .cons first rest => first.place next :: rest.places (next + first.temporaries)

mutual

def Expression.code (next : Nat) : Expression → List Instruction
  | .number _ | .scalar _ => []
  | .element use index =>
    index.code next ++ [.load (temporary (next + index.temporaries)) use.name (index.place next)]
  | .call callee arguments =>
    arguments.code next ++
      Layout.call callee.name (arguments.places next) (temporary (next + arguments.temporaries))
  | .chain head links =>
    head.code next ++ links.code (next + head.temporaries) ++
      Layout.chain (next + head.temporaries + links.temporaries) (head.place next)
        (links.operands (next + head.temporaries))

def Links.code (next : Nat) : Links → List Instruction
  | .nil => []
  | .cons _ operand rest => operand.code next ++ rest.code (next + operand.temporaries)

def Arguments.code (next : Nat) : Arguments → List Instruction
  | .nil => []
  | .cons first rest => first.code next ++ rest.code (next + first.temporaries)

end

/-- The text of a literal. -/
def Expression.literal? : Expression → Option String
  | .number literal => some literal
  | .chain head .nil => head.literal?
  | _ => none

def Expression.constant? (expression : Expression) : Option Int :=
  expression.literal?.bind Numeral.signed?

mutual

def Expression.faults (symbols : Symbols) (scope : Scope) : Expression → List SemanticError
  | .number _ => []
  | .scalar use => symbols.variableFaults scope use
  | .element use index => index.faults symbols scope ++ symbols.elementFaults scope use index.constant?
  | .call callee arguments => arguments.faults symbols scope ++ symbols.callFaults callee arguments.length
  | .chain head links => head.faults symbols scope ++ links.faults symbols scope

def Links.faults (symbols : Symbols) (scope : Scope) : Links → List SemanticError
  | .nil => []
  | .cons _ operand rest => operand.faults symbols scope ++ rest.faults symbols scope

def Arguments.faults (symbols : Symbols) (scope : Scope) : Arguments → List SemanticError
  | .nil => []
  | .cons first rest => first.faults symbols scope ++ rest.faults symbols scope

end

theorem Links.length_operands (next : Nat) : ∀ links : Links, (links.operands next).length = links.length
  | .nil => rfl
  | .cons _ operand rest => by
    rw [operands, List.length_cons, length_operands _ rest, length]

theorem Arguments.length_places (next : Nat) :
    ∀ arguments : Arguments, (arguments.places next).length = arguments.length
  | .nil => rfl
  | .cons first rest => by
    rw [places, List.length_cons, length_places _ rest, length]

mutual

theorem Expression.run_elaborate (scope : Scope) : ∀ (expression : Expression) (progress : Progress),
    (expression.elaborate scope).run progress =
      ({ code := expression.code progress.names.temporaries
         place := expression.place progress.names.temporaries
         constant := expression.constant? },
        progress.advance expression.temporaries 0 (expression.faults progress.symbols scope))
  | .number _, progress => Prod.ext rfl (Progress.advance_zero progress).symm
  | .scalar use, progress => by
    rw [Expression.elaborate, run_bind, run_checkVariable]
    rfl
  | .element use index, progress => by
    rw [Expression.elaborate, run_bind, Expression.run_elaborate scope index, run_bind, run_checkElement, run_bind,
      run_newTemporary, Progress.advance_advance, Progress.advance_advance]
    simp only [List.append_nil]
    rfl
  | .call callee arguments, progress => by
    rw [Expression.elaborate, run_bind, Arguments.run_elaborate scope arguments, run_call, Progress.advance_advance,
      Arguments.length_places]
    rfl
  | .chain head .nil, progress => by
    rw [Expression.elaborate, run_bind, Expression.run_elaborate scope head]
    simp only [Expression.code, Links.code, Links.operands, Layout.chain, Expression.temporaries, Links.temporaries,
      Links.length, Expression.faults, Links.faults, List.append_nil]
    rfl
  | .chain head (.cons operator operand rest), progress => by
    rw [Expression.elaborate, run_bind, Expression.run_elaborate scope head, run_bind,
      Links.run_elaborate scope (.cons operator operand rest), run_foldChain, Links.length_operands]
    refine Prod.ext rfl ?_
    simp only [Progress.advance_advance, List.append_nil]
    rfl

theorem Links.run_elaborate (scope : Scope) : ∀ (links : Links) (progress : Progress),
    (links.elaborate scope).run progress =
      ({ code := links.code progress.names.temporaries, chain := links.operands progress.names.temporaries },
        progress.advance links.temporaries 0 (links.faults progress.symbols scope))
  | .nil, progress => Prod.ext rfl (Progress.advance_zero progress).symm
  | .cons operator operand rest, progress => by
    rw [Links.elaborate, run_bind, Expression.run_elaborate scope operand, run_bind,
      Links.run_elaborate scope rest, Progress.advance_advance]
    rfl

theorem Arguments.run_elaborate (scope : Scope) : ∀ (arguments : Arguments) (progress : Progress),
    (arguments.elaborate scope).run progress =
      ({ code := arguments.code progress.names.temporaries, args := arguments.places progress.names.temporaries },
        progress.advance arguments.temporaries 0 (arguments.faults progress.symbols scope))
  | .nil, progress => Prod.ext rfl (Progress.advance_zero progress).symm
  | .cons first rest, progress => by
    rw [Arguments.elaborate, run_bind, Expression.run_elaborate scope first, run_bind,
      Arguments.run_elaborate scope rest, Progress.advance_advance]
    rfl

end

/-! Statements. -/

namespace Statement

def temporaries : Statement → Nat
  | .skip | .ret none => 0
  | .seq first rest => first.temporaries + rest.temporaries
  | .assign _ value | .ret (some value) => value.temporaries
  | .store _ index value => index.temporaries + value.temporaries
  | .call _ arguments => arguments.temporaries + 1
  | .select test consequent alternative => test.temporaries + consequent.temporaries + alternative.temporaries
  | .loop test body => test.temporaries + body.temporaries

/-- How many block labels a statement takes. -/
def labels : Statement → Nat
  | .skip | .assign .. | .store .. | .call .. | .ret _ => 0
  | .seq first rest => first.labels + rest.labels
  | .select _ consequent alternative => consequent.labels + alternative.labels + 3
  | .loop _ body => body.labels + 3

/-- The labels of a statement come behind those of its parts. -/
def code (names : Names) : Statement → List Instruction
  | .skip => []
  | .seq first rest => first.code names ++ rest.code (names.advance first.temporaries first.labels)
  | .assign target value =>
    value.code names.temporaries ++ [.assign target.name (value.place names.temporaries)]
  | .store target index value =>
    index.code names.temporaries ++ value.code (names.temporaries + index.temporaries) ++
      [.store target.name (index.place names.temporaries) (value.place (names.temporaries + index.temporaries))]
  | .call callee arguments =>
    arguments.code names.temporaries ++ Layout.call callee.name (arguments.places names.temporaries)
      (temporary (names.temporaries + arguments.temporaries))
  | .select test consequent alternative =>
    let inner := names.advance test.temporaries 0
    let other := inner.advance consequent.temporaries consequent.labels
    let label := other.labels + alternative.labels
    Layout.selection (test.code names.temporaries) (test.place names.temporaries) (consequent.code inner)
      (alternative.code other) (blockLabel label) (blockLabel (label + 1)) (blockLabel (label + 2))
  | .loop test body =>
    let inner := names.advance test.temporaries 0
    let label := names.labels + body.labels
    Layout.iteration (test.code names.temporaries) (test.place names.temporaries) (body.code inner)
      (blockLabel label) (blockLabel (label + 1)) (blockLabel (label + 2))
  | .ret none => [.ret none]
  | .ret (some value) => value.code names.temporaries ++ [.ret (some (value.place names.temporaries))]

def faults (symbols : Symbols) (scope : Scope) : Statement → List SemanticError
  | .skip | .ret none => []
  | .seq first rest => first.faults symbols scope ++ rest.faults symbols scope
  | .assign target value => value.faults symbols scope ++ symbols.variableFaults scope target
  | .store target index value =>
    index.faults symbols scope ++ value.faults symbols scope ++ symbols.elementFaults scope target index.constant?
  | .call callee arguments => arguments.faults symbols scope ++ symbols.callFaults callee arguments.length
  | .select test consequent alternative =>
    test.faults symbols scope ++ consequent.faults symbols scope ++ alternative.faults symbols scope
  | .loop test body => test.faults symbols scope ++ body.faults symbols scope
  | .ret (some value) => value.faults symbols scope

theorem run_elaborate (scope : Scope) (statement : Statement) (progress : Progress) :
    (statement.elaborate scope).run progress =
      (statement.code progress.names,
        progress.advance statement.temporaries statement.labels (statement.faults progress.symbols scope)) := by
  induction statement generalizing progress with
  | skip => exact Prod.ext rfl (Progress.advance_zero progress).symm
  | seq first rest ihFirst ihRest =>
    rw [elaborate, run_bind, ihFirst, run_bind, ihRest, Progress.advance_advance]
    rfl
  | assign target value =>
    rw [elaborate, run_bind, value.run_elaborate, run_bind, run_checkVariable, Progress.advance_advance]
    rfl
  | store target index value =>
    rw [elaborate, run_bind, index.run_elaborate, run_bind, value.run_elaborate, run_bind, run_checkElement,
      Progress.advance_advance, Progress.advance_advance]
    rfl
  | call callee arguments =>
    rw [elaborate, run_bind, arguments.run_elaborate, run_bind, run_call, Progress.advance_advance,
      Arguments.length_places]
    rfl
  | select test consequent alternative ihConsequent ihAlternative =>
    rw [elaborate, run_bind, test.run_elaborate, run_bind, ihConsequent, run_bind, ihAlternative, run_bind,
      run_selection]
    refine Prod.ext rfl ?_
    simp only [Progress.advance_advance, List.append_nil]
    simp only [labels, Nat.zero_add]
    rfl
  | loop test body ih =>
    rw [elaborate, run_bind, test.run_elaborate, run_bind, ih, run_bind, run_iteration]
    refine Prod.ext rfl ?_
    simp only [Progress.advance_advance, List.append_nil]
    simp only [labels, Nat.zero_add]
    rfl
  | ret value =>
    cases value with
    | none => exact Prod.ext rfl (Progress.advance_zero progress).symm
    | some value =>
      rw [elaborate, run_bind, value.run_elaborate]
      rfl

end Statement

end Minuscule
