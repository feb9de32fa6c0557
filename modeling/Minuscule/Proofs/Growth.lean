import Mathlib.Logic.Relation
import Minuscule.Proofs.Storage

/-!
What an evaluation can do to the symbols. However a tree is made up, its evaluation does three things to them: it
enters a variable in a scope, it opens a table for a function body, and it opens one together with the function. What
these three keep, every evaluation keeps.
-/

namespace Minuscule

open Minuscule.Action

namespace Symbols

/-- One change that an evaluation makes. -/
inductive Change : Symbols → Symbols → Prop where
  | enter (symbols : Symbols) (scope : Scope) (name : String) (kind : VariableKind) :
    Change symbols (symbols.enter scope name kind)
  | newLocals (symbols : Symbols) : Change symbols symbols.newLocals.2
  | openFunction (symbols : Symbols) (declarator : Declarator) (params : List Parameter) :
    Change symbols (symbols.openFunction declarator params)

/-- Any number of changes, one after the other. -/
abbrev Grows : Symbols → Symbols → Prop :=
  Relation.ReflTransGen Change

theorem grows_foldl (scope : Scope) (params : List Parameter) (symbols : Symbols) :
    symbols.Grows (params.foldl (Parameter.after scope) symbols) := by
  induction params generalizing symbols with
  | nil => exact .refl
  | cons parameter rest ih => exact .head (.enter symbols scope _ _) (ih _)

/-- Sound tables, and functions each of which has a table that no other function has. -/
structure Filed (symbols : Symbols) : Prop extends symbols.Consistent where
  bounded : ∀ function ∈ symbols.functions.entries, function.locals < symbols.locals.size
  separate : (symbols.functions.entries.map Function.locals).Nodup

theorem filed_empty : empty.Filed where
  toConsistent := consistent_empty
  bounded _ member := nomatch member
  separate := List.nodup_nil

namespace Filed
variable {symbols after : Symbols}

theorem enter (filed : symbols.Filed) (scope : Scope) (name : String) (kind : VariableKind) :
    (symbols.enter scope name kind).Filed where
  toConsistent := filed.toConsistent.enter scope name kind
  bounded := by
    have same := symbols.sameBut_enter scope name kind
    rw [same.functions, same.size]
    exact filed.bounded
  separate := by
    rw [(symbols.sameBut_enter scope name kind).functions]
    exact filed.separate

theorem newLocals (filed : symbols.Filed) : symbols.newLocals.2.Filed where
  toConsistent := filed.toConsistent.newLocals
  bounded function member := by
    have inside := filed.bounded function member
    simp only [Symbols.newLocals, Array.size_push]
    omega
  separate := filed.separate

/-- The table of a new function is the last one, and all other functions have earlier ones. -/
theorem openFunction (filed : symbols.Filed) (declarator : Declarator) (params : List Parameter) :
    (symbols.openFunction declarator params).Filed := by
  rw [Symbols.openFunction]
  rcases symbols.newLocals.2.define_cases (symbols.functionOf declarator params) with
    ⟨_, answer⟩ | ⟨absent, answer⟩ <;> rw [answer]
  · exact filed.newLocals
  · refine ⟨filed.newLocals.toConsistent.define absent, ?_, ?_⟩
    · simp only [NameTable.append]
      rw [List.forall_mem_append, List.forall_mem_singleton]
      refine ⟨filed.newLocals.bounded, ?_⟩
      simp [Symbols.functionOf, Symbols.newLocals]
    · have last : symbols.locals.size ∉ symbols.functions.entries.map Function.locals := by
        intro taken
        obtain ⟨function, member, same⟩ := List.mem_map.mp taken
        have inside := filed.bounded function member
        omega
      simp only [NameTable.append, List.map_append, List.map_singleton]
      rw [List.nodup_append_comm]
      exact List.nodup_cons.mpr ⟨last, filed.separate⟩

theorem change (filed : symbols.Filed) (changed : Change symbols after) : after.Filed := by
  cases changed with
  | enter scope name kind => exact filed.enter scope name kind
  | newLocals => exact filed.newLocals
  | openFunction declarator params => exact filed.openFunction declarator params

theorem grows (filed : symbols.Filed) (grown : symbols.Grows after) : after.Filed := by
  induction grown with
  | refl => exact filed
  | tail _ changed ih => exact ih.change changed

end Filed

end Symbols

namespace Action
variable {α β : Type}

/-- An action that makes changes of this kind only. -/
def Grows (action : Action α) : Prop :=
  ∀ progress : Progress, progress.symbols.Grows (action.run progress).2.symbols

theorem grows_pure (value : α) : Grows (pure value : Action α) :=
  fun _ => .refl

theorem Grows.bind {action : Action α} {next : α → Action β} (first : Grows action)
    (later : ∀ value, Grows (next value)) : Grows (action >>= next) := by
  intro progress
  rw [run_bind]
  exact (first progress).trans (later _ _)

/-- An action that leaves the symbols as they are. -/
theorem grows_of_idle {action : Action α}
    (idle : ∀ progress : Progress, (action.run progress).2.symbols = progress.symbols) : Grows action := by
  intro progress
  rw [idle progress]

theorem grows_report (cause : Cause) (line : Nat) : Grows (report cause line) :=
  grows_of_idle fun _ => rfl

theorem grows_newTemporary : Grows newTemporary :=
  grows_of_idle fun _ => rfl

theorem grows_checkVariable (scope : Scope) (use : Occurrence) : Grows (checkVariable scope use) :=
  grows_of_idle fun progress => by rw [run_checkVariable]; rfl

theorem grows_checkElement (scope : Scope) (use : Occurrence) (constant : Option Int) :
    Grows (checkElement scope use constant) :=
  grows_of_idle fun progress => by rw [run_checkElement]; rfl

theorem grows_call (callee : Occurrence) (args : List String) (code : List Instruction) :
    Grows (call callee args code) :=
  grows_of_idle fun progress => by rw [run_call]; rfl

theorem grows_foldChain (head : Attributes) (code : List Instruction) (links : List (Operator × String)) :
    Grows (foldChain head code links) :=
  grows_of_idle fun progress => by rw [run_foldChain]; rfl

theorem grows_selection (test consequent alternative : Attributes) : Grows (selection test consequent alternative) :=
  grows_of_idle fun progress => by rw [run_selection]; rfl

theorem grows_iteration (test body : Attributes) : Grows (iteration test body) :=
  grows_of_idle fun progress => by rw [run_iteration]; rfl

theorem grows_enter (scope : Scope) (subject : Occurrence) (kind : VariableKind) :
    Grows (enter scope subject kind) := by
  intro progress
  rw [run_enter]
  exact .single (.enter ..)

theorem grows_declareVariable (scope : Scope) (declarator : Declarator) (follow : Attributes) :
    Grows (declareVariable scope declarator follow) := by
  unfold declareVariable
  split
  · exact grows_report _ _
  · split
    · split
      · exact grows_enter _ _ _
      · exact grows_report _ _
    · exact grows_enter _ _ _

theorem grows_enterFunction (declarator : Option Declarator) (params : List Parameter) :
    Grows (enterFunction declarator params) := by
  intro progress
  cases declarator with
  | none => exact .single (.newLocals _)
  | some declarator =>
    rw [run_enterFunction]
    exact .head (.openFunction ..) (Symbols.grows_foldl ..)

theorem grows_assignment (inherited : Inherited) (subscript value : Attributes) :
    Grows (assignment inherited subscript value) := by
  unfold assignment
  split
  · exact grows_pure _
  · split
    · exact (grows_checkElement _ _ _).bind fun _ => grows_pure _
    · exact (grows_checkVariable _ _).bind fun _ => grows_pure _

theorem grows_identifier (scope : Scope) (use : Occurrence) (follow : Attributes) :
    Grows (identifier scope use follow) := by
  unfold identifier
  split
  · exact (grows_checkVariable _ _).bind fun _ => grows_pure _
  · exact (grows_checkElement _ _ _).bind fun _ => grows_newTemporary.bind fun _ => grows_pure _
  · exact grows_call _ _ _

/-- Only a function body is given a scope of its own. -/
theorem grows_inherit (rule : Rule) (inherited : Inherited) (done : List Attributes) :
    Grows (inherit rule inherited done) := by
  unfold inherit
  split
  case h_4 => exact (grows_enterFunction _ _).bind fun _ => grows_pure _
  all_goals exact grows_pure _

theorem grows_synthesize (rule : Rule) (inherited : Inherited) (children : List Attributes) :
    Grows (synthesize rule inherited children) := by
  cases rule
  case defineTypeVar | localVarDefine =>
    unfold synthesize
    dsimp only
    split
    · exact (grows_declareVariable _ _ _).bind fun _ => grows_pure _
    · exact grows_pure _
  case param =>
    unfold synthesize
    dsimp only
    split <;> exact grows_pure _
  case normalFollowAssign => exact grows_assignment _ _ _
  case normalFollowCall =>
    unfold synthesize
    dsimp only
    split
    · exact grows_pure _
    · exact grows_call _ _ _
  case selection => exact grows_selection _ _ _
  case iteration => exact grows_iteration _ _
  case expression | additiveExpr | term => exact grows_foldChain _ _ _
  case factorId => exact grows_identifier _ _ _
  all_goals exact grows_pure _

end Action

namespace Walk

def Step.progress : Step → Progress
  | .next walk => walk.progress
  | .finished _ progress => progress

theorem grows_step (walk : Walk) : walk.progress.symbols.Grows walk.step.progress.symbols := by
  unfold step
  split
  · exact .refl
  · split
    · exact grows_inherit _ _ _ _
    · dsimp only
      split <;> exact grows_synthesize _ _ _ _

theorem grows_run (walk : Walk) : walk.progress.symbols.Grows walk.run.2.symbols := by
  fun_induction run walk with
  | case1 walk next moved ih =>
    have first := grows_step walk
    rw [moved] at first
    exact first.trans ih
  | case2 walk attributes progress moved =>
    have last := grows_step walk
    rw [moved] at last
    exact last

end Walk

namespace Evaluation

/-- No tree makes other changes to the symbols. -/
theorem grows_ofTree (tree : ParseTree) : Symbols.empty.Grows (ofTree tree).symbols := by
  unfold ofTree
  rcases Frame.visit tree {} with attributes | frame
  · exact .refl
  · exact Walk.grows_run ⟨[frame], .start⟩

theorem filed_ofTree (tree : ParseTree) : (ofTree tree).symbols.Filed :=
  Symbols.filed_empty.grows (grows_ofTree tree)

end Evaluation

end Minuscule
