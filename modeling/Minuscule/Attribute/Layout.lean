import Minuscule.Instruction
import Minuscule.Names

/-!
How the code of a construct is laid out from the code of its parts.
-/

namespace Minuscule.Layout

/-- The test jumps over the alternative to the consequent, and both end at the join. -/
def selection (test : List Instruction) (condition : String) (consequent alternative : List Instruction)
    (consequentLabel alternativeLabel joinLabel : String) : List Instruction :=
  test ++ [.ifGoto condition consequentLabel, .label alternativeLabel] ++ alternative ++
    [.goto joinLabel, .label consequentLabel] ++ consequent ++ [.goto joinLabel, .label joinLabel]

/-- The test is run before each round and jumps into the body or falls through to the exit. -/
def iteration (test : List Instruction) (condition : String) (body : List Instruction)
    (testLabel bodyLabel endLabel : String) : List Instruction :=
  [.label testLabel] ++ test ++
    [.ifGoto condition bodyLabel, .goto endLabel, .label bodyLabel] ++ body ++
    [.goto testLabel, .label endLabel]

/-- The arguments in their order, the call, and where its result goes. -/
def call (function : String) (args : List String) (target : String) : List Instruction :=
  args.map .param ++ [.call function args.length, .result target]

/-- A chain of operators from the left: each takes what the one before it left in its temporary. The
temporaries are numbered from `next` on. -/
def chain (next : Nat) (place : String) : List (Operator × String) → List Instruction
  | [] => []
  | (operator, right) :: rest =>
    .binary (temporary next) place operator right :: chain (next + 1) (temporary next) rest

/-- The place that holds the value of a chain. -/
def chainPlace (next : Nat) (place : String) : List (Operator × String) → String
  | [] => place
  | _ :: rest => chainPlace (next + 1) (temporary next) rest

end Minuscule.Layout
