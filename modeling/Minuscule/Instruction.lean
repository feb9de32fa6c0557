/-!
Three-address code. An instruction names at most three places, a place being a variable, a number or a
temporary. Every instruction has one line of text; a listing is these lines.
-/

namespace Minuscule

inductive Operator where
  | add | sub | mul | div | lt | le | gt | ge | eq | ne
  deriving DecidableEq, Repr

def Operator.text : Operator → String
  | add => "+"
  | sub => "-"
  | mul => "*"
  | div => "/"
  | lt => "<"
  | le => "<="
  | gt => ">"
  | ge => ">="
  | eq => "=="
  | ne => "!="

inductive Instruction where
  | assign (target source : String)
  | binary (target left : String) (operator : Operator) (right : String)
  | store (array index value : String)
  | load (target array index : String)
  | param (value : String)
  | call (function : String) (count : Nat)
  | result (target : String)
  | ret (value : Option String)
  | goto (target : String)
  | ifGoto (condition target : String)
  | label (name : String)
  deriving DecidableEq, Repr

namespace Instruction

def isLabel : Instruction → Bool
  | label _ => true
  | _ => false

def text : Instruction → String
  | assign target source => s!"{target} := {source}"
  | binary target left operator right => s!"{target} := {left} {operator.text} {right}"
  | store array index value => s!"{array}[{index}] := {value}"
  | load target array index => s!"{target} := {array}[{index}]"
  | param value => s!"param {value}"
  | call function count => s!"call {function}, {count}"
  | result target => s!"{target} := result"
  | ret none => "return"
  | ret (some value) => s!"return {value}"
  | goto target => s!"goto {target}"
  | ifGoto condition target => s!"if {condition} goto {target}"
  | label name => s!"{name}:"

end Instruction

def listing (code : List Instruction) : String :=
  String.join (code.map fun instruction => instruction.text ++ "\n")

end Minuscule
