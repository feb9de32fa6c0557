import Minuscule.Sign
import Std.Data.TreeSet

/-!
Context-free grammars. A grammar is a start symbol and a list of productions; the place of a
production in the list is its index, by which tables and trees refer to it. `Grammar.ofProductions`
accepts a list when the start symbol and every non-terminal on a right-hand side has a production and
no right-hand side uses a mark, and otherwise names the first thing that is wrong.
-/

namespace Minuscule

structure Production (T N : Type) where
  left : N
  right : List (Sign T N)
  deriving DecidableEq, Repr

namespace Production
variable {T N : Type}

def isEpsilon (production : Production T N) : Bool :=
  production.right.isEmpty

/-- `A -> X Y`, or `A -> ε` when nothing stands on the right. -/
def text [ToString T] [ToString N] (production : Production T N) : String :=
  let right := if production.isEpsilon then ["ε"] else production.right.map Sign.text
  s!"{production.left} -> " ++ " ".intercalate right

end Production

structure Grammar (T N : Type) where
  start : N
  productions : List (Production T N)
  deriving DecidableEq, Repr

/-- Why a list of productions is no grammar. -/
inductive GrammarError (T N : Type) where
  | missingStart (start : N)
  | undefinedNonTerminal (nonTerminal : N) (production : Production T N)
  | reservedSign (sign : Sign T N) (production : Production T N)
  deriving DecidableEq, Repr

def GrammarError.message {T N : Type} [ToString T] [ToString N] : GrammarError T N → String
  | missingStart start => s!"start symbol '{start}' has no production"
  | undefinedNonTerminal nonTerminal production =>
    s!"non-terminal '{nonTerminal}' used in '{production.text}' has no production"
  | reservedSign sign production => s!"reserved sign '{sign.text}' used in '{production.text}'"

namespace Grammar
variable {T N : Type}

def lefts (productions : List (Production T N)) : List N :=
  productions.map Production.left

/-- The first sign of a right-hand side that may not stand there. -/
def faultIn? [DecidableEq N] (defined : List N) (production : Production T N) :
    Option (GrammarError T N) :=
  production.right.findSome? fun
    | .terminal _ => none
    | .nonTerminal kind =>
      if kind ∈ defined then none else some (.undefinedNonTerminal kind production)
    | sign => some (.reservedSign sign production)

def ofProductions [DecidableEq N] (start : N) (productions : List (Production T N)) :
    Except (GrammarError T N) (Grammar T N) :=
  let defined := lefts productions
  if start ∈ defined then
    match productions.findSome? (faultIn? defined) with
    | none => .ok ⟨start, productions⟩
    | some fault => .error fault
  else .error (.missingStart start)

def nonTerminals [Ord N] (grammar : Grammar T N) : Std.TreeSet N :=
  .ofList (lefts grammar.productions)

def terminals [Ord T] (grammar : Grammar T N) : Std.TreeSet T :=
  .ofList <| grammar.productions.flatMap fun production => production.right.filterMap fun
    | .terminal kind => some kind
    | _ => none

/-- The productions of one non-terminal, each with its index. -/
def productionsOf [DecidableEq N] (grammar : Grammar T N) (left : N) :
    List (Nat × Production T N) :=
  grammar.productions.zipIdx.filterMap fun (production, index) =>
    if production.left = left then some (index, production) else none

/-- The text of a production by index; an index without a production shows itself. -/
def productionText [ToString T] [ToString N] (grammar : Grammar T N) (index : Nat) : String :=
  match grammar.productions[index]? with
  | some production => production.text
  | none => s!"<production {index}>"

end Grammar

end Minuscule
