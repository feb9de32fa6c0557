import Minuscule.Grammar
import Minuscule.Measure
import Std.Data.TreeMap

/-!
First and Follow sets. Both families of sets start out small and grow: one pass runs over all
productions and adds what each of them gives, and passes are repeated until one adds nothing. A family
holds at most the grammar's terminals and one mark for each non-terminal, so the number of passes is
bounded by that many members and one more.
-/

namespace Minuscule

abbrev SignSet (T N : Type) [Ord T] [Ord N] := Std.TreeSet (Sign T N)

/-- One set for each non-terminal. -/
abbrev SignSets (T N : Type) [Ord T] [Ord N] := Std.TreeMap N (SignSet T N)

namespace SignSets
variable {T N : Type} [Ord T] [Ord N]

/-- Nothing is known of a non-terminal without a set: it counts as empty. -/
def of (sets : SignSets T N) (nonTerminal : N) : SignSet T N :=
  sets.getD nonTerminal ∅

def add (sets : SignSets T N) (nonTerminal : N) (members : SignSet T N) : SignSets T N :=
  sets.insert nonTerminal (sets.of nonTerminal ∪ members)

def none (grammar : Grammar T N) : SignSets T N :=
  .ofList (grammar.nonTerminals.toList.map fun nonTerminal => (nonTerminal, ∅))

def members (sets : SignSets T N) : List (N × List (Sign T N)) :=
  sets.toList.map fun (nonTerminal, set) => (nonTerminal, set.toList)

def count (sets : SignSets T N) : Nat :=
  sumOf (fun (_, set) => set.length) sets.members

/-- Repeats a pass that only ever adds members until it adds none. -/
def settle (pass : SignSets T N → SignSets T N) : Nat → SignSets T N → SignSets T N
  | 0, sets => sets
  | rounds + 1, sets =>
    let grown := pass sets
    if grown.count = sets.count then grown else settle pass rounds grown

end SignSets

/-- The First and the Follow set of every non-terminal of a grammar. -/
structure Lookahead (T N : Type) [Ord T] [Ord N] where
  first : SignSets T N
  follow : SignSets T N

namespace Lookahead
variable {T N : Type} [Ord T] [Ord N]

/-- First of one sign. Terminals and marks stand for themselves. -/
def firstOf (first : SignSets T N) : Sign T N → SignSet T N
  | .nonTerminal kind => first.of kind
  | sign => {sign}

/-- First of a sequence. It holds `ε` exactly when every sign of the sequence may vanish. -/
def firstOfAll (first : SignSets T N) : List (Sign T N) → SignSet T N
  | [] => {Sign.epsilon}
  | sign :: rest =>
    let head := firstOf first sign
    if head.contains .epsilon then head.erase .epsilon ∪ firstOfAll first rest else head

def firstPass (grammar : Grammar T N) (first : SignSets T N) : SignSets T N :=
  grammar.productions.foldl
    (fun sets production => sets.add production.left (firstOfAll sets production.right)) first

/-- What may follow each non-terminal of a right-hand side: whatever the rest of it starts with and,
when the rest may vanish, whatever follows the left-hand side. -/
def followAlong (first : SignSets T N) (left : N) :
    List (Sign T N) → SignSets T N → SignSets T N
  | [], sets => sets
  | .nonTerminal kind :: rest, sets =>
    let next := firstOfAll first rest
    let members := if next.contains .epsilon then next.erase .epsilon ∪ sets.of left else next
    followAlong first left rest (sets.add kind members)
  | _ :: rest, sets => followAlong first left rest sets

def followPass (grammar : Grammar T N) (first follow : SignSets T N) : SignSets T N :=
  grammar.productions.foldl
    (fun sets production => followAlong first production.left production.right sets) follow

/-- Enough passes for a family of sets over the terminals and one mark. -/
def rounds (grammar : Grammar T N) : Nat :=
  grammar.nonTerminals.size * (grammar.terminals.size + 1) + 1

def firstSets (grammar : Grammar T N) : SignSets T N :=
  (SignSets.none grammar).settle (firstPass grammar) (rounds grammar)

def followSets (grammar : Grammar T N) (first : SignSets T N) : SignSets T N :=
  ((SignSets.none grammar).add grammar.start {Sign.endMark}).settle (followPass grammar first)
    (rounds grammar)

def ofGrammar (grammar : Grammar T N) : Lookahead T N :=
  let first := firstSets grammar
  ⟨first, followSets grammar first⟩

instance [DecidableEq T] [DecidableEq N] : BEq (Lookahead T N) where
  beq a b := a.first.members == b.first.members && a.follow.members == b.follow.members

/-- The sets of a grammar's non-terminals, one line each, First before Follow. -/
def text [ToString T] [ToString N] (sets : Lookahead T N) (grammar : Grammar T N) : String :=
  let line (name : String) (nonTerminal : N) (set : SignSet T N) : String :=
    let members := ", ".intercalate (set.toList.map Sign.text)
    s!"{name}({nonTerminal}) = \x7b {members} \x7d\n"
  String.join <| grammar.nonTerminals.toList.map fun nonTerminal =>
    line "FIRST" nonTerminal (sets.first.of nonTerminal) ++
      line "FOLLOW" nonTerminal (sets.follow.of nonTerminal)

end Lookahead

end Minuscule
