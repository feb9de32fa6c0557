import Minuscule.Language.Rule
import Minuscule.Parser

/-!
The grammar of C-minus with its lookahead sets, its parse table and its parser. The grammar is LL(1): no
two productions claim one cell, so the table is the one that is built.
-/

namespace Minuscule.Language

def grammar : Grammar Terminal NonTerminal :=
  ⟨.program, Rule.productions⟩

def lookahead : Lookahead Terminal NonTerminal :=
  .ofGrammar grammar

def table : Table Terminal NonTerminal :=
  match Table.build grammar lookahead with
  | .ok table => table
  | .error _ => .empty

def parser : Parser Terminal NonTerminal :=
  ⟨grammar, table⟩

end Minuscule.Language
