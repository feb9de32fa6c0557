/-!
A token is what a lexer hands to a parser: the kind of terminal it stands for, the text it was read
from and the line on which that text starts. Only the kind decides how a parse goes; the text and the
line travel with it into the tree.
-/

namespace Minuscule

structure Token (T : Type) where
  kind : T
  lexeme : String
  line : Nat
  deriving DecidableEq, Repr

end Minuscule
