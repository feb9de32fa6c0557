import Minuscule.Attribute.Walk
import Minuscule.Language.Grammar
import Minuscule.Language.Lexer

/-!
From source text to three-address code. A source becomes tokens, tokens become a tree, and the tree is
evaluated; the first of the three that fails decides the error. An evaluation fails if it has found any
error, and then all of them are the error.
-/

namespace Minuscule

inductive CompileError where
  | lexical (error : LexError)
  | syntactic (error : SyntaxError Terminal NonTerminal)
  | semantic (errors : List SemanticError)
  deriving DecidableEq, Repr

def CompileError.message : CompileError → String
  | lexical error => error.message
  | syntactic error => error.message
  | semantic errors => s!"{errors.length} semantic error(s)"

def parseTokens (tokens : List (Token Terminal)) : Except CompileError ParseTree :=
  (Language.parser.parse tokens).mapError .syntactic

def parseSource (source : String) : Except CompileError ParseTree := do
  let tokens ← (tokenize source).mapError .lexical
  parseTokens tokens

def Evaluation.result (evaluation : Evaluation) : Except CompileError (List Instruction) :=
  if evaluation.isOk then .ok evaluation.code else .error (.semantic evaluation.errors)

def compileTokens (tokens : List (Token Terminal)) : Except CompileError (List Instruction) := do
  let tree ← parseTokens tokens
  (Evaluation.ofTree tree).result

def compile (source : String) : Except CompileError (List Instruction) := do
  let tokens ← (tokenize source).mapError .lexical
  compileTokens tokens

end Minuscule
