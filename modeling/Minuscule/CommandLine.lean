import Minuscule.Compile

/-!
The command line. It takes the name of one source file and flags that ask for the inner results to be
printed before the code: the lookahead sets, the parse table, the tokens and the tree. What is printed
before an error is found stays printed.
-/

namespace Minuscule.CommandLine

structure Options where
  showTokens : Bool := false
  showTree : Bool := false
  showSets : Bool := false
  showTable : Bool := false
  verbosity : Nat := 0
  file : Option String := none
  deriving DecidableEq, Repr

namespace Options

def withFile (options : Options) (name : String) : Option Options :=
  match options.file with
  | none => some { options with file := some name }
  | some _ => none

/-- The number of letters in a flag such as `-v` or `-vvv`. -/
def verbosityOf? (argument : String) : Option Nat :=
  match argument.toList with
  | '-' :: letters =>
    if letters ≠ [] ∧ letters.all (· = 'v') then some letters.length else none
  | _ => none

/-- A flag may be given once, except those that raise the verbosity. -/
def withFlag (options : Options) (argument : String) : Option Options :=
  match argument with
  | "--tokens" => if options.showTokens then none else some { options with showTokens := true }
  | "--tree" => if options.showTree then none else some { options with showTree := true }
  | "--sets" => if options.showSets then none else some { options with showSets := true }
  | "--table" => if options.showTable then none else some { options with showTable := true }
  | "--verbose" => some { options with verbosity := options.verbosity + 1 }
  | argument => (verbosityOf? argument).map fun count =>
    { options with verbosity := options.verbosity + count }

/-- A lone hyphen is a name and not a flag. -/
def isFlag (argument : String) : Bool :=
  argument.startsWith "-" && argument ≠ "-"

/-- After a double hyphen all arguments are names. -/
def read : List String → Options → Option Options
  | [], options => some options
  | "--" :: rest, options => rest.foldlM withFile options
  | argument :: rest, options => do
    let options ← if isFlag argument then options.withFlag argument else options.withFile argument
    read rest options

end Options

/-- Why the text of a file cannot be had. -/
inductive ReadError where
  | missing
  | notText
  | other (reason : String)
  deriving DecidableEq, Repr

def ReadError.text : ReadError → String
  | missing => "No such file or directory (os error 2)"
  | notText => "stream did not contain valid UTF-8"
  | other reason => reason

/-- What a run leaves behind. -/
structure Report where
  exitCode : Nat
  out : String
  err : String
  deriving DecidableEq, Repr

def padLeft (width : Nat) (text : String) : String :=
  "".pushn ' ' (width - text.length) ++ text

def padRight (width : Nat) (text : String) : String :=
  text.pushn ' ' (width - text.length)

/-- The line in four columns, the kind in twelve, then the text. -/
def tokenLine (token : Token Terminal) : String :=
  let line := padLeft 4 (toString token.line)
  let kind := padRight 12 token.kind.text
  s!"{line}  {kind} {token.lexeme}\n"

def tables (options : Options) : String :=
  (if options.showSets then Language.lookahead.text Language.grammar else "") ++
    if options.showTable then Language.table.text Language.grammar else ""

/-- The code of a tree, or its errors and their number. -/
def finish (out : String) (tree : ParseTree) : Report :=
  let evaluation := Evaluation.ofTree tree
  if evaluation.isOk then ⟨0, out ++ listing evaluation.code, ""⟩
  else
    let lines := evaluation.errors.map fun error => s!"Semantic error: {error.message}\n"
    ⟨1, out, String.join lines ++ s!"{evaluation.errors.length} error(s)\n"⟩

/-- A tree that was asked for is printed before it is evaluated. -/
def fromTokens (options : Options) (out : String) (tokens : List (Token Terminal)) : Report :=
  match Language.parser.parse tokens with
  | .ok tree => finish (if options.showTree then out ++ tree.text else out) tree
  | .error error =>
    let stage := if options.showTree then "Syntax error" else "Error"
    ⟨1, out, s!"{stage}: {error.message}\n"⟩

def fromSource (options : Options) (source : String) : Report :=
  let out := tables options
  match tokenize source with
  | .ok tokens =>
    let shown := if options.showTokens then String.join (tokens.map tokenLine) else ""
    fromTokens options (out ++ shown) tokens
  | .error error => ⟨1, out, error.message ++ "\n"⟩

def fromFile (options : Options) (name : String) : Except ReadError String → Report
  | .ok source => fromSource options source
  | .error reason => ⟨1, "", s!"Error: failed to read '{name}': {reason.text}\n"⟩

/-- The text of a file, if its bytes are text. -/
def decode (bytes : ByteArray) : Except ReadError String :=
  match String.fromUTF8? bytes with
  | some text => .ok text
  | none => .error .notText

def usage : Report :=
  ⟨2, "", "usage: [--tokens] [--tree] [--sets] [--table] [-v] FILE\n"⟩

/-- The options of a command line that names exactly one file. -/
def options? (arguments : List String) : Option (Options × String) := do
  let options ← Options.read arguments {}
  let name ← options.file
  return (options, name)

/-- A run, given what reading a file comes to. -/
def run (arguments : List String) (contents : String → Except ReadError String) : Report :=
  match options? arguments with
  | some (options, name) => fromFile options name (contents name)
  | none => usage

end Minuscule.CommandLine
