import Minuscule.Language.Terminal
import Minuscule.Numeral
import Minuscule.Token

/-!
The lexer of C-minus. A source is cut into pieces from its front: blanks and comments, which are
dropped, tokens, and faults. A piece is as long as it can be. `gap?` says what blank or comment stands at
the front and `lexeme` what token, each with the number of characters beyond the first, so every piece
shortens the rest.

A lexer is the rest of a source and the position where the rest starts. It drops blanks and comments,
tests whether the source has ended, and if not takes the next token, until the end or the first fault; the
lexer that is left stands behind the faulty piece and can be asked again.
-/

namespace Minuscule

/-- Lines and columns count from one; a column is a character. -/
structure Position where
  line : Nat
  column : Nat
  deriving DecidableEq, Repr

namespace Position

def start : Position := ⟨1, 1⟩

def advance (position : Position) (c : Char) : Position :=
  if c = '\n' then ⟨position.line + 1, 1⟩ else ⟨position.line, position.column + 1⟩

def after (position : Position) (text : List Char) : Position :=
  text.foldl advance position

end Position

/-- Text that is no part of any token or comment, or no text where a token should be. -/
inductive Fault where
  | openComment
  | largeNumber (digits : String)
  | strayCharacter (c : Char)
  | endOfFile
  deriving DecidableEq, Repr

def Fault.text : Fault → String
  | openComment => "Unterminated block comment"
  | largeNumber digits => s!"Invalid integer literal: {digits}"
  | strayCharacter c => s!"Unexpected character: '{c}'"
  | endOfFile => "Unexpected end of file"

/-- A fault and the position where its text starts. -/
structure LexError where
  fault : Fault
  position : Position
  deriving DecidableEq, Repr

def LexError.message (error : LexError) : String :=
  s!"Lexer error at line {error.position.line}, column {error.position.column}: {error.fault.text}"

namespace Piece

def isBlank (c : Char) : Bool :=
  c = ' ' || c = '\t' || c = '\r' || c = '\n'

def isWordStart (c : Char) : Bool :=
  c.isAlpha || c = '_'

def isWordPart (c : Char) : Bool :=
  c.isAlphanum || c = '_'

/-- Numbers go up to the largest signed integer of 32 bits. -/
def largest : Nat := 0x7fffffff

/-- Characters up to and including the first end of a block comment, on top of those counted so far. -/
def closing? : Nat → List Char → Option Nat
  | counted, '*' :: '/' :: _ => some (counted + 2)
  | counted, _ :: rest => closing? (counted + 1) rest
  | _, [] => none

def lineComment (rest : List Char) : Nat :=
  (rest.takeWhile (· ≠ '\n')).length + 1

def blockComment (rest : List Char) : Except Fault Unit × Nat :=
  match closing? 0 (rest.drop 1) with
  | some length => (.ok (), length + 1)
  | none => (.error .openComment, rest.length)

def number (c : Char) (rest : List Char) : Except Fault Terminal × Nat :=
  let more := rest.takeWhile Char.isDigit
  let digits := c :: more
  if Numeral.value digits ≤ largest then (.ok .num, more.length)
  else (.error (.largeNumber (String.ofList digits)), more.length)

def word (c : Char) (rest : List Char) : Terminal × Nat :=
  let more := rest.takeWhile isWordPart
  (Terminal.ofWord (String.ofList (c :: more)), more.length)

/-- Operators and punctuation; an equals sign that follows may belong to the operator. -/
def symbol (c : Char) (rest : List Char) : Except Fault Terminal × Nat :=
  let one (kind : Terminal) : Except Fault Terminal × Nat := (.ok kind, 0)
  let equals := rest.head? = some '='
  let either (long short : Terminal) : Except Fault Terminal × Nat :=
    if equals then (.ok long, 1) else one short
  match c with
  | '+' => one .plus
  | '-' => one .minus
  | '*' => one .star
  | '/' => one .slash
  | '=' => either .eqEq .assign
  | '<' => either .le .lt
  | '>' => either .ge .gt
  | ';' => one .semicolon
  | ',' => one .comma
  | '(' => one .lparen
  | ')' => one .rparen
  | '[' => one .lbracket
  | ']' => one .rbracket
  | '\x7b' => one .lbrace
  | '\x7d' => one .rbrace
  | c => if c = '!' ∧ equals then (.ok .notEq, 1) else (.error (.strayCharacter c), 0)

/-- The blank or comment at the front of a text, if there is one: whether it is closed, and the number of its
characters after the first. -/
def gap? (c : Char) (rest : List Char) : Option (Except Fault Unit × Nat) :=
  if isBlank c then some (.ok (), 0)
  else if c = '/' ∧ rest.head? = some '/' then some (.ok (), lineComment rest)
  else if c = '/' ∧ rest.head? = some '*' then some (blockComment rest)
  else none

/-- The token at the front of a text that starts with no blank or comment, and the number of its characters after the
first. -/
def lexeme (c : Char) (rest : List Char) : Except Fault Terminal × Nat :=
  if c.isDigit then number c rest
  else if isWordStart c then
    let (kind, more) := word c rest
    (.ok kind, more)
  else symbol c rest

end Piece

structure Lexer where
  rest : List Char
  position : Position
  deriving DecidableEq, Repr

namespace Lexer

def ofString (source : String) : Lexer :=
  ⟨source.toList, .start⟩

def isAtEnd (lexer : Lexer) : Bool :=
  lexer.rest.isEmpty

/-- The lexer behind a character and so many more. -/
def behind (position : Position) (c : Char) (rest : List Char) (more : Nat) : Lexer :=
  ⟨rest.drop more, position.after (c :: rest.take more)⟩

/-- Drops blanks and comments. A comment may be open. -/
def skip (lexer : Lexer) : Except LexError Unit × Lexer :=
  match _text : lexer.rest with
  | [] => (.ok (), lexer)
  | c :: rest =>
    match Piece.gap? c rest with
    | none => (.ok (), lexer)
    | some (.error fault, more) => (.error ⟨fault, lexer.position⟩, behind lexer.position c rest more)
    | some (.ok (), more) => (behind lexer.position c rest more).skip
termination_by lexer.rest.length
decreasing_by
  simp only [_text, behind, List.length_drop, List.length_cons]
  omega

/-- Takes the token at the front, where there has to be one. -/
def nextToken (lexer : Lexer) : Except LexError (Token Terminal) × Lexer :=
  match lexer.rest with
  | [] => (.error ⟨.endOfFile, lexer.position⟩, lexer)
  | c :: rest =>
    match Piece.lexeme c rest with
    | (.ok kind, more) =>
      (.ok ⟨kind, String.ofList (c :: rest.take more), lexer.position.line⟩, behind lexer.position c rest more)
    | (.error fault, more) => (.error ⟨fault, lexer.position⟩, behind lexer.position c rest more)

theorem length_skip (lexer : Lexer) : lexer.skip.2.rest.length ≤ lexer.rest.length := by
  fun_induction skip lexer with
  | case1 | case2 => exact Nat.le_refl _
  | case3 lexer c rest text =>
    simp only [text, behind, List.length_drop, List.length_cons]
    omega
  | case4 lexer c rest text more _ ih =>
    refine Nat.le_trans ih ?_
    simp only [text, behind, List.length_drop, List.length_cons]
    omega

theorem length_nextToken {lexer : Lexer} (more : ¬lexer.isAtEnd) :
    lexer.nextToken.2.rest.length < lexer.rest.length := by
  unfold nextToken
  split
  · next ended => simp [isAtEnd, ended] at more
  · next c rest text =>
    split <;>
    · simp only [text, behind, List.length_drop, List.length_cons]
      omega

/-- Reads on from the tokens read so far, the last of which comes first. -/
def readOn (lexer : Lexer) (tokens : List (Token Terminal)) :
    Except LexError (List (Token Terminal)) × Lexer :=
  match _skipped : lexer.skip with
  | (.error error, left) => (.error error, left)
  | (.ok (), left) =>
    if _ended : left.isAtEnd then (.ok tokens.reverse, left)
    else match _taken : left.nextToken with
      | (.error error, left) => (.error error, left)
      | (.ok token, left) => left.readOn (token :: tokens)
termination_by lexer.rest.length
decreasing_by
  have fewer := length_skip lexer
  have less := length_nextToken _ended
  simp only [_skipped] at fewer
  simp only [_taken] at less
  omega

/-- All tokens up to the end of the source, or the first fault; and the lexer behind what was read. -/
def tokenize (lexer : Lexer) : Except LexError (List (Token Terminal)) × Lexer :=
  lexer.readOn []

/-- The answers of so many readings in a row, each of which starts where the last one stopped. -/
def readings (lexer : Lexer) : Nat → List (Except LexError (List (Token Terminal)))
  | 0 => []
  | calls + 1 =>
    let (answer, next) := lexer.tokenize
    answer :: next.readings calls

end Lexer

/-- The tokens of a source text. -/
def tokenize (source : String) : Except LexError (List (Token Terminal)) :=
  (Lexer.ofString source).tokenize.1

end Minuscule
