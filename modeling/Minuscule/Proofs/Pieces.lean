import Minuscule.Language.Lexer

/-!
The pieces of a text. Where the lexer drops a row of blanks and comments, tests for the end and takes a token, it cuts
one piece after the other off the front: a blank or a comment, a token, or a text that is at fault. A reading is told
here piece by piece, and is the same.
-/

namespace Minuscule

inductive Piece where
  | skip
  | token (kind : Terminal)
  | fault (fault : Fault)
  deriving DecidableEq, Repr

namespace Piece

def ofGap : Except Fault Unit × Nat → Piece × Nat
  | (.ok (), more) => (skip, more)
  | (.error reason, more) => (fault reason, more)

def ofLexeme : Except Fault Terminal × Nat → Piece × Nat
  | (.ok kind, more) => (token kind, more)
  | (.error reason, more) => (fault reason, more)

section Answers
variable {more : Nat} {reason : Fault} {kind : Terminal}

theorem ofGap_eq_skip {answer : Except Fault Unit × Nat} : ofGap answer = (skip, more) ↔ answer = (.ok (), more) := by
  rcases answer with ⟨_ | _, _⟩ <;> simp [ofGap]

theorem ofGap_ne_token {answer : Except Fault Unit × Nat} : ofGap answer ≠ (token kind, more) := by
  rcases answer with ⟨_ | _, _⟩ <;> simp [ofGap]

theorem ofGap_eq_fault {answer : Except Fault Unit × Nat} :
    ofGap answer = (fault reason, more) ↔ answer = (.error reason, more) := by
  rcases answer with ⟨_ | _, _⟩ <;> simp [ofGap]

theorem ofLexeme_ne_skip {answer : Except Fault Terminal × Nat} : ofLexeme answer ≠ (skip, more) := by
  rcases answer with ⟨_ | _, _⟩ <;> simp [ofLexeme]

theorem ofLexeme_eq_token {answer : Except Fault Terminal × Nat} :
    ofLexeme answer = (token kind, more) ↔ answer = (.ok kind, more) := by
  rcases answer with ⟨_ | _, _⟩ <;> simp [ofLexeme]

theorem ofLexeme_eq_fault {answer : Except Fault Terminal × Nat} :
    ofLexeme answer = (fault reason, more) ↔ answer = (.error reason, more) := by
  rcases answer with ⟨_ | _, _⟩ <;> simp [ofLexeme]

end Answers

/-- The piece at the front of a text and the number of its characters after the first. -/
def scan (c : Char) (rest : List Char) : Piece × Nat :=
  match gap? c rest with
  | some answer => ofGap answer
  | none => ofLexeme (lexeme c rest)

theorem scan_eq_ite (c : Char) (rest : List Char) :
    scan c rest =
      if isBlank c then (skip, 0)
      else if c = '/' ∧ rest.head? = some '/' then (skip, lineComment rest)
      else if c = '/' ∧ rest.head? = some '*' then ofGap (blockComment rest)
      else if c.isDigit then ofLexeme (number c rest)
      else if isWordStart c then (token (word c rest).1, (word c rest).2)
      else ofLexeme (symbol c rest) := by
  unfold scan gap?
  by_cases blank : isBlank c = true
  · rw [if_pos blank, if_pos blank]
    rfl
  rw [if_neg blank, if_neg blank]
  by_cases line : c = '/' ∧ rest.head? = some '/'
  · rw [if_pos line, if_pos line]
    rfl
  rw [if_neg line, if_neg line]
  by_cases block : c = '/' ∧ rest.head? = some '*'
  · rw [if_pos block, if_pos block]
  rw [if_neg block, if_neg block]
  change ofLexeme (lexeme c rest) = _
  rw [lexeme]
  split
  · rfl
  · split <;> rfl

end Piece

namespace Lexer

/-- Reads on piece by piece. -/
def readPieces (lexer : Lexer) (tokens : List (Token Terminal)) :
    Except LexError (List (Token Terminal)) × Lexer :=
  match _text : lexer.rest with
  | [] => (.ok tokens.reverse, lexer)
  | c :: rest =>
    let (piece, more) := Piece.scan c rest
    let text := c :: rest.take more
    let next : Lexer := ⟨rest.drop more, lexer.position.after text⟩
    match piece with
    | .skip => next.readPieces tokens
    | .token kind => next.readPieces (⟨kind, String.ofList text, lexer.position.line⟩ :: tokens)
    | .fault fault => (.error ⟨fault, lexer.position⟩, next)
termination_by lexer.rest.length
decreasing_by all_goals
  simp only [_text, List.length_drop, List.length_cons]
  omega

theorem readOn_eq (lexer : Lexer) (tokens : List (Token Terminal)) :
    lexer.readOn tokens =
      match lexer.skip with
      | (.error error, left) => (.error error, left)
      | (.ok (), left) =>
        if left.isAtEnd then (.ok tokens.reverse, left)
        else match left.nextToken with
          | (.error error, left) => (.error error, left)
          | (.ok token, left) => left.readOn (token :: tokens) := by
  rw [readOn]
  split
  · next skipped => rw [skipped]
  · next skipped =>
    rw [skipped]
    dsimp only
    split
    · rfl
    · split
      · next taken => rw [taken]
      · next taken => rw [taken]

theorem skip_of_nil {lexer : Lexer} (ended : lexer.rest = []) : lexer.skip = (.ok (), lexer) := by
  rw [skip]
  split
  · rfl
  · next same => cases same.symm.trans ended

section Steps
variable {lexer : Lexer} {c : Char} {rest : List Char} {more : Nat} (here : lexer.rest = c :: rest)
include here

theorem skip_of_cons :
    lexer.skip =
      match Piece.gap? c rest with
      | none => (.ok (), lexer)
      | some (.error fault, more) => (.error ⟨fault, lexer.position⟩, behind lexer.position c rest more)
      | some (.ok (), more) => (behind lexer.position c rest more).skip := by
  rw [skip]
  split
  · next ended => cases ended.symm.trans here
  · next same =>
    cases same.symm.trans here
    rfl

theorem skip_of_closed (found : Piece.gap? c rest = some (.ok (), more)) :
    lexer.skip = (behind lexer.position c rest more).skip := by
  rw [skip_of_cons here, found]

theorem skip_of_open {fault : Fault} (found : Piece.gap? c rest = some (.error fault, more)) :
    lexer.skip = (.error ⟨fault, lexer.position⟩, behind lexer.position c rest more) := by
  rw [skip_of_cons here, found]

theorem skip_of_none (found : Piece.gap? c rest = none) : lexer.skip = (.ok (), lexer) := by
  rw [skip_of_cons here, found]

theorem readOn_of_lexeme (found : Piece.gap? c rest = none) (tokens : List (Token Terminal)) :
    lexer.readOn tokens =
      match Piece.lexeme c rest with
      | (.ok kind, more) => (behind lexer.position c rest more).readOn
        (⟨kind, String.ofList (c :: rest.take more), lexer.position.line⟩ :: tokens)
      | (.error fault, more) => (.error ⟨fault, lexer.position⟩, behind lexer.position c rest more) := by
  have going : ¬lexer.isAtEnd := by simp [isAtEnd, here]
  rw [readOn_eq, skip_of_none here found]
  dsimp only
  rw [if_neg going, nextToken, here]
  dsimp only
  rcases Piece.lexeme c rest with ⟨_ | _, _⟩ <;> rfl

end Steps

/-- To drop gaps, to test for the end and to take a token comes to cutting off pieces. -/
theorem readOn_eq_readPieces (lexer : Lexer) (tokens : List (Token Terminal)) :
    lexer.readOn tokens = lexer.readPieces tokens := by
  fun_induction readPieces lexer tokens with
  | case1 lexer tokens ended =>
    have last : lexer.isAtEnd = true := by simp [isAtEnd, ended]
    rw [readOn_eq, skip_of_nil ended]
    dsimp only
    rw [if_pos last]
  | case2 lexer tokens c rest here more text next scanned =>
    rename_i ih
    rw [← ih]
    unfold Piece.scan at scanned
    split at scanned
    · next found =>
      rw [Piece.ofGap_eq_skip.mp scanned] at found
      rw [readOn_eq, skip_of_closed here found, ← readOn_eq]
      rfl
    · exact absurd scanned Piece.ofLexeme_ne_skip
  | case3 lexer tokens c rest here more text next kind scanned =>
    rename_i ih
    rw [← ih]
    unfold Piece.scan at scanned
    split at scanned
    · exact absurd scanned Piece.ofGap_ne_token
    · next found =>
      rw [readOn_of_lexeme here found, Piece.ofLexeme_eq_token.mp scanned]
      rfl
  | case4 lexer tokens c rest here more text next fault scanned =>
    unfold Piece.scan at scanned
    split at scanned
    · next found =>
      rw [Piece.ofGap_eq_fault.mp scanned] at found
      rw [readOn_eq, skip_of_open here found]
      rfl
    · next found =>
      rw [readOn_of_lexeme here found, Piece.ofLexeme_eq_fault.mp scanned]
      rfl

theorem tokenize_eq_readPieces (lexer : Lexer) : lexer.tokenize = lexer.readPieces [] :=
  lexer.readOn_eq_readPieces []

end Lexer

end Minuscule
