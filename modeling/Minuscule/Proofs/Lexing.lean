import Minuscule.Proofs.Lexemes

/-!
A source text is taken apart into tokens and the gaps around them. A gap is a row of blanks and comments, each token
has a text of its kind and could not go on, and its line counts the line ends in front of it. There is at most one
such division of a source, since what stands at the front of a text decides the next cut; the lexer finds it, and
fails when there is none.
-/

namespace Minuscule

/-- Blanks and comments in a row, in front of a text. -/
inductive Gap : List Char → List Char → Prop
  | nil {after : List Char} : Gap [] after
  | cons {piece rest after : List Char} (skips : Piece.Skips piece (rest ++ after)) (later : Gap rest after) :
      Gap (piece ++ rest) after

/-- Gaps and tokens in turn, with a gap at both ends. -/
inductive Division where
  | last (gap : List Char)
  | next (gap : List Char) (token : Token Terminal) (rest : Division)

namespace Division

def text : Division → List Char
  | last gap => gap
  | next gap token rest => gap ++ (token.lexeme.toList ++ rest.text)

def tokens : Division → List (Token Terminal)
  | last _ => []
  | next _ token rest => token :: rest.tokens

/-- A division of what comes behind the given text. -/
def Proper (before : List Char) : Division → Prop
  | last gap => Gap gap []
  | next gap token rest =>
    Gap gap (token.lexeme.toList ++ rest.text) ∧
      token.kind.HasText token.lexeme.toList ∧ token.kind.EndsBefore rest.text ∧
      token.line = 1 + (before ++ gap).count '\n' ∧
      rest.Proper (before ++ gap ++ token.lexeme.toList)

/-- A longer first gap. -/
def widen (piece : List Char) : Division → Division
  | last gap => last (piece ++ gap)
  | next gap token rest => next (piece ++ gap) token rest

theorem text_widen (piece : List Char) (division : Division) :
    (division.widen piece).text = piece ++ division.text := by
  cases division with
  | last gap => rfl
  | next gap token rest => simp [widen, text]

theorem tokens_widen (piece : List Char) (division : Division) : (division.widen piece).tokens = division.tokens := by
  cases division <;> rfl

theorem Proper.widen {before piece : List Char} {division : Division} (skips : Piece.Skips piece division.text)
    (proper : division.Proper (before ++ piece)) : (division.widen piece).Proper before := by
  cases division with
  | last gap =>
    rw [text, ← List.append_nil gap] at skips
    exact .cons skips proper
  | next gap token rest =>
    obtain ⟨between, text, ends, line, later⟩ := proper
    refine ⟨.cons skips between, text, ends, ?_, ?_⟩
    · rwa [List.append_assoc] at line
    · rwa [List.append_assoc before] at later

end Division

namespace Position

theorem after_append (position : Position) (front back : List Char) :
    position.after (front ++ back) = (position.after front).after back :=
  List.foldl_append

theorem line_after (position : Position) (text : List Char) :
    (position.after text).line = position.line + text.count '\n' := by
  induction text generalizing position with
  | nil => rfl
  | cons c rest ih =>
    change ((position.advance c).after rest).line = _
    rw [ih, List.count_cons, advance]
    by_cases newline : c = '\n'
    · simp only [newline, if_true, beq_self_eq_true]
      omega
    · simp [newline]

/-- The line counts the line ends of all that has been read. -/
theorem line_after_of_line {position : Position} {before : List Char} (line : position.line = 1 + before.count '\n')
    (text : List Char) : (position.after text).line = 1 + (before ++ text).count '\n' := by
  rw [line_after, line, List.count_append]
  omega

end Position

namespace Piece

theorem Cuts.unique {piece piece' : Piece} {first : Char} {more more' after after' : List Char}
    (cuts : Cuts piece first more after) (cuts' : Cuts piece' first more' after')
    (same : more ++ after = more' ++ after') : piece = piece' ∧ more = more' ∧ after = after' := by
  obtain ⟨scanned, taken, left⟩ := cuts
  obtain ⟨scanned', taken', left'⟩ := cuts'
  rw [same] at scanned taken left
  exact ⟨scanned.symm.trans scanned', taken.symm.trans taken', left.symm.trans left'⟩

theorem Skips.eq_cons {piece after : List Char} (skips : Skips piece after) : ∃ first more, piece = first :: more := by
  cases skips with
  | blank => exact ⟨_, _, rfl⟩
  | line => exact ⟨_, _, rfl⟩
  | lastLine => exact ⟨_, _, rfl⟩
  | block => exact ⟨_, _, rfl⟩

end Piece

theorem Terminal.HasText.eq_cons {kind : Terminal} {text : List Char} (spelled : kind.HasText text) :
    ∃ first more, text = first :: more := by
  cases text with
  | cons first more => exact ⟨first, more, rfl⟩
  | nil =>
    exfalso
    cases kind
    case ident =>
      obtain ⟨⟨_, _, impossible, _⟩, _⟩ := spelled
      cases impossible
    case num => exact spelled.1 rfl
    all_goals cases spelled

namespace Lexer

theorem readPieces_skip {first : Char} {more after : List Char} (cuts : Piece.Cuts .skip first more after)
    (position : Position) (tokens : List (Token Terminal)) :
    readPieces ⟨first :: (more ++ after), position⟩ tokens =
      readPieces ⟨after, position.after (first :: more)⟩ tokens := by
  obtain ⟨scanned, taken, left⟩ := cuts
  rw [readPieces]
  simp only [taken, left]
  rw [scanned]

theorem readPieces_token {kind : Terminal} {first : Char} {more after : List Char}
    (cuts : Piece.Cuts (.token kind) first more after) (position : Position) (tokens : List (Token Terminal)) :
    readPieces ⟨first :: (more ++ after), position⟩ tokens = readPieces ⟨after, position.after (first :: more)⟩
      (⟨kind, String.ofList (first :: more), position.line⟩ :: tokens) := by
  obtain ⟨scanned, taken, left⟩ := cuts
  rw [readPieces]
  simp only [taken, left]
  rw [scanned]

/-- Gaps are passed over. -/
theorem readPieces_gap {gap after : List Char} (row : Gap gap after) (position : Position)
    (tokens : List (Token Terminal)) :
    readPieces ⟨gap ++ after, position⟩ tokens = readPieces ⟨after, position.after gap⟩ tokens := by
  induction row generalizing position with
  | nil => rfl
  | @cons piece rest after skips later ih =>
    obtain ⟨first, more, rfl⟩ := skips.eq_cons
    rw [List.append_assoc, List.cons_append, readPieces_skip skips.cuts, ih, Position.after_append]

/-- The tokens of a proper division are read one after the other. -/
theorem readPieces_division {division : Division} {before : List Char} (proper : division.Proper before)
    {position : Position} (line : position.line = 1 + before.count '\n') (tokens : List (Token Terminal)) :
    (readPieces ⟨division.text, position⟩ tokens).1 = .ok (tokens.reverse ++ division.tokens) := by
  induction division generalizing before position tokens with
  | last gap =>
    have row := readPieces_gap proper position tokens
    rw [List.append_nil] at row
    rw [Division.text, row, readPieces, Division.tokens, List.append_nil]
  | next gap token rest ih =>
    obtain ⟨kind, lexeme, tokenLine⟩ := token
    obtain ⟨between, spelled, ends, counted, later⟩ := proper
    dsimp only at between spelled ends counted later
    obtain ⟨first, more, text⟩ := spelled.eq_cons
    rw [text] at spelled between later
    have reached := Position.line_after_of_line line gap
    have behind := Position.line_after_of_line reached (first :: more)
    have here : tokenLine = (position.after gap).line := counted.trans reached.symm
    have own : lexeme = String.ofList (first :: more) := by
      rw [← text, String.ofList_toList]
    rw [Division.text, text, readPieces_gap between, List.cons_append, readPieces_token (spelled.cuts ends),
      ih later behind,
      Division.tokens, here, own]
    simp

/-- What is read without a fault has a proper division. -/
theorem exists_division {lexer : Lexer} {tokens found : List (Token Terminal)}
    (read : (lexer.readPieces tokens).1 = .ok found) {before : List Char}
    (line : lexer.position.line = 1 + before.count '\n') :
    ∃ division : Division, division.Proper before ∧ division.text = lexer.rest ∧
      tokens.reverse ++ division.tokens = found := by
  fun_induction Lexer.readPieces lexer tokens generalizing before with
  | case1 lexer tokens ended =>
    cases read
    exact ⟨.last [], .nil, ended.symm, by simp [Division.tokens]⟩
  | case2 lexer tokens c rest here more text next scanned =>
    rename_i ih
    obtain ⟨division, proper, left, found⟩ := ih read (Position.line_after_of_line line text)
    have skips : Piece.Skips text division.text := by
      rw [left]
      exact Piece.skips_of_scan scanned
    refine ⟨division.widen text, proper.widen skips, ?_, ?_⟩
    · rw [Division.text_widen, left, here, List.cons_append, List.take_append_drop]
    · rw [Division.tokens_widen, found]
  | case3 lexer tokens c rest here more text next kind scanned =>
    rename_i ih
    obtain ⟨division, proper, left, found⟩ := ih read (Position.line_after_of_line line text)
    obtain ⟨spelled, ends⟩ := Piece.token_of_scan scanned
    refine ⟨.next [] ⟨kind, String.ofList text, lexer.position.line⟩ division, ⟨.nil, ?_, ?_, ?_, ?_⟩, ?_, ?_⟩
    · rw [String.toList_ofList]
      exact spelled
    · rw [left]
      exact ends
    · rw [List.append_nil]
      exact line
    · rw [List.append_nil, String.toList_ofList]
      exact proper
    · rw [Division.text, String.toList_ofList, left, here, List.nil_append, List.cons_append, List.take_append_drop]
    · rw [← found]
      simp [Division.tokens]
  | case4 => cases read

end Lexer

namespace Division

/-- No blank or comment starts this text. -/
def Solid (text : List Char) : Prop :=
  ∀ piece after, text = piece ++ after → ¬ Piece.Skips piece after

theorem solid_nil : Solid [] := by
  intro piece after split skips
  obtain ⟨first, more, rfl⟩ := skips.eq_cons
  cases split

theorem solid_token {kind : Terminal} {text after : List Char} (spelled : kind.HasText text)
    (ends : kind.EndsBefore after) : Solid (text ++ after) := by
  intro piece behind split skips
  obtain ⟨first, more, rfl⟩ := spelled.eq_cons
  obtain ⟨first', more', rfl⟩ := skips.eq_cons
  obtain ⟨rfl, same⟩ := List.cons.inj split
  obtain ⟨impossible, _⟩ := (spelled.cuts ends).unique skips.cuts same
  cases impossible

/-- A gap goes up to where neither a blank nor a comment follows. -/
theorem gap_unique {gap gap' after after' : List Char} (row : Gap gap after) (row' : Gap gap' after')
    (solid : Solid after) (solid' : Solid after') (same : gap ++ after = gap' ++ after') :
    gap = gap' ∧ after = after' := by
  induction row generalizing gap' with
  | nil =>
    cases row' with
    | nil => exact ⟨rfl, same⟩
    | cons skips _ => exact absurd skips (solid _ _ (same.trans (List.append_assoc ..)))
  | @cons piece rest after skips later ih =>
    cases row' with
    | nil => exact absurd skips (solid' _ _ (same.symm.trans (List.append_assoc ..)))
    | @cons piece' rest' _ skips' later' =>
      obtain ⟨first, more, rfl⟩ := skips.eq_cons
      obtain ⟨first', more', rfl⟩ := skips'.eq_cons
      simp only [List.append_assoc, List.cons_append, List.cons.injEq] at same
      obtain ⟨rfl, same⟩ := same
      obtain ⟨_, rfl, behind⟩ := skips.cuts.unique skips'.cuts same
      obtain ⟨rfl, rfl⟩ := ih later' solid behind
      exact ⟨rfl, rfl⟩

theorem token_unique {kind kind' : Terminal} {text text' after after' : List Char} (spelled : kind.HasText text)
    (spelled' : kind'.HasText text') (ends : kind.EndsBefore after) (ends' : kind'.EndsBefore after')
    (same : text ++ after = text' ++ after') : kind = kind' ∧ text = text' ∧ after = after' := by
  obtain ⟨first, more, rfl⟩ := spelled.eq_cons
  obtain ⟨first', more', rfl⟩ := spelled'.eq_cons
  obtain ⟨rfl, inner⟩ := List.cons.inj same
  obtain ⟨piece, rfl, rfl⟩ := (spelled.cuts ends).unique (spelled'.cuts ends') inner
  cases piece
  exact ⟨rfl, rfl, rfl⟩

/-- A gap up to the end is no division with a token. -/
theorem Proper.text_ne {before gap gap' : List Char} {token : Token Terminal} {rest : Division}
    (proper : (next gap token rest).Proper before) (whole : Gap gap' []) : (next gap token rest).text ≠ gap' := by
  intro same
  obtain ⟨row, spelled, ends, _⟩ := proper
  rw [text, ← List.append_nil gap'] at same
  obtain ⟨_, impossible⟩ := gap_unique row whole (solid_token spelled ends) solid_nil same
  obtain ⟨first, more, cons⟩ := spelled.eq_cons
  rw [cons] at impossible
  cases impossible

/-- A text has at most one proper division. -/
theorem Proper.unique {before : List Char} {one other : Division} (proper : one.Proper before)
    (proper' : other.Proper before) (same : one.text = other.text) : one = other := by
  induction one generalizing before other with
  | last gap =>
    cases other with
    | last gap' => exact congrArg last same
    | next gap' token' rest' => exact absurd same.symm (proper'.text_ne proper)
  | next gap token rest ih =>
    cases other with
    | last gap' => exact absurd same (proper.text_ne proper')
    | next gap' token' rest' =>
      obtain ⟨row, spelled, ends, line, later⟩ := proper
      obtain ⟨row', spelled', ends', line', later'⟩ := proper'
      obtain ⟨rfl, behind⟩ := gap_unique row row' (solid_token spelled ends) (solid_token spelled' ends') same
      obtain ⟨kind, lexeme, behind⟩ := token_unique spelled spelled' ends ends' behind
      rw [← lexeme] at later'
      have sameRest := ih later later' behind
      have sameToken : token = token' := by
        obtain ⟨_, _, _⟩ := token
        obtain ⟨_, _, _⟩ := token'
        rw [Token.mk.injEq]
        exact ⟨kind, String.toList_inj.mp lexeme, line.trans line'.symm⟩
      rw [sameToken, sameRest]

end Division

theorem tokenize_eq_ok_iff {source : String} {tokens : List (Token Terminal)} :
    tokenize source = .ok tokens ↔ ∃ division : Division, division.Proper [] ∧ division.text = source.toList ∧
      division.tokens = tokens := by
  have start : Position.start.line = 1 + ([] : List Char).count '\n' := rfl
  rw [tokenize, Lexer.tokenize_eq_readPieces]
  constructor
  · intro read
    exact Lexer.exists_division read start
  · rintro ⟨division, proper, text, rfl⟩
    have read := Lexer.readPieces_division proper start []
    rw [text] at read
    exact read

/-- The lexer accepts a source exactly when the source can be divided into tokens and gaps, and then its tokens are
those of the division. A source has at most one division. -/
theorem tokenize_divides (source : String) :
    (∀ tokens, tokenize source = .ok tokens ↔ ∃ division : Division, division.Proper [] ∧
      division.text = source.toList ∧ division.tokens = tokens) ∧
    ∀ one other : Division, one.Proper [] → other.Proper [] → one.text = source.toList →
      other.text = source.toList → one = other := by
  constructor
  · intro tokens
    exact tokenize_eq_ok_iff
  · intro one other proper proper' text text'
    exact proper.unique proper' (text.trans text'.symm)

/-- A comment that hides a line end, in front of an operator of two characters. -/
def Division.commented : Division :=
  .next [] ⟨.ident, "a", 1⟩ (.next ['/', '*', '\n', '*', '/'] ⟨.le, "<=", 2⟩ (.next [] ⟨.num, "1", 2⟩ (.last [])))

theorem Division.commented_proper : commented.Proper [] := by
  have comment (after : List Char) : Gap ['/', '*', '\n', '*', '/'] after := by
    have skips : Piece.Skips ('/' :: '*' :: ['\n'] ++ ['*', '/']) ([] ++ after) := .block (by decide)
    exact .cons skips .nil
  have word : Terminal.IsWord ['a'] := ⟨'a', [], rfl, rfl, List.all_eq_true.mp rfl⟩
  have number : Terminal.HasText .num ['1'] := ⟨by decide, List.all_eq_true.mp rfl, by decide⟩
  refine ⟨.nil, ⟨word, by decide⟩, ?_, rfl, comment _, rfl, ?_, rfl, .nil, number, ?_, rfl, .nil⟩
  · rintro _ ⟨⟩
    rfl
  · rintro _ ⟨⟩
    rfl
  · rintro _ ⟨⟩

theorem tokenize_commented :
    tokenize "a/*\n*/<=1" = .ok [⟨.ident, "a", 1⟩, ⟨.le, "<=", 2⟩, ⟨.num, "1", 2⟩] ∧
      ∀ other : Division, other.Proper [] → other.text = "a/*\n*/<=1".toList → other = .commented := by
  obtain ⟨accepted, unique⟩ := tokenize_divides "a/*\n*/<=1"
  refine ⟨(accepted _).mpr ⟨.commented, Division.commented_proper, rfl, rfl⟩, ?_⟩
  intro other proper text
  exact unique other .commented proper Division.commented_proper text rfl

end Minuscule
