import Minuscule.Proofs.LexicalErrors

/-!
A lexer that is asked again. After a fault it stands behind the faulty text and goes on from there, as if the text that
is left were a source of its own; only the lines, and on its first line the columns, are counted from the start of the
whole source. A fault uses up at least one character, so the end of the source is reached after as many faults as it has
characters at most, and from then on there is nothing more to read.
-/

namespace Minuscule

/-! Positions in a text that starts in the middle of another one. -/

namespace Position

/-- A position in a text that starts at `origin`, counted from where the origin is counted. The columns differ on the
first line only. -/
def shifted (position origin : Position) : Position :=
  ⟨position.line + (origin.line - 1),
    if position.line = 1 then position.column + (origin.column - 1) else position.column⟩

theorem start_shifted {origin : Position} (line : origin.line ≠ 0) (column : origin.column ≠ 0) :
    start.shifted origin = origin := by
  simp only [shifted, start, if_true]
  rw [Nat.add_sub_cancel' (Nat.one_le_iff_ne_zero.mpr line), Nat.add_sub_cancel' (Nat.one_le_iff_ne_zero.mpr column)]

theorem line_after_ne {position : Position} (given : position.line ≠ 0) (text : List Char) :
    (position.after text).line ≠ 0 := by
  rw [line_after]
  omega

/-- Behind a line end the origin has no influence on the column. -/
theorem advance_shifted {position : Position} (given : position.line ≠ 0) (origin : Position) (c : Char) :
    (position.shifted origin).advance c = (position.advance c).shifted origin := by
  by_cases newline : c = '\n'
  · have later : ¬ position.line + 1 = 1 := by omega
    simp only [advance, shifted, newline, if_true, if_neg later]
    rw [Nat.add_right_comm]
  · simp only [advance, shifted, newline, if_false]
    split
    · rw [Nat.add_right_comm]
    · rfl

theorem after_shifted {position : Position} (given : position.line ≠ 0) (origin : Position) (text : List Char) :
    (position.shifted origin).after text = (position.after text).shifted origin := by
  induction text generalizing position with
  | nil => rfl
  | cons c rest ih =>
    have next : (position.advance c).line ≠ 0 := line_after_ne given [c]
    change ((position.shifted origin).advance c).after rest = ((position.advance c).after rest).shifted origin
    rw [advance_shifted given, ih next]

end Position

namespace Lexer

/-- An answer for a text that starts at `origin`, from the answer for the text alone. -/
def shiftedAnswer (origin : Position) :
    Except LexError (List (Token Terminal)) → Except LexError (List (Token Terminal))
  | .ok tokens => .ok (tokens.map (Token.lowered (origin.line - 1)))
  | .error error => .error ⟨error.fault, error.position.shifted origin⟩

/-- A text is read in the same way wherever it starts. -/
theorem readPieces_shifted {lexer : Lexer} (given : lexer.position.line ≠ 0) (tokens : List (Token Terminal))
    (origin : Position) :
    (readPieces ⟨lexer.rest, lexer.position.shifted origin⟩ (tokens.map (Token.lowered (origin.line - 1)))).1 =
      shiftedAnswer origin (lexer.readPieces tokens).1 := by
  fun_induction Lexer.readPieces lexer tokens with
  | case1 lexer tokens ended =>
    rw [ended, readPieces, shiftedAnswer, List.map_reverse]
  | case2 lexer tokens c rest here more text next scanned =>
    rename_i ih
    have whole : lexer.rest = c :: (rest.take more ++ next.rest) := by rw [here, List.take_append_drop]
    rw [whole, readPieces_skip (Piece.skips_of_scan scanned).cuts, Position.after_shifted given]
    exact ih (Position.line_after_ne given text)
  | case3 lexer tokens c rest here more text next kind scanned =>
    rename_i ih
    have whole : lexer.rest = c :: (rest.take more ++ next.rest) := by rw [here, List.take_append_drop]
    obtain ⟨spelled, ends⟩ := Piece.token_of_scan scanned
    rw [whole, readPieces_token (spelled.cuts ends), Position.after_shifted given]
    exact ih (Position.line_after_ne given text)
  | case4 lexer tokens c rest here more text next fault =>
    rename_i scanned
    rw [here, readPieces]
    simp only [scanned]
    rfl

/-- A reading takes a text off the front and moves on by this text. It fails behind some text, or comes to the end. -/
def Consumes (lexer : Lexer) (reading : Except LexError (List (Token Terminal)) × Lexer) : Prop :=
  ∃ text, lexer.rest = text ++ reading.2.rest ∧ reading.2.position = lexer.position.after text ∧
    (((∃ error, reading.1 = .error error) ∧ text ≠ []) ∨ (∃ tokens, reading.1 = .ok tokens) ∧ reading.2.rest = [])

theorem Consumes.behind {lexer next : Lexer} {reading : Except LexError (List (Token Terminal)) × Lexer}
    {piece : List Char} (split : lexer.rest = piece ++ next.rest) (moved : next.position = lexer.position.after piece)
    (later : Consumes next reading) : Consumes lexer reading := by
  obtain ⟨text, taken, position, outcome⟩ := later
  refine ⟨piece ++ text, ?_, ?_, ?_⟩
  · rw [List.append_assoc, ← taken, split]
  · rw [position, moved, Position.after_append]
  · exact outcome.imp_left fun failed => ⟨failed.1, List.append_ne_nil_of_right_ne_nil _ failed.2⟩

theorem consumes_readPieces (lexer : Lexer) (tokens : List (Token Terminal)) :
    Consumes lexer (lexer.readPieces tokens) := by
  fun_induction Lexer.readPieces lexer tokens with
  | case1 lexer tokens ended => exact ⟨[], rfl, rfl, .inr ⟨⟨_, rfl⟩, ended⟩⟩
  | case2 lexer tokens c rest here more text next scanned =>
    rename_i ih
    have split : lexer.rest = text ++ next.rest := by rw [here, List.cons_append, List.take_append_drop]
    exact ih.behind split rfl
  | case3 lexer tokens c rest here more text next kind scanned =>
    rename_i ih
    have split : lexer.rest = text ++ next.rest := by rw [here, List.cons_append, List.take_append_drop]
    exact ih.behind split rfl
  | case4 lexer tokens c rest here more text next fault =>
    refine ⟨text, ?_, rfl, .inl ⟨⟨_, rfl⟩, List.cons_ne_nil _ _⟩⟩
    rw [here, List.cons_append, List.take_append_drop]

theorem consumes_tokenize (lexer : Lexer) : Consumes lexer lexer.tokenize := by
  rw [tokenize_eq_readPieces]
  exact consumes_readPieces lexer []

/-- The lexer has read so many characters of a source: the others are left, the line counts the line ends that have
been read, and the column the characters since the last of them. -/
structure HasRead (source : List Char) (offset : Nat) (lexer : Lexer) : Prop where
  inside : offset ≤ source.length
  rest : lexer.rest = source.drop offset
  line : lexer.position.line = 1 + (source.take offset).count '\n'
  column : lexer.position.column = 1 + ((source.take offset).reverse.takeWhile (· ≠ '\n')).length

theorem hasRead_of_append {source front : List Char} {lexer : Lexer} (split : source = front ++ lexer.rest)
    (position : lexer.position = Position.start.after front) : HasRead source front.length lexer where
  inside := by
    rw [split, List.length_append]
    omega
  rest := by rw [split, List.drop_left]
  line := by
    rw [split, List.take_left, position]
    exact Position.line_after _ _
  column := by rw [split, List.take_left, position, Position.column_after_start]

theorem HasRead.exists_front {source : List Char} {offset : Nat} {lexer : Lexer}
    (reached : HasRead source offset lexer) :
    ∃ front, source = front ++ lexer.rest ∧ front.length = offset ∧ lexer.position = Position.start.after front := by
  refine ⟨source.take offset, ?_, List.length_take_of_le reached.inside, ?_⟩
  · rw [reached.rest, List.take_append_drop]
  · have line := Position.line_after Position.start (source.take offset)
    have column := Position.column_after_start (source.take offset)
    rw [Position.mk.injEq, line, column]
    exact ⟨reached.line, reached.column⟩

/-- A reading that fails has moved on, and one that succeeds has come to the end of the source. -/
theorem HasRead.tokenize {source : List Char} {offset : Nat} {lexer : Lexer} (reached : HasRead source offset lexer) :
    ∃ next, HasRead source next lexer.tokenize.2 ∧
      (((∃ error, lexer.tokenize.1 = .error error) ∧ offset < next) ∨
        (∃ tokens, lexer.tokenize.1 = .ok tokens) ∧ next = source.length) := by
  obtain ⟨front, split, rfl, start⟩ := reached.exists_front
  obtain ⟨text, taken, position, outcome⟩ := lexer.consumes_tokenize
  rw [taken, ← List.append_assoc] at split
  rw [start, ← Position.after_append] at position
  refine ⟨(front ++ text).length, hasRead_of_append split position, ?_⟩
  rcases outcome with ⟨failed, given⟩ | ⟨read, ended⟩
  · have some := List.length_pos_iff.mpr given
    rw [List.length_append]
    exact .inl ⟨failed, by omega⟩
  · rw [ended, List.append_nil] at split
    exact .inr ⟨read, by rw [split]⟩

/-- What is left is read as a source of its own. -/
theorem HasRead.answer {source : List Char} {offset : Nat} {lexer : Lexer} (reached : HasRead source offset lexer) :
    lexer.tokenize.1 = shiftedAnswer lexer.position (Minuscule.tokenize (String.ofList (source.drop offset))) := by
  have line : lexer.position.line ≠ 0 := by
    rw [reached.line]
    omega
  have column : lexer.position.column ≠ 0 := by
    rw [reached.column]
    omega
  have shifted := @readPieces_shifted ⟨lexer.rest, .start⟩ Nat.one_ne_zero [] lexer.position
  rw [Position.start_shifted line column] at shifted
  rw [Minuscule.tokenize, ofString, String.toList_ofList, ← reached.rest, tokenize_eq_readPieces, tokenize_eq_readPieces]
  exact shifted

/-- The lexer after so many readings in a row. -/
def after (lexer : Lexer) : Nat → Lexer
  | 0 => lexer
  | calls + 1 => lexer.tokenize.2.after calls

theorem after_add (lexer : Lexer) (calls more : Nat) : lexer.after (calls + more) = (lexer.after calls).after more := by
  induction calls generalizing lexer with
  | zero => rw [Nat.zero_add, after]
  | succ calls ih => rw [Nat.add_right_comm, after, ih, after]

theorem after_succ (lexer : Lexer) (calls : Nat) : lexer.after (calls + 1) = (lexer.after calls).tokenize.2 :=
  after_add lexer calls 1

theorem readings_succ (lexer : Lexer) (calls : Nat) :
    lexer.readings (calls + 1) = lexer.tokenize.1 :: lexer.tokenize.2.readings calls :=
  rfl

theorem readings_eq (lexer : Lexer) (calls : Nat) :
    lexer.readings calls = (List.range calls).map fun call => (lexer.after call).tokenize.1 := by
  induction calls generalizing lexer with
  | zero => rfl
  | succ calls ih =>
    rw [readings_succ, ih, List.range_succ_eq_map, List.map_cons, List.map_map]
    rfl

theorem exists_hasRead (source : String) (calls : Nat) :
    ∃ offset, HasRead source.toList offset ((ofString source).after calls) := by
  induction calls with
  | zero => exact ⟨0, @hasRead_of_append source.toList [] (ofString source) rfl rfl⟩
  | succ calls ih =>
    obtain ⟨offset, reached⟩ := ih
    obtain ⟨next, moved, _⟩ := reached.tokenize
    rw [after_succ]
    exact ⟨next, moved⟩

theorem tokenize_of_rest {lexer : Lexer} (ended : lexer.rest = []) : lexer.tokenize = (.ok [], lexer) := by
  obtain ⟨rest, position⟩ := lexer
  cases ended
  rw [tokenize_eq_readPieces, readPieces, List.reverse_nil]

theorem after_of_rest {lexer : Lexer} (ended : lexer.rest = []) (calls : Nat) : lexer.after calls = lexer := by
  induction calls with
  | zero => rfl
  | succ calls ih => rw [after, tokenize_of_rest ended, ih]

/-- Each answer that is a fault uses up a character. -/
theorem countP_readings_le (lexer : Lexer) (calls : Nat) :
    (lexer.readings calls).countP (fun answer => !answer.isOk) ≤ lexer.rest.length := by
  induction calls generalizing lexer with
  | zero => exact Nat.zero_le _
  | succ calls ih =>
    obtain ⟨text, taken, _, outcome⟩ := lexer.consumes_tokenize
    have length := congrArg List.length taken
    have later := ih lexer.tokenize.2
    rw [List.length_append] at length
    rw [readings_succ, List.countP_cons]
    rcases outcome with ⟨_, given⟩ | ⟨⟨tokens, read⟩, _⟩
    · have some := List.length_pos_iff.mpr given
      split <;> omega
    · rw [read]
      change (lexer.tokenize.2.readings calls).countP _ + 0 ≤ _
      omega

end Lexer

/-- A lexer can be asked any number of times. After each answer it stands in the source, with the line and the column of
the place up to which it has read. An answer is what the rest of the source would give alone, with its positions
counted from the start of the source. A fault has used up a character; tokens are given when the end is reached, and
nothing but empty lists of tokens after that. So there are no more faults than characters. -/
theorem lexer_resumes (source : String) :
    (∀ call, ∃ offset next,
      Lexer.HasRead source.toList offset ((Lexer.ofString source).after call) ∧
      Lexer.HasRead source.toList next ((Lexer.ofString source).after (call + 1)) ∧
      ((Lexer.ofString source).after call).tokenize.1 =
        Lexer.shiftedAnswer ((Lexer.ofString source).after call).position
          (tokenize (String.ofList (source.toList.drop offset))) ∧
      (∀ error, ((Lexer.ofString source).after call).tokenize.1 = .error error → offset < next) ∧
      ∀ tokens, ((Lexer.ofString source).after call).tokenize.1 = .ok tokens →
        next = source.toList.length ∧
          ∀ later, call < later → ((Lexer.ofString source).after later).tokenize.1 = .ok []) ∧
    (∀ calls, (Lexer.ofString source).readings calls =
      (List.range calls).map fun call => ((Lexer.ofString source).after call).tokenize.1) ∧
    ∀ calls, ((Lexer.ofString source).readings calls).countP (fun answer => !answer.isOk) ≤ source.toList.length := by
  refine ⟨?_, Lexer.readings_eq _, Lexer.countP_readings_le _⟩
  intro call
  obtain ⟨offset, reached⟩ := Lexer.exists_hasRead source call
  obtain ⟨next, moved, outcome⟩ := reached.tokenize
  rw [← Lexer.after_succ] at moved
  refine ⟨offset, next, reached, moved, reached.answer, ?_, ?_⟩
  · intro error failed
    rcases outcome with ⟨_, further⟩ | ⟨⟨tokens, read⟩, _⟩
    · exact further
    · rw [read] at failed
      cases failed
  · intro tokens read
    rcases outcome with ⟨⟨error, failed⟩, _⟩ | ⟨_, ended⟩
    · rw [failed] at read
      cases read
    · refine ⟨ended, ?_⟩
      intro later behind
      obtain ⟨more, rfl⟩ := Nat.exists_eq_add_of_lt behind
      have empty : ((Lexer.ofString source).after (call + 1)).rest = [] := by
        rw [moved.rest, ended, List.drop_length]
      rw [Nat.add_right_comm, Lexer.after_add, Lexer.after_of_rest empty, Lexer.tokenize_of_rest empty]

theorem lexer_resumes_behind_faults :
    (((Lexer.ofString "a\n !b ?").after 1).tokenize.1 = .error ⟨.strayCharacter '?', ⟨2, 5⟩⟩ ∧
      ∃ offset next, Lexer.HasRead "a\n !b ?".toList offset ((Lexer.ofString "a\n !b ?").after 1) ∧
        Lexer.HasRead "a\n !b ?".toList next ((Lexer.ofString "a\n !b ?").after 2) ∧ offset < next) ∧
    ((Lexer.ofString "a\n !b ?").after 2).tokenize.1 = .ok [] ∧
      ((Lexer.ofString "a\n !b ?").after 9).tokenize.1 = .ok [] := by
  have failed : ((Lexer.ofString "a\n !b ?").after 1).tokenize.1 = .error ⟨.strayCharacter '?', ⟨2, 5⟩⟩ := by
    decide +kernel
  have read : ((Lexer.ofString "a\n !b ?").after 2).tokenize.1 = .ok [] := by decide +kernel
  obtain ⟨resumes, _⟩ := lexer_resumes "a\n !b ?"
  obtain ⟨offset, next, reached, moved, _, further, _⟩ := resumes 1
  obtain ⟨_, _, _, _, _, _, ended⟩ := resumes 2
  exact ⟨⟨failed, offset, next, reached, moved, further _ failed⟩, read, (ended _ read).2 9 (by decide)⟩

end Minuscule
