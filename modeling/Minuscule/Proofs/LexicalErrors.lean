import Minuscule.Proofs.Concatenation

/-!
Where reading stops. A source that is not read to its end has a front that can be read alone, and the text behind this
front is no blank, no comment and no token: it opens a comment that nothing closes, or it is a number that is too large,
or its first character starts no token. The error points right behind the front. What stands in front of a line end has
no influence on how the text behind it is read, apart from the number of lines.
-/

namespace Minuscule

/-! Shorter texts. -/

theorem Terminal.EndsBefore.shorten {kind : Terminal} {after more : List Char}
    (ends : kind.EndsBefore (after ++ more)) : kind.EndsBefore after := by
  cases after with
  | nil => exact fun _ none => nomatch none
  | cons next rest => exact ends

theorem Piece.Skips.shorten {piece after more : List Char} (skips : Skips piece (after ++ more)) :
    Skips piece after := by
  generalize behind : after ++ more = text at skips
  cases skips with
  | blank blank => exact .blank blank
  | line inside => exact .line inside
  | lastLine inside =>
    obtain ⟨rfl, _⟩ := List.append_eq_nil_iff.mp behind
    exact .lastLine inside
  | block inside => exact .block inside

/-! Runs of digits. -/

/-- Two texts in a row, between which no run of digits goes on. -/
def DigitsApart (before after : List Char) : Prop :=
  ∀ last ∈ before.getLast?, last.isDigit = true → ∀ next ∈ after.head?, next.isDigit = false

theorem digitsApart_of_last {front after : List Char} {last : Char} (other : last.isDigit = false) :
    DigitsApart (front ++ [last]) after := by
  intro found member digit
  rw [List.getLast?_concat] at member
  cases member
  rw [other] at digit
  cases digit

theorem DigitsApart.behind {before piece after : List Char} (apart : DigitsApart piece after) (given : piece ≠ []) :
    DigitsApart (before ++ piece) after := by
  rwa [DigitsApart, List.getLast?_append_of_ne_nil _ given]

theorem Piece.Skips.digitsApart {piece after : List Char} (skips : Skips piece after) : DigitsApart piece after := by
  cases skips with
  | @blank c _ blank =>
    have other : c.isDigit = false := by
      by_contra digit
      rw [(plain_of_class rfl (Bool.not_eq_false _ ▸ digit)).1] at blank
      cases blank
    exact @digitsApart_of_last [] _ _ other
  | line => exact digitsApart_of_last rfl
  | lastLine => exact fun _ _ _ _ none => nomatch none
  | @block body =>
    rw [List.append_cons]
    exact digitsApart_of_last rfl

theorem Piece.isWordPart_of_isDigit {c : Char} (digit : c.isDigit = true) : isWordPart c = true := by
  simp [isWordPart, Char.isAlphanum, digit]

theorem Terminal.HasText.digitsApart {kind : Terminal} {text after : List Char} (spelled : kind.HasText text)
    (ends : kind.EndsBefore after) : DigitsApart text after := by
  intro last found digit next first
  by_contra digit'
  rw [Bool.not_eq_false] at digit'
  have outside := ends next first
  cases kind
  case num => exact Bool.false_ne_true (outside.symm.trans digit')
  case ident | elseWord | ifWord | intWord | returnWord | voidWord | whileWord =>
    exact Bool.false_ne_true (outside.symm.trans (Piece.isWordPart_of_isDigit digit'))
  all_goals
    cases spelled
    cases found
    cases digit

/-! Faults. -/

/-- What a message says of the text behind another one. A comment is open if no mark closes it; a number is a run of
digits that goes on to neither side; and any other character is at fault if it is no blank and starts no token, or if
it needs an equals sign behind it. -/
inductive Offends : String → List Char → List Char → Prop
  | openComment {before body : List Char} (unclosed : ¬['*', '/'] <:+: body) :
    Offends "Unterminated block comment" before ('/' :: '*' :: body)
  | largeNumber {before digits after : List Char} (given : digits ≠ []) (run : ∀ c ∈ digits, c.isDigit = true)
    (left : ∀ last ∈ before.getLast?, last.isDigit = false) (right : ∀ next ∈ after.head?, next.isDigit = false)
    (large : 2147483647 < Numeral.value digits) :
    Offends ("Invalid integer literal: " ++ String.ofList digits) before (digits ++ after)
  | exclamation {before after : List Char} (single : after.head? ≠ some '=') :
    Offends "Unexpected character: '!'" before ('!' :: after)
  | stray {before after : List Char} {c : Char} (solid : Piece.isBlank c = false)
    (other : ∀ kind text, Terminal.HasText kind text → text.head? ≠ some c) :
    Offends s!"Unexpected character: '{c}'" before (c :: after)

/-- No other fault is reported as an early end. -/
theorem Fault.eq_endOfFile_of_text {fault : Fault} (same : fault.text = "Unexpected end of file") :
    fault = .endOfFile := by
  cases fault with
  | openComment => exact absurd same (by decide)
  | largeNumber digits =>
    have letter : ("Invalid integer literal: " ++ digits).toList[0]? = "Unexpected end of file".toList[0]? :=
      congrArg (fun message : String => message.toList[0]?) same
    rw [String.toList_append, List.getElem?_append_left (by decide)] at letter
    exact absurd letter (by decide)
  | strayCharacter c =>
    have letter : ("Unexpected character: '" ++ toString c ++ "'").toList[11]? = "Unexpected end of file".toList[11]? :=
      congrArg (fun message : String => message.toList[11]?) same
    rw [String.append_assoc, String.toList_append, List.getElem?_append_left (by decide)] at letter
    exact absurd letter (by decide)
  | endOfFile => rfl

namespace Piece

theorem not_infix_of_closing? {counted : Nat} {text : List Char} (unclosed : closing? counted text = none) :
    ¬['*', '/'] <:+: text := by
  fun_induction closing? counted text with
  | case1 => cases unclosed
  | case2 counted c rest notClosed ih =>
    rw [List.infix_cons_iff]
    rintro (starts | later)
    · obtain ⟨behind, same⟩ := starts
      cases same
      exact notClosed _ rfl rfl
    · exact ih unclosed later
  | case3 => simp

/-- The characters that are operators or punctuation by themselves. -/
def punctuation : List Char :=
  ['+', '-', '*', '/', '=', '<', '>', ';', ',', '(', ')', '[', ']', '\x7b', '\x7d']

theorem symbol_fault {first : Char} {rest : List Char} {fault : Fault} {more : Nat}
    (scanned : symbol first rest = (.error fault, more)) :
    fault = .strayCharacter first ∧ first ∉ punctuation ∧ (first = '!' → rest.head? ≠ some '=') := by
  unfold symbol at scanned
  dsimp only at scanned
  split at scanned
  case h_16 =>
    split at scanned
    · cases scanned
    · next other =>
      cases scanned
      refine ⟨rfl, ?_, fun same equals => other ⟨same, equals⟩⟩
      simp_all [punctuation]
  case h_5 | h_6 | h_7 => split at scanned <;> cases scanned
  all_goals cases scanned

theorem lexeme_fault {first : Char} {rest : List Char} {fault : Fault} {more : Nat}
    (scanned : lexeme first rest = (.error fault, more)) : fault ≠ .endOfFile := by
  rw [lexeme] at scanned
  split at scanned
  · simp only [number] at scanned
    split at scanned <;> cases scanned
    exact Fault.noConfusion
  split at scanned
  · cases scanned
  · rw [(symbol_fault scanned).1]
    exact Fault.noConfusion

theorem gap?_fault {first : Char} {rest : List Char} {fault : Fault} {more : Nat}
    (scanned : gap? first rest = some (.error fault, more)) : fault = .openComment := by
  rw [gap?] at scanned
  split at scanned
  · cases scanned
  split at scanned
  · cases scanned
  split at scanned
  · rw [blockComment] at scanned
    split at scanned <;> cases scanned
    rfl
  · cases scanned

/-- A character that begins neither a number nor a word nor an operator. -/
theorem head?_ne_of_stray {first : Char} (digit : first.isDigit = false) (start : isWordStart first = false)
    (other : first ∉ punctuation) (single : first ≠ '!') {kind : Terminal} {text : List Char}
    (spelled : kind.HasText text) : text.head? ≠ some first := by
  intro head
  obtain ⟨behind, rfl⟩ := List.head?_eq_some_iff.mp head
  cases kind
  case ident =>
    obtain ⟨⟨_, _, same, word, _⟩, _⟩ := spelled
    cases same
    rw [start] at word
    cases word
  case num =>
    have own := spelled.2.1 first (List.mem_cons_self ..)
    rw [digit] at own
    cases own
  case elseWord | ifWord | intWord | returnWord | voidWord | whileWord =>
    cases spelled
    cases start
  case notEq =>
    cases spelled
    exact single rfl
  all_goals
    cases spelled
    exact other (by decide)

theorem offends_of_scan {before : List Char} {first : Char} {rest : List Char} {fault : Fault} {more : Nat}
    (apart : DigitsApart before (first :: rest)) (scanned : scan first rest = (.fault fault, more)) :
    Offends fault.text before (first :: rest) := by
  rw [scan_eq_ite] at scanned
  split at scanned
  · cases scanned
  split at scanned
  · cases scanned
  split at scanned
  · next comment =>
    obtain ⟨rfl, head⟩ := comment
    obtain ⟨body, rfl⟩ := List.head?_eq_some_iff.mp head
    rw [ofGap_eq_fault, blockComment] at scanned
    split at scanned
    · cases scanned
    · next unclosed =>
      cases scanned
      exact .openComment (not_infix_of_closing? unclosed)
  split at scanned
  · next digit =>
    simp only [ofLexeme_eq_fault, number] at scanned
    split at scanned
    · cases scanned
    · next large =>
      cases scanned
      have split := List.takeWhile_append_dropWhile (p := Char.isDigit) (l := rest)
      have run : ∀ c ∈ first :: rest.takeWhile Char.isDigit, c.isDigit = true :=
        List.forall_mem_cons.mpr ⟨digit, fun c member => List.mem_takeWhile_imp member⟩
      have left : ∀ last ∈ before.getLast?, last.isDigit = false := by
        intro last found
        by_contra digit'
        rw [Bool.not_eq_false] at digit'
        exact Bool.false_ne_true ((apart last found digit' first rfl).symm.trans digit)
      nth_rewrite 2 [← split]
      exact .largeNumber (List.cons_ne_nil _ _) run left not_of_head?_dropWhile (Nat.lt_of_not_le large)
  split at scanned
  · cases scanned
  · next blank _ _ digit start =>
    obtain ⟨rfl, other, single⟩ := symbol_fault (ofLexeme_eq_fault.mp scanned)
    rw [Bool.not_eq_true] at blank digit start
    by_cases exclamation : first = '!'
    · subst exclamation
      exact .exclamation (single rfl)
    · exact .stray blank fun kind text spelled => head?_ne_of_stray digit start other exclamation spelled

end Piece

/-! Positions. -/

namespace Position

/-- The same column, so many lines further down. -/
def lowered (lines : Nat) (position : Position) : Position :=
  ⟨position.line + lines, position.column⟩

theorem advance_lowered (lines : Nat) (position : Position) (c : Char) :
    (position.lowered lines).advance c = (position.advance c).lowered lines := by
  by_cases newline : c = '\n'
  · simp only [advance, lowered, newline, if_true]
    rw [Nat.add_right_comm]
  · simp only [advance, lowered, newline, if_false]

theorem after_lowered (lines : Nat) (position : Position) (text : List Char) :
    (position.lowered lines).after text = (position.after text).lowered lines := by
  induction text generalizing position with
  | nil => rfl
  | cons c rest ih =>
    change ((position.lowered lines).advance c).after rest = ((position.advance c).after rest).lowered lines
    rw [advance_lowered, ih]

/-- The column counts what has been read since the last line end, or since the start. -/
theorem column_after_start (text : List Char) :
    (start.after text).column = 1 + (text.reverse.takeWhile (· ≠ '\n')).length := by
  induction text using List.reverseRecOn with
  | nil => rfl
  | append_singleton front c ih =>
    have last : start.after (front ++ [c]) = (start.after front).advance c := after_append start front [c]
    rw [last, List.reverse_concat, advance]
    by_cases newline : c = '\n'
    · simp [newline]
    · simp only [newline, if_false, ih, ne_eq, not_false_eq_true, decide_true, List.takeWhile_cons_of_pos,
        List.length_cons]
      omega

/-- Behind a line end the first column comes again. -/
theorem after_line_end (front : List Char) :
    start.after (front ++ ['\n']) = start.lowered (1 + front.count '\n') := by
  have line := line_after start (front ++ ['\n'])
  have column := column_after_start (front ++ ['\n'])
  rw [List.count_append, List.count_singleton_self, Nat.add_comm (front.count _)] at line
  rw [List.reverse_concat, List.takeWhile_cons_of_neg (by simp)] at column
  rw [Position.mk.injEq, line, column]
  exact ⟨rfl, rfl⟩

end Position

namespace Lexer

/-! The end of the source. -/

/-- A token is missed exactly at the end. -/
theorem nextToken_endOfFile_iff {lexer : Lexer} :
    (∃ position, lexer.nextToken.1 = .error ⟨.endOfFile, position⟩) ↔ lexer.isAtEnd = true := by
  rw [nextToken, isAtEnd]
  cases lexer.rest with
  | nil => simp
  | cons c rest =>
    dsimp only
    rcases scanned : Piece.lexeme c rest with ⟨fault | kind, more⟩
    · simp [Piece.lexeme_fault scanned]
    · simp

theorem skip_fault {lexer : Lexer} {error : LexError} (failed : lexer.skip.1 = .error error) :
    error.fault = .openComment := by
  fun_induction skip lexer with
  | case1 | case2 => cases failed
  | case3 lexer c rest _ fault more scanned =>
    cases failed
    exact Piece.gap?_fault scanned
  | case4 lexer c rest _ more scanned ih => exact ih failed

/-- A token is only ever taken after the test for the end, and so is never missed. -/
theorem readOn_fault {lexer : Lexer} {tokens : List (Token Terminal)} {error : LexError}
    (failed : (lexer.readOn tokens).1 = .error error) : error.fault ≠ .endOfFile := by
  fun_induction readOn lexer tokens with
  | case1 lexer tokens reason left skipped =>
    cases failed
    rw [skip_fault (congrArg Prod.fst skipped)]
    exact Fault.noConfusion
  | case2 => cases failed
  | case3 lexer tokens left skipped going reason left' taken =>
    cases failed
    intro ended
    refine going (nextToken_endOfFile_iff.mp ⟨error.position, ?_⟩)
    rw [taken, ← ended]
  | case4 lexer tokens left skipped going token left' taken ih => exact ih failed

/-! Faults and positions of a reading. -/

/-- A reading that fails has read a front of the text, and the rest of the text is at fault. -/
theorem exists_fault {lexer : Lexer} {tokens : List (Token Terminal)} {error : LexError}
    (failed : (lexer.readPieces tokens).1 = .error error) {before : List Char}
    (line : lexer.position.line = 1 + before.count '\n') (apart : DigitsApart before lexer.rest) :
    ∃ (division : Division) (text : List Char), division.Proper before ∧ lexer.rest = division.text ++ text ∧
      Offends error.fault.text (before ++ division.text) text ∧
      error.position = lexer.position.after division.text := by
  fun_induction Lexer.readPieces lexer tokens generalizing before with
  | case1 => cases failed
  | case2 lexer tokens c rest here more text next scanned =>
    rename_i ih
    have skips := Piece.skips_of_scan scanned
    obtain ⟨division, bad, proper, split, offends, position⟩ :=
      ih failed (Position.line_after_of_line line text) (skips.digitsApart.behind (List.cons_ne_nil _ _))
    change rest.drop more = _ at split
    rw [split] at skips
    refine ⟨division.widen text, bad, proper.widen skips.shorten, ?_, ?_, ?_⟩
    · rw [Division.text_widen, here, List.append_assoc, ← split, List.cons_append, List.take_append_drop]
    · rwa [Division.text_widen, ← List.append_assoc]
    · rw [Division.text_widen, position, ← Position.after_append]
  | case3 lexer tokens c rest here more text next kind scanned =>
    rename_i ih
    obtain ⟨spelled, ends⟩ := Piece.token_of_scan scanned
    obtain ⟨division, bad, proper, split, offends, position⟩ :=
      ih failed (Position.line_after_of_line line text) ((spelled.digitsApart ends).behind (List.cons_ne_nil _ _))
    change rest.drop more = _ at split
    rw [split] at ends
    refine ⟨.next [] ⟨kind, String.ofList text, lexer.position.line⟩ division, bad, ⟨.nil, ?_, ends.shorten, ?_, ?_⟩,
      ?_, ?_, ?_⟩
    · rw [String.toList_ofList]
      exact spelled
    · rwa [List.append_nil]
    · rwa [List.append_nil, String.toList_ofList]
    · rw [Division.text, String.toList_ofList, List.nil_append, List.append_assoc, ← split, here, List.cons_append,
        List.take_append_drop]
    · rwa [Division.text, String.toList_ofList, List.nil_append, ← List.append_assoc]
    · rw [Division.text, String.toList_ofList, List.nil_append, position, ← Position.after_append]
  | case4 lexer tokens c rest here more text next fault =>
    rename_i scanned
    cases failed
    rw [here] at apart
    refine ⟨.last [], lexer.rest, .nil, rfl, ?_, rfl⟩
    rw [here, Division.text, List.append_nil]
    exact Piece.offends_of_scan apart scanned

/-- A line end behind a text that can be read is where the reading of the next text starts. A line comment at the end
of the first text is closed by it. -/
theorem readPieces_line_end {lexer : Lexer} {tokens found : List (Token Terminal)}
    (read : (lexer.readPieces tokens).1 = .ok found) (back : List Char) :
    readPieces ⟨lexer.rest ++ '\n' :: back, lexer.position⟩ tokens =
      readPieces ⟨back, lexer.position.after (lexer.rest ++ ['\n'])⟩ found.reverse := by
  fun_induction Lexer.readPieces lexer tokens with
  | case1 lexer tokens ended =>
    cases read
    have blank : Piece.Cuts .skip '\n' [] back := Piece.Skips.cuts (.blank rfl)
    rw [ended, List.reverse_reverse]
    exact readPieces_skip blank lexer.position tokens
  | case2 lexer tokens c rest here more text next scanned =>
    rename_i ih
    have whole : lexer.rest = text ++ next.rest := by
      rw [here, List.cons_append, List.take_append_drop]
    rw [whole, List.append_assoc, List.append_assoc, Position.after_append]
    rcases (Piece.skips_of_scan scanned).newline back with same | ⟨last, closed⟩
    · rw [← ih read]
      exact readPieces_skip same.cuts lexer.position tokens
    · have ended : next = ⟨[], lexer.position.after text⟩ := congrArg (fun left => (⟨left, _⟩ : Lexer)) last
      rw [ended, readPieces] at read
      cases read
      rw [ended, ← Position.after_append, List.reverse_reverse, List.nil_append, List.nil_append, List.append_cons]
      exact readPieces_skip closed.cuts lexer.position tokens
  | case3 lexer tokens c rest here more text next kind scanned =>
    rename_i ih
    have whole : lexer.rest = text ++ next.rest := by
      rw [here, List.cons_append, List.take_append_drop]
    obtain ⟨spelled, ends⟩ := Piece.token_of_scan scanned
    rw [whole, List.append_assoc, List.append_assoc, Position.after_append, ← ih read]
    exact readPieces_token (spelled.cuts (ends.newline back)) lexer.position tokens
  | case4 => cases read

/-- Further down a reading fails in the same way, whatever tokens have been read before. -/
theorem readPieces_lowered {lexer : Lexer} {tokens : List (Token Terminal)} {error : LexError}
    (failed : (lexer.readPieces tokens).1 = .error error) (lines : Nat) (others : List (Token Terminal)) :
    (readPieces ⟨lexer.rest, lexer.position.lowered lines⟩ others).1 =
      .error ⟨error.fault, error.position.lowered lines⟩ := by
  fun_induction Lexer.readPieces lexer tokens generalizing others with
  | case1 => cases failed
  | case2 lexer tokens c rest here more text next scanned =>
    rename_i ih
    have whole : lexer.rest = c :: (rest.take more ++ next.rest) := by rw [here, List.take_append_drop]
    have cuts := (Piece.skips_of_scan scanned).cuts
    rw [whole, readPieces_skip cuts, Position.after_lowered]
    exact ih failed others
  | case3 lexer tokens c rest here more text next kind scanned =>
    rename_i ih
    have whole : lexer.rest = c :: (rest.take more ++ next.rest) := by rw [here, List.take_append_drop]
    obtain ⟨spelled, ends⟩ := Piece.token_of_scan scanned
    rw [whole, readPieces_token (spelled.cuts ends), Position.after_lowered]
    exact ih failed _
  | case4 lexer tokens c rest here more text next fault =>
    rename_i scanned
    cases failed
    rw [here, readPieces]
    simp only [scanned]

end Lexer

/-- A line end keeps two texts apart. Behind a text that can be read, a text is read as it would be alone, with the same
tokens or the same error, each as many lines further down as there are line ends in front. -/
theorem tokenize_across_line_end {front : String} {tokens : List (Token Terminal)} (read : tokenize front = .ok tokens)
    (back : String) :
    (∀ tokens', tokenize back = .ok tokens' →
      tokenize (front ++ "\n" ++ back) =
        .ok (tokens ++ tokens'.map fun token => { token with line := token.line + (1 + front.toList.count '\n') })) ∧
    ∀ error, tokenize back = .error error →
      tokenize (front ++ "\n" ++ back) =
        .error ⟨error.fault, ⟨error.position.line + (1 + front.toList.count '\n'), error.position.column⟩⟩ := by
  constructor
  · intro tokens' read'
    have joined := tokenize_join read read'
    rwa [List.count_append, List.count_singleton_self, Nat.add_comm] at joined
  · intro error failed
    have text : (front ++ "\n" ++ back).toList = front.toList ++ '\n' :: back.toList := by
      rw [String.toList_append, String.toList_append, List.append_assoc]
      rfl
    rw [tokenize, Lexer.tokenize_eq_readPieces] at read failed
    have started := Lexer.readPieces_line_end read back.toList
    have stopped := Lexer.readPieces_lowered failed (1 + front.toList.count '\n') tokens.reverse
    have position : (Lexer.ofString front).position.after ((Lexer.ofString front).rest ++ ['\n']) =
        (Lexer.ofString back).position.lowered (1 + front.toList.count '\n') := Position.after_line_end front.toList
    rw [position] at started
    rw [tokenize, Lexer.tokenize_eq_readPieces, Lexer.ofString, text]
    exact (congrArg Prod.fst started).trans stopped

theorem tokenize_across_line_end_comment :
    tokenize "a //" = .ok [⟨.ident, "a", 1⟩] ∧ tokenize "=\n !" = .error ⟨.strayCharacter '!', ⟨2, 2⟩⟩ ∧
      tokenize "a //\n=\n !" = .error ⟨.strayCharacter '!', ⟨3, 2⟩⟩ := by
  have read : tokenize "a //" = .ok [⟨.ident, "a", 1⟩] := by decide +kernel
  have failed : tokenize "=\n !" = .error ⟨.strayCharacter '!', ⟨2, 2⟩⟩ := by decide +kernel
  exact ⟨read, failed, (tokenize_across_line_end read "=\n !").2 _ failed⟩

/-- A lexical error points at the start of the text that is at fault. All that stands in front of it can be read. The
message is one of those for such texts, and never that the source has ended too early. -/
theorem lexical_error_at_offending_text {source : String} {error : LexError} (failed : tokenize source = .error error) :
    (∃ place, (∃ tokens, tokenize (String.ofList (source.toList.take place)) = .ok tokens) ∧
      Offends error.fault.text (source.toList.take place) (source.toList.drop place) ∧
      error.position.line = 1 + (source.toList.take place).count '\n' ∧
      error.position.column = 1 + ((source.toList.take place).reverse.takeWhile (· ≠ '\n')).length) ∧
    error.fault.text ≠ "Unexpected end of file" := by
  have apart : DigitsApart [] (Lexer.ofString source).rest := fun _ none => nomatch none
  have given := Lexer.readOn_fault failed
  rw [tokenize, Lexer.tokenize_eq_readPieces] at failed
  obtain ⟨division, text, proper, split, offends, position⟩ := Lexer.exists_fault failed rfl apart
  change source.toList = division.text ++ text at split
  have front : source.toList.take division.text.length = division.text := by rw [split, List.take_left]
  have back : source.toList.drop division.text.length = text := by rw [split, List.drop_left]
  refine ⟨⟨division.text.length, ?_, ?_, ?_, ?_⟩, fun ended => given (Fault.eq_endOfFile_of_text ended)⟩
  · refine ⟨division.tokens, tokenize_eq_ok_iff.mpr ⟨division, proper, ?_, rfl⟩⟩
    rw [String.toList_ofList, front]
  · rw [front, back]
    exact offends
  · rw [front, position]
    exact Position.line_after _ _
  · rw [front, position]
    exact Position.column_after_start _

theorem lexical_error_at_large_number :
    tokenize "a1/*\n*/\t2147483648;" = .error ⟨.largeNumber "2147483648", ⟨2, 4⟩⟩ ∧
      ∃ place, (∃ tokens, tokenize (String.ofList ("a1/*\n*/\t2147483648;".toList.take place)) = .ok tokens) ∧
        Offends (Fault.text (.largeNumber "2147483648")) ("a1/*\n*/\t2147483648;".toList.take place)
          ("a1/*\n*/\t2147483648;".toList.drop place) ∧
        2 = 1 + ("a1/*\n*/\t2147483648;".toList.take place).count '\n' ∧
        4 = 1 + (("a1/*\n*/\t2147483648;".toList.take place).reverse.takeWhile (· ≠ '\n')).length := by
  have failed : tokenize "a1/*\n*/\t2147483648;" = .error ⟨.largeNumber "2147483648", ⟨2, 4⟩⟩ := by decide +kernel
  exact ⟨failed, (lexical_error_at_offending_text failed).1⟩

end Minuscule
