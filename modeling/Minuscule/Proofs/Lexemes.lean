import Minuscule.Proofs.Lists
import Minuscule.Proofs.Pieces

/-!
The token language, apart from the lexer. Each kind of token has its texts, and each kind says which character may
not stand right behind a token of the kind, since it would belong to the token. Between tokens stand blanks and
comments. The lexer cuts a text behind a token or behind a blank or comment exactly where this language does.
-/

namespace Minuscule

namespace Terminal

def keywords : List String :=
  ["else", "if", "int", "return", "void", "while"]

/-- A letter or an underscore, and then letters, digits and underscores. -/
def IsWord (text : List Char) : Prop :=
  ∃ first more, text = first :: more ∧ Piece.isWordStart first = true ∧ ∀ c ∈ more, Piece.isWordPart c = true

/-- The texts of a kind of token. -/
def HasText (kind : Terminal) (text : List Char) : Prop :=
  match kind with
  | ident => IsWord text ∧ String.ofList text ∉ keywords
  | num => text ≠ [] ∧ (∀ c ∈ text, c.isDigit = true) ∧ Numeral.value text ≤ 2147483647
  | _ => kind.spelling?.map String.toList = some text

/-- A character that cannot stand right behind a token of this kind. -/
def takesIn (kind : Terminal) (next : Char) : Bool :=
  match kind with
  | elseWord | ifWord | intWord | returnWord | voidWord | whileWord | ident => Piece.isWordPart next
  | num => next.isDigit
  | lt | gt | assign => next = '='
  | slash => next = '/' || next = '*'
  | _ => false

/-- A token of this kind can end in front of this text. -/
def EndsBefore (kind : Terminal) (after : List Char) : Prop :=
  ∀ next ∈ after.head?, kind.takesIn next = false

end Terminal

namespace Piece

/-- A blank or a comment in front of a text. A line comment goes up to the end of its line or, if its line has no
end, up to the end of the source; a block comment goes up to the first mark that closes it. -/
inductive Skips : List Char → List Char → Prop
  | blank {c : Char} {after : List Char} (blank : isBlank c = true) : Skips [c] after
  | line {body after : List Char} (inside : '\n' ∉ body) : Skips ('/' :: '/' :: body ++ ['\n']) after
  | lastLine {body : List Char} (inside : '\n' ∉ body) : Skips ('/' :: '/' :: body) []
  | block {body after : List Char} (inside : ¬['*', '/'] <:+: body) : Skips ('/' :: '*' :: body ++ ['*', '/']) after

/-- The first piece of a text, and what is left behind it. -/
structure Cuts (piece : Piece) (first : Char) (more after : List Char) : Prop where
  scanned : (scan first (more ++ after)).1 = piece
  taken : (more ++ after).take (scan first (more ++ after)).2 = more
  left : (more ++ after).drop (scan first (more ++ after)).2 = after

theorem cuts_of_scan {piece : Piece} {first : Char} {more after : List Char}
    (scanned : scan first (more ++ after) = (piece, more.length)) : Cuts piece first more after := by
  constructor
  · rw [scanned]
  · rw [scanned, List.take_left]
  · rw [scanned, List.drop_left]

/-! Comments. -/

theorem closing?_eq_some_iff {counted length : Nat} {text : List Char} :
    closing? counted text = some length ↔ ∃ body after, text = body ++ '*' :: '/' :: after ∧
      ¬['*', '/'] <:+: body ∧ length = counted + body.length + 2 := by
  fun_induction closing? counted text with
  | case1 counted after =>
    constructor
    · rintro ⟨⟩
      exact ⟨[], after, rfl, by simp, rfl⟩
    · rintro ⟨body, after', split, inside, rfl⟩
      rcases body with _ | ⟨_, _ | ⟨_, body⟩⟩
      · rfl
      · cases split
      · cases split
        exact absurd (List.infix_append [] ['*', '/'] body) inside
  | case2 counted c rest notClosed ih =>
    rw [ih]
    constructor
    · rintro ⟨body, after, rfl, inside, rfl⟩
      refine ⟨c :: body, after, rfl, ?_, by simp only [List.length_cons]; omega⟩
      rw [List.infix_cons_iff]
      rintro (starts | later)
      · obtain ⟨behind, same⟩ := starts
        cases same
        exact notClosed _ rfl rfl
      · exact inside later
    · rintro ⟨body, after, split, inside, rfl⟩
      rcases body with _ | ⟨_, body⟩
      · cases split
        exact (notClosed after rfl rfl).elim
      · cases split
        refine ⟨body, after, rfl, ?_, by simp only [List.length_cons]; omega⟩
        exact fun later => inside (List.infix_cons_iff.mpr (.inr later))
  | case3 counted =>
    constructor
    · rintro ⟨⟩
    · rintro ⟨body, after, split, _⟩
      simp at split

theorem ne_newline {body : List Char} (inside : '\n' ∉ body) : ∀ c ∈ '/' :: body, decide (c ≠ '\n') = true := by
  intro c member
  simp only [decide_eq_true_eq]
  rintro rfl
  rcases List.mem_cons.mp member with impossible | found
  · cases impossible
  · exact inside found

theorem lineComment_of_line {body : List Char} (inside : '\n' ∉ body) (after : List Char) :
    lineComment ('/' :: (body ++ '\n' :: after)) = body.length + 2 := by
  have taken : ('/' :: body ++ '\n' :: after).takeWhile (· ≠ '\n') = '/' :: body :=
    takeWhile_append_stop (ne_newline inside) (by simp)
  rw [lineComment, ← List.cons_append, taken]
  rfl

theorem lineComment_of_lastLine {body : List Char} (inside : '\n' ∉ body) :
    lineComment ('/' :: body) = body.length + 2 := by
  have taken : ('/' :: body).takeWhile (· ≠ '\n') = '/' :: body :=
    List.takeWhile_eq_self_iff.mpr (ne_newline inside)
  rw [lineComment, taken]
  rfl

theorem blockComment_of_closed {body : List Char} (inside : ¬['*', '/'] <:+: body) (after : List Char) :
    blockComment ('*' :: (body ++ '*' :: '/' :: after)) = (.ok (), body.length + 3) := by
  have closed : closing? 0 (body ++ '*' :: '/' :: after) = some (body.length + 2) :=
    closing?_eq_some_iff.mpr ⟨body, after, rfl, inside, by omega⟩
  simp only [blockComment, List.drop_succ_cons, List.drop_zero, closed]

theorem Skips.cuts {first : Char} {more after : List Char} (skips : Skips (first :: more) after) :
    Cuts skip first more after := by
  generalize text : first :: more = front at skips
  cases skips with
  | blank blank =>
    cases text
    apply cuts_of_scan
    simp [scan_eq_ite, blank]
  | @line body _ inside =>
    cases text
    apply cuts_of_scan
    change (skip, lineComment ('/' :: body ++ ['\n'] ++ after)) = _
    rw [List.cons_append, List.cons_append, List.append_assoc]
    simpa using lineComment_of_line inside after
  | @lastLine body inside =>
    cases text
    have scanned : scan '/' ('/' :: body ++ []) = (skip, body.length + 2) := by
      rw [List.append_nil]
      exact congrArg (Prod.mk skip) (lineComment_of_lastLine inside)
    constructor
    · rw [scanned]
    · rw [scanned]
      simp
    · rw [scanned]
      simp
  | @block body _ inside =>
    cases text
    apply cuts_of_scan
    change ofGap (blockComment ('*' :: body ++ ['*', '/'] ++ after)) = _
    rw [List.cons_append, List.cons_append, List.append_assoc, ofGap_eq_skip]
    simpa using blockComment_of_closed inside after

/-! Numbers and words. -/

/-- A class of characters without blanks and slashes. -/
theorem plain_of_class {test : Char → Bool} (apart : [' ', '\t', '\r', '\n', '/'].any test = false) {c : Char}
    (holds : test c = true) : isBlank c = false ∧ c ≠ '/' := by
  have different : ∀ other ∈ [' ', '\t', '\r', '\n', '/'], c ≠ other := by
    rintro other member rfl
    exact List.any_eq_false.mp apart c member holds
  simp_all [isBlank]

theorem not_digit_of_wordStart {c : Char} (start : isWordStart c = true) : c.isDigit = false := by
  rw [isWordStart, Bool.or_eq_true, decide_eq_true_eq] at start
  rcases start with letter | rfl
  · unfold Char.isAlpha Char.isUpper Char.isLower at letter
    unfold Char.isDigit
    simp only [Bool.or_eq_true, Bool.and_eq_true, decide_eq_true_eq, Bool.and_eq_false_iff,
      decide_eq_false_iff_not] at letter ⊢
    grind
  · decide

theorem cuts_number {first : Char} {more after : List Char} (digits : ∀ c ∈ first :: more, c.isDigit = true)
    (stop : ∀ next ∈ after.head?, next.isDigit = false) :
    Cuts (if Numeral.value (first :: more) ≤ largest then token .num
      else fault (.largeNumber (String.ofList (first :: more)))) first more after := by
  obtain ⟨digit, digits⟩ := List.forall_mem_cons.mp digits
  obtain ⟨solid, different⟩ := plain_of_class rfl digit
  apply cuts_of_scan
  simp only [scan_eq_ite, solid, different, false_and, digit, number, takeWhile_append_stop digits stop, if_true,
    Bool.false_eq_true, if_false]
  split <;> rfl

theorem cuts_word {first : Char} {more after : List Char} (start : isWordStart first = true)
    (parts : ∀ c ∈ more, isWordPart c = true) (stop : ∀ next ∈ after.head?, isWordPart next = false) :
    Cuts (token (Terminal.ofWord (String.ofList (first :: more)))) first more after := by
  obtain ⟨solid, different⟩ := plain_of_class rfl start
  have digit := not_digit_of_wordStart start
  apply cuts_of_scan
  simp only [scan_eq_ite, solid, different, false_and, digit, start, word, takeWhile_append_stop parts stop, if_true,
    Bool.false_eq_true, if_false]

theorem ofWord_eq_ident_iff {word : String} : Terminal.ofWord word = .ident ↔ word ∉ Terminal.keywords := by
  unfold Terminal.ofWord
  split <;> simp_all [Terminal.keywords]

theorem cuts_keyword {kind : Terminal} {first : Char} {more after : List Char}
    (known : Terminal.ofWord (String.ofList (first :: more)) = kind) (start : isWordStart first = true)
    (parts : ∀ c ∈ more, isWordPart c = true) (stop : ∀ next ∈ after.head?, isWordPart next = false) :
    Cuts (token kind) first more after :=
  known ▸ cuts_word start parts stop

/-! Operators. -/

/-- An operator that an equals sign makes longer. -/
theorem cuts_operator {c : Char} {long short : Terminal} {after : List Char}
    (operator : ∀ rest, scan c rest = ofLexeme (if rest.head? = some '=' then (.ok long, 1) else (.ok short, 0)))
    (single : after.head? ≠ some '=') : Cuts (token short) c [] after := by
  apply cuts_of_scan
  rw [operator, List.nil_append, if_neg single]
  rfl

theorem cuts_slash {after : List Char} (line : after.head? ≠ some '/') (block : after.head? ≠ some '*') :
    Cuts (token .slash) '/' [] after := by
  apply cuts_of_scan
  rw [List.nil_append, scan_eq_ite, if_neg (by decide), if_neg fun found => line found.2,
    if_neg fun found => block found.2]
  rfl

end Piece

/-- In front of a text that it can end before, a token is cut off whole. -/
theorem Terminal.HasText.cuts {kind : Terminal} {first : Char} {more after : List Char}
    (text : kind.HasText (first :: more)) (ends : kind.EndsBefore after) :
    Piece.Cuts (.token kind) first more after := by
  cases kind
  case ident =>
    obtain ⟨⟨_, _, same, start, parts⟩, free⟩ := text
    cases same
    exact Piece.cuts_keyword (Piece.ofWord_eq_ident_iff.mpr free) start parts ends
  case num =>
    obtain ⟨_, digits, small⟩ := text
    have cuts := Piece.cuts_number digits ends
    have fits : Numeral.value (first :: more) ≤ Piece.largest := small
    rwa [if_pos fits] at cuts
  case elseWord | ifWord | intWord | returnWord | voidWord | whileWord =>
    cases text
    exact Piece.cuts_keyword rfl rfl (List.all_eq_true.mp rfl) ends
  case lt | gt | assign =>
    have single : after.head? ≠ some '=' := fun found => absurd (ends '=' found) (by decide)
    cases text
    exact Piece.cuts_operator (fun _ => rfl) single
  case slash =>
    have line : after.head? ≠ some '/' := fun found => absurd (ends '/' found) (by decide)
    have block : after.head? ≠ some '*' := fun found => absurd (ends '*' found) (by decide)
    cases text
    exact Piece.cuts_slash line block
  all_goals
    cases text
    exact Piece.cuts_of_scan rfl

namespace Piece

/-- The lexer takes no other piece than the one that stands at the front. -/
theorem Skips.of_scan {first : Char} {more after : List Char} {piece : Piece} {length : Nat}
    (skips : Skips (first :: more) after) (scanned : scan first (more ++ after) = (piece, length)) :
    Skips (first :: (more ++ after).take length) ((more ++ after).drop length) := by
  obtain ⟨_, taken, left⟩ := skips.cuts
  rw [scanned] at taken left
  rw [taken, left]
  exact skips

theorem exists_skips_line (rest : List Char) :
    ∃ more after, '/' :: rest = more ++ after ∧ Skips ('/' :: more) after := by
  by_cases ended : '\n' ∈ rest
  · obtain ⟨body, after, rfl, inside⟩ := List.eq_append_cons_of_mem ended
    exact ⟨'/' :: body ++ ['\n'], after, by simp, .line inside⟩
  · exact ⟨'/' :: rest, [], by simp, .lastLine ended⟩

theorem exists_skips_block {rest : List Char} {length : Nat} (closed : closing? 0 rest = some length) :
    ∃ more after, '*' :: rest = more ++ after ∧ Skips ('/' :: more) after := by
  obtain ⟨body, after, rfl, inside, _⟩ := closing?_eq_some_iff.mp closed
  exact ⟨'*' :: body ++ ['*', '/'], after, by simp, .block inside⟩

theorem token_of_number {first : Char} {rest : List Char} {kind : Terminal} {more : Nat}
    (digit : first.isDigit = true) (scanned : number first rest = (.ok kind, more)) :
    kind.HasText (first :: rest.take more) ∧ kind.EndsBefore (rest.drop more) := by
  obtain ⟨taken, left⟩ := take_drop_takeWhile Char.isDigit rest
  simp only [number] at scanned
  split at scanned
  · next small =>
    cases scanned
    rw [taken, left]
    refine ⟨⟨List.cons_ne_nil _ _, ?_, small⟩, not_of_head?_dropWhile⟩
    exact List.forall_mem_cons.mpr ⟨digit, fun c member => List.mem_takeWhile_imp member⟩
  · cases scanned

theorem hasText_ofWord (word : String) (isWord : Terminal.IsWord word.toList) :
    (Terminal.ofWord word).HasText word.toList := by
  by_cases known : word ∈ Terminal.keywords
  · simp only [Terminal.keywords, List.mem_cons, List.not_mem_nil, or_false] at known
    rcases known with rfl | rfl | rfl | rfl | rfl | rfl <;> rfl
  · rw [ofWord_eq_ident_iff.mpr known]
    exact ⟨isWord, by rwa [String.ofList_toList]⟩

theorem takesIn_ofWord (word : String) : (Terminal.ofWord word).takesIn = isWordPart := by
  unfold Terminal.ofWord
  split <;> rfl

theorem token_of_word {first : Char} {rest : List Char} {kind : Terminal} {more : Nat}
    (start : isWordStart first = true) (scanned : word first rest = (kind, more)) :
    kind.HasText (first :: rest.take more) ∧ kind.EndsBefore (rest.drop more) := by
  obtain ⟨taken, left⟩ := take_drop_takeWhile isWordPart rest
  cases scanned
  rw [taken, left, Terminal.EndsBefore, takesIn_ofWord]
  refine ⟨?_, not_of_head?_dropWhile⟩
  have text := hasText_ofWord (String.ofList (first :: rest.takeWhile isWordPart))
  rw [String.toList_ofList] at text
  exact text ⟨first, _, rfl, start, fun c member => List.mem_takeWhile_imp member⟩

theorem token_of_symbol {first : Char} {rest : List Char} {kind : Terminal} {more : Nat}
    (line : ¬(first = '/' ∧ rest.head? = some '/')) (block : ¬(first = '/' ∧ rest.head? = some '*'))
    (scanned : symbol first rest = (.ok kind, more)) :
    kind.HasText (first :: rest.take more) ∧ kind.EndsBefore (rest.drop more) := by
  unfold symbol at scanned
  dsimp only at scanned
  split at scanned
  case h_4 =>
    cases scanned
    refine ⟨rfl, fun next found => ?_⟩
    rw [Terminal.takesIn, Bool.or_eq_false_iff, decide_eq_false_iff_not, decide_eq_false_iff_not]
    exact ⟨fun same => line ⟨rfl, same ▸ found⟩, fun same => block ⟨rfl, same ▸ found⟩⟩
  case h_5 | h_6 | h_7 =>
    split at scanned
    · next equals =>
      obtain ⟨after, rfl⟩ := List.head?_eq_some_iff.mp equals
      cases scanned
      exact ⟨rfl, fun _ _ => rfl⟩
    · next single =>
      cases scanned
      refine ⟨rfl, fun next found => decide_eq_false ?_⟩
      rintro rfl
      exact single found
  case h_16 =>
    split at scanned
    · next found =>
      obtain ⟨rfl, equals⟩ := found
      obtain ⟨after, rfl⟩ := List.head?_eq_some_iff.mp equals
      cases scanned
      exact ⟨rfl, fun _ _ => rfl⟩
    · cases scanned
  all_goals
    cases scanned
    exact ⟨rfl, fun _ _ => rfl⟩

theorem skips_of_scan {first : Char} {rest : List Char} {more : Nat} (scanned : scan first rest = (skip, more)) :
    Skips (first :: rest.take more) (rest.drop more) := by
  suffices found : ∃ front after, rest = front ++ after ∧ Skips (first :: front) after by
    obtain ⟨front, after, rfl, skips⟩ := found
    exact skips.of_scan scanned
  rw [scan_eq_ite] at scanned
  split at scanned
  · next blank => exact ⟨[], rest, rfl, .blank blank⟩
  split at scanned
  · next line =>
    obtain ⟨rfl, head⟩ := line
    obtain ⟨rest, rfl⟩ := List.head?_eq_some_iff.mp head
    exact exists_skips_line rest
  split at scanned
  · next block =>
    obtain ⟨rfl, head⟩ := block
    obtain ⟨rest, rfl⟩ := List.head?_eq_some_iff.mp head
    rcases closed : closing? 0 rest with _ | length
    · simp [blockComment, closed, ofGap] at scanned
    · exact exists_skips_block closed
  split at scanned
  · exact absurd scanned ofLexeme_ne_skip
  split at scanned
  · cases scanned
  · exact absurd scanned ofLexeme_ne_skip

theorem token_of_scan {first : Char} {rest : List Char} {kind : Terminal} {more : Nat}
    (scanned : scan first rest = (token kind, more)) :
    kind.HasText (first :: rest.take more) ∧ kind.EndsBefore (rest.drop more) := by
  rw [scan_eq_ite] at scanned
  split at scanned
  · cases scanned
  split at scanned
  · cases scanned
  split at scanned
  · exact absurd scanned ofGap_ne_token
  split at scanned
  · next digit => exact token_of_number digit (ofLexeme_eq_token.mp scanned)
  split at scanned
  · next start =>
    cases scanned
    exact token_of_word start rfl
  · next line block _ _ => exact token_of_symbol line block (ofLexeme_eq_token.mp scanned)

end Piece

end Minuscule
