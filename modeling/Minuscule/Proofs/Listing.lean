import Minuscule.Proofs.Lexing
import Minuscule.Proofs.Meaning
import Minuscule.Proofs.Templates
import Minuscule.Proofs.WellFormed

/-!
Listings are read back. A line is a row of words with a blank between each two, and the number of its words, together
with the marks in them, tells which instruction stands on it. One text belongs to two instructions: a variable may have
the name `result`, so that a copy of it looks like the result of a call. In compiled code the line in front decides,
since a call is followed by the instruction that takes its result, and no other instruction takes one.
-/

namespace Minuscule

/-! Words. -/

namespace Instruction

/-- The words of the line of an instruction. -/
def words : Instruction → List (List Char)
  | assign target source => [target.toList, ":=".toList, source.toList]
  | binary target left operator right =>
    [target.toList, ":=".toList, left.toList, operator.text.toList, right.toList]
  | store array index value => [array.toList ++ '[' :: (index.toList ++ [']']), ":=".toList, value.toList]
  | load target array index => [target.toList, ":=".toList, array.toList ++ '[' :: (index.toList ++ [']'])]
  | param value => ["param".toList, value.toList]
  | call function count => ["call".toList, function.toList ++ [','], Nat.toDigits 10 count]
  | result target => [target.toList, ":=".toList, "result".toList]
  | ret none => ["return".toList]
  | ret (some value) => ["return".toList, value.toList]
  | goto target => ["goto".toList, target.toList]
  | ifGoto condition target => ["if".toList, condition.toList, "goto".toList, target.toList]
  | label name => [name.toList ++ [':']]

theorem toList_text (instruction : Instruction) :
    instruction.text.toList = [' '].intercalate instruction.words := by
  rcases instruction with _ | _ | _ | _ | _ | _ | _ | (_ | _) | _ | _ | _ <;>
    simp [text, words, toString, List.intercalate_cons_cons]

theorem words_ne_nil (instruction : Instruction) : instruction.words ≠ [] := by
  rcases instruction with _ | _ | _ | _ | _ | _ | _ | (_ | _) | _ | _ | _ <;> exact List.cons_ne_nil _ _

end Instruction

/-! Reading. -/

def Instruction.isCall : Instruction → Bool
  | call .. => true
  | _ => false

def Operator.ofText? (text : List Char) : Option Operator :=
  [.add, .sub, .mul, .div, .lt, .le, .gt, .ge, .eq, .ne].find? fun operator : Operator => operator.text.toList = text

theorem Operator.ofText?_text (operator : Operator) : ofText? operator.text.toList = some operator := by
  cases operator <;> rfl

namespace Listing

/-- The array and the index of an element. -/
def element? (word : List Char) : Option (String × String) :=
  match word.dropWhile (· ≠ '[') with
  | [] => none
  | _ :: behind => some (String.ofList (word.takeWhile (· ≠ '[')), String.ofList behind.dropLast)

/-- The instruction with these words on its line, behind a call or not. -/
def readWords (called : Bool) : List (List Char) → Option Instruction
  | [word] => some (if word = "return".toList then .ret none else .label (.ofList word.dropLast))
  | [word, operand] =>
    if word = "param".toList then some (.param (.ofList operand))
    else if word = "goto".toList then some (.goto (.ofList operand))
    else some (.ret (some (.ofList operand)))
  | [first, second, third] =>
    if second = ":=".toList then
      match element? first, element? third with
      | some (array, index), _ => some (.store array index (.ofList third))
      | none, some (array, index) => some (.load (.ofList first) array index)
      | none, none => some (if called then .result (.ofList first) else .assign (.ofList first) (.ofList third))
    else some (.call (.ofList second.dropLast) (Nat.ofDigitChars 10 third 0))
  | [_, condition, _, target] => some (.ifGoto (.ofList condition) (.ofList target))
  | [target, _, left, operator, right] =>
    (Operator.ofText? operator).map fun operator => .binary (.ofList target) (.ofList left) operator (.ofList right)
  | _ => none

def readLines (called : Bool) : List (List Char) → Option (List Instruction)
  | [] => some []
  | line :: lines =>
    (readWords called (line.splitOn ' ')).bind fun instruction =>
      (readLines instruction.isCall lines).map (instruction :: ·)

/-- The code with this listing. -/
def read (text : String) : Option (List Instruction) :=
  readLines false (text.toList.splitOn '\n').dropLast

end Listing

/-! Plain texts. -/

/-- Letters, digits and underscores only. -/
def IsPlain (text : String) : Prop :=
  ∀ c ∈ text.toList, Piece.isWordPart c = true

theorem isWordPart_of_mem_toDigits {number : Nat} {c : Char} (member : c ∈ Nat.toDigits 10 number) :
    Piece.isWordPart c = true := by
  have digit : c.isDigit = true := Nat.isDigit_of_mem_toDigits (by decide) (by decide) member
  simp [Piece.isWordPart, Char.isAlphanum, digit]

theorem isPlain_numbered {text : String} (stem : List Char) (plain : stem.all Piece.isWordPart = true) {number : Nat}
    (spelled : text.toList = stem ++ Nat.toDigits 10 number) : IsPlain text := by
  intro c member
  rw [spelled] at member
  rcases List.mem_append.mp member with inside | digit
  · exact List.all_eq_true.mp plain c inside
  · exact isWordPart_of_mem_toDigits digit

theorem isPlain_temporary (number : Nat) : IsPlain (temporary number) :=
  isPlain_numbered ['_', 'v'] rfl (toList_temporary number)

theorem isPlain_blockLabel (number : Nat) : IsPlain (blockLabel number) :=
  isPlain_numbered ['_', '_', 'b'] rfl (toList_blockLabel number)

/-- A row of characters that a listing does not divide. -/
def isSolid (word : List Char) : Bool :=
  word.all fun c => c ≠ ' ' && c ≠ '\n'

theorem isSolid_append (word more : List Char) : isSolid (word ++ more) = (isSolid word && isSolid more) :=
  List.all_append

theorem not_mem_of_isSolid {word : List Char} (solid : isSolid word = true) : ' ' ∉ word ∧ '\n' ∉ word := by
  have each := List.all_eq_true.mp solid
  constructor <;> intro member <;> cases each _ member

theorem isSolid_of_isWordPart {word : List Char} (parts : ∀ c ∈ word, Piece.isWordPart c = true) :
    isSolid word = true := by
  apply List.all_eq_true.mpr
  intro c member
  have part := parts c member
  rw [Bool.and_eq_true, decide_eq_true_eq, decide_eq_true_eq]
  constructor <;> rintro rfl <;> cases part

theorem isSolid_toDigits (number : Nat) : isSolid (Nat.toDigits 10 number) = true :=
  isSolid_of_isWordPart fun _ => isWordPart_of_mem_toDigits

theorem isSolid_operator (operator : Operator) : isSolid operator.text.toList = true := by
  cases operator <;> rfl

namespace IsPlain
variable {text : String} (plain : IsPlain text)
include plain

theorem isSolid : isSolid text.toList = true :=
  isSolid_of_isWordPart plain

theorem ne_bracket : ∀ c ∈ text.toList, decide (c ≠ '[') = true := by
  intro c member
  rw [decide_eq_true_eq]
  rintro rfl
  cases plain _ member

theorem element? : Listing.element? text.toList = none := by
  rw [Listing.element?, List.dropWhile_eq_nil_iff.mpr plain.ne_bracket]

theorem element?_append (index : List Char) :
    Listing.element? (text.toList ++ '[' :: (index ++ [']'])) = some (text, String.ofList index) := by
  rw [Listing.element?, List.dropWhile_append_of_pos plain.ne_bracket, List.takeWhile_append_of_pos plain.ne_bracket]
  simp

end IsPlain

/-! Lines. -/

section Texts
variable {text : Names → String}

theorem isPlain_of_place (place : Template.Place IsPlain text) (names : Names) : IsPlain (text names) := by
  cases place with
  | written own => exact own
  | made => exact isPlain_temporary _

theorem isPlain_of_mark (mark : Template.Mark IsPlain text) (names : Names) : IsPlain (text names) := by
  cases mark with
  | written own => exact own
  | made => exact isPlain_blockLabel _

end Texts

/-- The instruction fills in a template whose own texts are plain. -/
def Instruction.FromPlain (instruction : Instruction) : Prop :=
  ∃ line names, Template.Line IsPlain line ∧ line names = instruction

def Instruction.isResult : Instruction → Bool
  | result _ => true
  | _ => false

section Lines
variable {instruction : Instruction} (plain : instruction.FromPlain)
include plain

theorem Instruction.isSolid_words : ∀ word ∈ instruction.words, isSolid word = true := by
  have element {array index : String} (base : IsPlain array) (place : IsPlain index) :
      isSolid (array.toList ++ '[' :: (index.toList ++ [']'])) = true := by
    change isSolid (array.toList ++ (['['] ++ (index.toList ++ [']']))) = true
    rw [isSolid_append, isSolid_append, isSolid_append, base.isSolid, place.isSolid]
    rfl
  obtain ⟨line, names, template, rfl⟩ := plain
  cases template <;> simp only [words, List.forall_mem_cons, List.not_mem_nil, IsEmpty.forall_iff, implies_true, and_true]
  case assign writes reads =>
    exact ⟨(isPlain_of_place writes names).isSolid, rfl, (isPlain_of_place reads names).isSolid⟩
  case binary operator writes first second =>
    exact ⟨(isPlain_of_place writes names).isSolid, rfl, (isPlain_of_place first names).isSolid,
      isSolid_operator operator, (isPlain_of_place second names).isSolid⟩
  case store base place reads =>
    exact ⟨element (isPlain_of_place base names) (isPlain_of_place place names), rfl,
      (isPlain_of_place reads names).isSolid⟩
  case load writes base place =>
    exact ⟨(isPlain_of_place writes names).isSolid, rfl,
      element (isPlain_of_place base names) (isPlain_of_place place names)⟩
  case param reads => exact ⟨rfl, (isPlain_of_place reads names).isSolid⟩
  case call function own count =>
    have name : IsPlain function := own
    rw [isSolid_append, name.isSolid]
    exact ⟨rfl, rfl, isSolid_toDigits count⟩
  case result writes => exact ⟨(isPlain_of_place writes names).isSolid, rfl, rfl⟩
  case retVoid => rfl
  case ret reads => exact ⟨rfl, (isPlain_of_place reads names).isSolid⟩
  case goto mark => exact ⟨rfl, (isPlain_of_mark mark names).isSolid⟩
  case ifGoto reads mark =>
    exact ⟨rfl, (isPlain_of_place reads names).isSolid, rfl, (isPlain_of_mark mark names).isSolid⟩
  case label mark =>
    rw [isSolid_append, (isPlain_of_mark mark names).isSolid]
    rfl

omit plain in
theorem ne_of_getLast? {word other : List Char} (ends : word.getLast? ≠ other.getLast?) : word ≠ other := by
  rintro rfl
  exact ends rfl

/-- The words of an instruction are read back, if it is known whether a call stands in front. -/
theorem Listing.readWords_words : readWords instruction.isResult instruction.words = some instruction := by
  obtain ⟨line, names, template, rfl⟩ := plain
  cases template with
  | assign writes reads =>
    simp [readWords, Instruction.words, Instruction.isResult, (isPlain_of_place writes names).element?,
      (isPlain_of_place reads names).element?]
  | binary operator => simp [readWords, Instruction.words, Operator.ofText?_text]
  | store base place reads =>
    simp [readWords, Instruction.words, (isPlain_of_place base names).element?_append]
  | load writes base place =>
    simp [readWords, Instruction.words, (isPlain_of_place writes names).element?,
      (isPlain_of_place base names).element?_append]
  | @call function own count =>
    have comma : function.toList ++ [','] ≠ ":=".toList := ne_of_getLast? (by simp)
    rw [Instruction.words, readWords, if_neg comma]
    simp
  | result writes =>
    have literal : element? "result".toList = none := rfl
    rw [Instruction.words, readWords, if_pos rfl, (isPlain_of_place writes names).element?, literal]
    simp [Instruction.isResult]
  | retVoid => rfl
  | @label name mark =>
    have colon : (name names).toList ++ [':'] ≠ "return".toList := ne_of_getLast? (by simp)
    rw [Instruction.words, readWords, if_neg colon]
    simp
  | _ => simp [readWords, Instruction.words]

end Lines

theorem not_mem_intercalate {c separator : Char} (apart : c ≠ separator) {words : List (List Char)}
    (each : ∀ word ∈ words, c ∉ word) : c ∉ [separator].intercalate words := by
  induction words with
  | nil => simp
  | cons word rest ih =>
    obtain ⟨here, later⟩ := List.forall_mem_cons.mp each
    cases rest with
    | nil => simpa using here
    | cons next rest => simp [List.intercalate_cons_cons, here, apart, ih later]

theorem Instruction.splitOn_text {instruction : Instruction} (plain : instruction.FromPlain) :
    instruction.text.toList.splitOn ' ' = instruction.words := by
  rw [toList_text]
  apply List.splitOn_intercalate _ _ instruction.words_ne_nil
  intro word member
  exact (not_mem_of_isSolid (isSolid_words plain word member)).1

theorem Instruction.newline_not_mem {instruction : Instruction} (plain : instruction.FromPlain) :
    '\n' ∉ instruction.text.toList := by
  rw [toList_text]
  apply not_mem_intercalate (by decide)
  intro word member
  exact (not_mem_of_isSolid (isSolid_words plain word member)).2

theorem toList_listing (code : List Instruction) :
    (listing code).toList = ['\n'].intercalate (code.map (·.text.toList) ++ [[]]) := by
  rw [listing, String.toList_join, List.flatMap_map]
  induction code with
  | nil => rfl
  | cons instruction rest ih =>
    rw [List.flatMap_cons, ih, List.map_cons, List.cons_append, List.intercalate_cons_of_ne_nil (by simp),
      String.toList_append]
    rfl

theorem lines_listing {code : List Instruction} (plain : ∀ instruction ∈ code, instruction.FromPlain) :
    ((listing code).toList.splitOn '\n').dropLast = code.map (·.text.toList) := by
  rw [toList_listing, List.splitOn_intercalate _ _ (by simp), List.dropLast_concat]
  intro line member
  rcases List.mem_append.mp member with inside | last
  · obtain ⟨instruction, present, rfl⟩ := List.mem_map.mp inside
    exact Instruction.newline_not_mem (plain instruction present)
  · rw [List.mem_singleton.mp last]
    exact List.not_mem_nil

/-! Calls and their results. -/

/-- A call is followed by the instruction that takes its result, and no other instruction takes one. -/
inductive Answered : List Instruction → Prop
  | nil : Answered []
  | step {instruction : Instruction} {rest : List Instruction} (plain : instruction.isCall = false)
    (silent : instruction.isResult = false) (later : Answered rest) : Answered (instruction :: rest)
  | call {function target : String} {count : Nat} {rest : List Instruction} (later : Answered rest) :
    Answered (.call function count :: .result target :: rest)

namespace Answered
variable {code more : List Instruction}

theorem append (answered : Answered code) (others : Answered more) : Answered (code ++ more) := by
  induction answered with
  | nil => exact others
  | step plain silent _ ih => exact .step plain silent ih
  | call _ ih => exact .call ih

theorem of_forall (each : ∀ instruction ∈ code, instruction.isCall = false ∧ instruction.isResult = false) :
    Answered code := by
  induction code with
  | nil => exact .nil
  | cons instruction rest ih =>
    obtain ⟨here, later⟩ := List.forall_mem_cons.mp each
    exact .step here.1 here.2 (ih later)

end Answered

theorem Listing.readLines_cons (called : Bool) {instruction : Instruction} (plain : instruction.FromPlain)
    (before : instruction.isResult = called) (rest : List (List Char)) :
    readLines called (instruction.text.toList :: rest) = (readLines instruction.isCall rest).map (instruction :: ·) := by
  rw [readLines, Instruction.splitOn_text plain, ← before, readWords_words plain, Option.bind_some]

theorem Listing.readLines_texts {code : List Instruction} (answered : Answered code)
    (each : ∀ instruction ∈ code, instruction.FromPlain) :
    readLines false (code.map (·.text.toList)) = some code := by
  induction answered with
  | nil => rfl
  | step plain silent _ ih =>
    obtain ⟨here, later⟩ := List.forall_mem_cons.mp each
    rw [List.map_cons, readLines_cons false here silent, plain, ih later]
    rfl
  | call _ ih =>
    obtain ⟨here, next, later⟩ := (List.forall_mem_cons.mp each).imp id List.forall_mem_cons.mp
    rw [List.map_cons, readLines_cons false here rfl, List.map_cons]
    change (readLines true _).map _ = _
    rw [readLines_cons true next rfl]
    change ((readLines false _).map _).map _ = _
    rw [ih later]
    rfl

/-- Code is read back from its listing. -/
theorem Listing.read_listing {code : List Instruction} (answered : Answered code)
    (each : ∀ instruction ∈ code, instruction.FromPlain) : read (listing code) = some code := by
  rw [read, lines_listing each, readLines_texts answered each]

/-! Compiled code. -/

theorem answered_call (function : String) (args : List String) (target : String) :
    Answered (Layout.call function args target) := by
  apply Answered.append
  · apply Answered.of_forall
    intro instruction member
    obtain ⟨_, _, rfl⟩ := List.mem_map.mp member
    exact ⟨rfl, rfl⟩
  · exact .call .nil

theorem answered_chain (next : Nat) (place : String) (operands : List (Operator × String)) :
    Answered (Layout.chain next place operands) := by
  induction operands generalizing next place with
  | nil => exact .nil
  | cons operand rest ih => exact .step rfl rfl (ih _ _)

section Jumps
variable {test : List Instruction} {condition first second third : String} (tested : Answered test)
include tested

theorem answered_selection {consequent alternative : List Instruction} (taken : Answered consequent)
    (left : Answered alternative) :
    Answered (Layout.selection test condition consequent alternative first second third) := by
  have fork : Answered [.ifGoto condition first, .label second] := .step rfl rfl (.step rfl rfl .nil)
  have join (name : String) : Answered [.goto third, .label name] := .step rfl rfl (.step rfl rfl .nil)
  exact ((((tested.append fork).append left).append (join first)).append taken).append (join third)

theorem answered_iteration {body : List Instruction} (inside : Answered body) :
    Answered (Layout.iteration test condition body first second third) := by
  have start : Answered [.label first] := .step rfl rfl .nil
  have fork : Answered [.ifGoto condition second, .goto third, .label second] :=
    .step rfl rfl (.step rfl rfl (.step rfl rfl .nil))
  have back : Answered [.goto first, .label third] := .step rfl rfl (.step rfl rfl .nil)
  exact (((start.append tested).append fork).append inside).append back

end Jumps

mutual

theorem Expression.answered_code : ∀ (expression : Expression) (next : Nat), Answered (expression.code next)
  | .number _, _ => .nil
  | .scalar _, _ => .nil
  | .element _ index, next => (index.answered_code next).append (.step rfl rfl .nil)
  | .call _ arguments, next => (arguments.answered_code next).append (answered_call _ _ _)
  | .chain head links, next =>
    ((head.answered_code next).append (links.answered_code _)).append (answered_chain _ _ _)

theorem Links.answered_code : ∀ (links : Links) (next : Nat), Answered (links.code next)
  | .nil, _ => .nil
  | .cons _ operand rest, next => (operand.answered_code next).append (rest.answered_code _)

theorem Arguments.answered_code : ∀ (arguments : Arguments) (next : Nat), Answered (arguments.code next)
  | .nil, _ => .nil
  | .cons first rest, next => (first.answered_code next).append (rest.answered_code _)

end

theorem Statement.answered_code (statement : Statement) (names : Names) : Answered (statement.code names) := by
  induction statement generalizing names with
  | skip => exact .nil
  | seq first rest ihFirst ihRest => exact (ihFirst names).append (ihRest _)
  | assign target value => exact (value.answered_code _).append (.step rfl rfl .nil)
  | store target index value =>
    exact ((index.answered_code _).append (value.answered_code _)).append (.step rfl rfl .nil)
  | call callee arguments => exact (arguments.answered_code _).append (answered_call _ _ _)
  | select test consequent alternative ihConsequent ihAlternative =>
    exact answered_selection (test.answered_code _) (ihConsequent _) (ihAlternative _)
  | loop test body ih => exact answered_iteration (test.answered_code _) (ih _)
  | ret value =>
    cases value with
    | none => exact .step rfl rfl .nil
    | some value => exact (value.answered_code _).append (.step rfl rfl .nil)

theorem Program.answered_code (program : Program) (names : Names) : Answered (program.code names) := by
  induction program generalizing names with
  | nil => exact .nil
  | cons definition rest ih =>
    apply Answered.append _ (ih _)
    obtain ⟨declarator, length | ⟨params, locals, body⟩⟩ := definition
    · exact .nil
    · exact .step rfl rfl (body.answered_code names)

theorem Program.fromPlain_code {program : Program} (spelled : program.Spelled (Template.vocabulary IsPlain))
    (names : Names) : ∀ instruction ∈ program.code names, instruction.FromPlain := by
  induction program generalizing names with
  | nil => exact List.forall_mem_nil _
  | cons definition rest ih =>
    obtain ⟨here, later⟩ := List.forall_mem_cons.mp spelled
    refine List.forall_mem_append.mpr ⟨fun instruction member => ?_, ih later _⟩
    obtain ⟨line, template, same⟩ := (Definition.template here).mem member
    exact ⟨line, names, template, same⟩

theorem Division.hasText {division : Division} {before : List Char} (proper : division.Proper before) :
    ∀ token ∈ division.tokens, token.kind.HasText token.lexeme.toList := by
  induction division generalizing before with
  | last => exact List.forall_mem_nil _
  | next gap token rest ih => exact List.forall_mem_cons.mpr ⟨proper.2.1, ih proper.2.2.2.2⟩

theorem isPlain_of_hasText {kind : Terminal} {text : String} (spelled : kind.HasText text.toList)
    (known : kind = .ident ∨ kind = .num) : IsPlain text := by
  rcases known with rfl | rfl
  · obtain ⟨⟨first, more, same, start, parts⟩, _⟩ := spelled
    rw [IsPlain, same, List.forall_mem_cons]
    refine ⟨?_, parts⟩
    simp only [Piece.isWordStart, Bool.or_eq_true] at start
    simp only [Piece.isWordPart, Char.isAlphanum, Bool.or_eq_true]
    tauto
  · intro c member
    simp [Piece.isWordPart, Char.isAlphanum, spelled.2.1 c member]

theorem parseSource_of_compile {source : String} {code : List Instruction} (compiled : compile source = .ok code) :
    ∃ tree, parseSource source = .ok tree := by
  rw [compile] at compiled
  rcases read : tokenize source with error | tokens <;> rw [read] at compiled
  · cases compiled
  · rw [parseSource, read]
    change compileTokens tokens = _ at compiled
    rw [compileTokens] at compiled
    rcases found : parseTokens tokens with error | tree <;> rw [found] at compiled
    · cases compiled
    · exact ⟨tree, found⟩

/-- Compiled code is read back from its listing. -/
theorem read_listing_of_compile {source : String} {code : List Instruction} (compiled : compile source = .ok code) :
    Listing.read (listing code) = some code := by
  obtain ⟨tree, parsed⟩ := parseSource_of_compile compiled
  obtain ⟨_, rfl⟩ := (compile_eq_ok_iff parsed code).mp compiled
  obtain ⟨tokens, read, found⟩ := parseSource_ok parsed
  obtain ⟨division, proper, _, rfl⟩ := tokenize_eq_ok_iff.mp read
  have plain {kind : Terminal} (known : kind = .ident ∨ kind = .num) :
      ∀ token ∈ division.tokens, token.kind = kind → IsPlain token.lexeme := by
    rintro token member rfl
    exact isPlain_of_hasText (Division.hasText proper token member) known
  have spelled : (Program.ofTree tree).Spelled (Template.vocabulary IsPlain) :=
    Program.spelled_of_parse found (plain (.inl rfl)) (plain (.inr rfl))
  exact Listing.read_listing (Program.answered_code _ _) (Program.fromPlain_code spelled _)

/-- Sources with one listing have one code: the text of compiled code tells every instruction, its form and its
operands. -/
theorem listing_injective_on_compiled {source source' : String} {code code' : List Instruction}
    (compiled : compile source = .ok code) (compiled' : compile source' = .ok code')
    (same : listing code = listing code') : code = code' := by
  apply Option.some.inj
  rw [← read_listing_of_compile compiled, same, read_listing_of_compile compiled']

/-- A copy of a variable `result` into a variable with the name of a temporary, and a call whose result goes into that
temporary; the operand that is copied is the parameter of this name. -/
def homonyms (operand : String) : String :=
  "int f(int result) \x7b int _v0; _v0 = " ++ operand ++ "; return f(_v0); \x7d"

def homonymsCode : List Instruction :=
  [.label "f", .assign "_v0" "result", .param "_v0", .call "f" 1, .result "_v0", .ret (some "_v0")]

theorem listing_injective_on_homonyms :
    ∃ code code', compile (homonyms "result") = .ok code ∧ compile (homonyms "(result)") = .ok code' ∧
      listing code = listing code' ∧ code = code' ∧ .assign "_v0" "result" ∈ code ∧ .result "_v0" ∈ code ∧
      (Instruction.assign "_v0" "result").text = (Instruction.result "_v0").text := by
  have passes : (["result", "(result)"].all fun operand =>
      (Preview.descent 500).sourcePasses
        (fun _ program => (program.faults .empty).isEmpty && program.code .fresh = homonymsCode)
        (homonyms operand)) = true := by
    decide +kernel
  have compiled : ∀ operand ∈ ["result", "(result)"], compile (homonyms operand) = .ok homonymsCode := by
    intro operand member
    obtain ⟨_, tree, _, parsed, found⟩ := Preview.parseSource_of_sourcePasses (List.all_eq_true.mp passes operand member)
    rw [Bool.and_eq_true, List.isEmpty_iff, decide_eq_true_eq] at found
    exact (compile_eq_ok_iff parsed _).mpr ⟨found.1, found.2.symm⟩
  have first := compiled "result" (by simp)
  have second := compiled "(result)" (by simp)
  exact ⟨_, _, first, second, rfl, listing_injective_on_compiled first second rfl, by decide, by decide, by decide⟩

end Minuscule
