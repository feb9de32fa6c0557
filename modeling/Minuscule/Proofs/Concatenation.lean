import Minuscule.Proofs.ControlFlow
import Minuscule.Proofs.Lexing
import Minuscule.Proofs.Reading
import Minuscule.Proofs.Records

/-!
A source behind another one. With a line end between them neither a token nor a comment of the first source goes on in
the second, so that the tokens of both are read one after the other. They are parsed as the definitions of the first
source and then those of the second, and definitions only ever add to what the ones before them have left.
-/

namespace Minuscule

/-! Texts. -/

theorem Terminal.EndsBefore.newline {kind : Terminal} {after : List Char} (ends : kind.EndsBefore after)
    (back : List Char) : kind.EndsBefore (after ++ '\n' :: back) := by
  cases after with
  | cons next rest => exact ends
  | nil =>
    intro next first
    cases Option.some.inj first
    cases kind <;> rfl

/-- A line end behind a text ends the line comment that the text ends with, and changes nothing else. -/
theorem Piece.Skips.newline {piece after : List Char} (skips : Skips piece after) (back : List Char) :
    Skips piece (after ++ '\n' :: back) ∨ after = [] ∧ Skips (piece ++ ['\n']) back := by
  cases skips with
  | blank blank => exact .inl (.blank blank)
  | line inside => exact .inl (.line inside)
  | lastLine inside => exact .inr ⟨rfl, .line inside⟩
  | block inside => exact .inl (.block inside)

namespace Gap

theorem append {front back after : List Char} (row : Gap front (back ++ after)) (later : Gap back after) :
    Gap (front ++ back) after := by
  generalize behind : back ++ after = text at row
  induction row with
  | nil => exact later
  | @cons piece rest _ skips _ ih =>
    subst behind
    rw [List.append_assoc]
    refine .cons ?_ (ih rfl)
    rwa [List.append_assoc]

theorem newline_behind {gap after : List Char} (row : Gap gap after) (given : after ≠ []) (back : List Char) :
    Gap gap (after ++ '\n' :: back) := by
  induction row with
  | nil => exact .nil
  | @cons piece rest after skips _ ih =>
    refine .cons ?_ (ih given)
    rcases skips.newline back with same | ⟨none, _⟩
    · rwa [List.append_assoc] at same
    · exact absurd (List.append_eq_nil_iff.mp none).2 given

theorem newline {gap after : List Char} (row : Gap gap after) (ended : after = []) (back : List Char) :
    Gap (gap ++ ['\n']) back := by
  induction row with
  | nil =>
    have alone : Gap (['\n'] ++ []) back := .cons (.blank rfl) .nil
    exact alone
  | @cons piece rest _ skips _ ih =>
    subst ended
    rcases skips.newline back with same | ⟨none, closed⟩
    · rw [List.append_assoc]
      refine .cons ?_ (ih rfl)
      rwa [List.append_nil, List.append_cons] at same
    · cases (List.append_eq_nil_iff.mp none).1
      rw [List.append_nil, ← List.append_nil (piece ++ ['\n'])]
      exact .cons closed .nil

end Gap

/-- The token so many lines further down. -/
def Token.lowered {T : Type} (lines : Nat) (token : Token T) : Token T :=
  { token with line := token.line + lines }

namespace Division

def lowered (lines : Nat) : Division → Division
  | last gap => last gap
  | next gap token rest => next gap (token.lowered lines) (rest.lowered lines)

/-- Two divisions with a line end between them. -/
def join : Division → Division → Division
  | last gap, back => back.widen (gap ++ ['\n'])
  | next gap token rest, back => next gap token (rest.join back)

theorem text_lowered (lines : Nat) (division : Division) : (division.lowered lines).text = division.text := by
  induction division with
  | last gap => rfl
  | next gap token rest ih => rw [lowered, text, text, ih, Token.lowered]

theorem tokens_lowered (lines : Nat) (division : Division) :
    (division.lowered lines).tokens = division.tokens.map (Token.lowered lines) := by
  induction division with
  | last gap => rfl
  | next gap token rest ih => rw [lowered, tokens, tokens, ih, List.map_cons]

theorem text_join (front back : Division) : (front.join back).text = front.text ++ '\n' :: back.text := by
  induction front with
  | last gap => rw [join, text_widen, text, List.append_assoc, List.singleton_append]
  | next gap token rest ih => rw [join, text, text, ih, List.append_assoc, List.append_assoc]

theorem tokens_join (front back : Division) : (front.join back).tokens = front.tokens ++ back.tokens := by
  induction front with
  | last gap => rw [join, tokens_widen, tokens, List.nil_append]
  | next gap token rest ih => rw [join, tokens, tokens, ih, List.cons_append]

theorem Proper.lowered {before before' : List Char} {lines : Nat} {division : Division}
    (proper : division.Proper before) (counted : before'.count '\n' = before.count '\n' + lines) :
    (division.lowered lines).Proper before' := by
  induction division generalizing before before' with
  | last gap => exact proper
  | next gap token rest ih =>
    obtain ⟨between, spelled, ends, line, later⟩ := proper
    rw [← text_lowered lines] at between ends
    refine ⟨between, spelled, ends, ?_, ih later ?_⟩
    · change token.line + lines = _
      rw [line, List.count_append, List.count_append, counted]
      omega
    · change (before' ++ gap ++ token.lexeme.toList).count '\n' = _
      simp only [List.count_append, counted]
      omega

theorem Proper.widen_gap {before gap : List Char} {division : Division} (row : Gap gap division.text)
    (proper : division.Proper (before ++ gap)) : (division.widen gap).Proper before := by
  cases division with
  | last gap' =>
    rw [text, ← List.append_nil gap'] at row
    exact row.append proper
  | next gap' token rest =>
    obtain ⟨between, spelled, ends, line, later⟩ := proper
    refine ⟨row.append between, spelled, ends, ?_, ?_⟩
    · rwa [List.append_assoc] at line
    · rwa [List.append_assoc before] at later

theorem Proper.join {before : List Char} {front back : Division} (proper : front.Proper before)
    (later : back.Proper (before ++ front.text ++ ['\n'])) : (front.join back).Proper before := by
  induction front generalizing before with
  | last gap =>
    rw [text, List.append_assoc] at later
    exact later.widen_gap (proper.newline rfl back.text)
  | next gap token rest ih =>
    obtain ⟨between, spelled, ends, line, inside⟩ := proper
    have given : token.lexeme.toList ++ rest.text ≠ [] := by
      obtain ⟨first, more, cons⟩ := spelled.eq_cons
      simp [cons]
    have text' := text_join rest back
    refine ⟨?_, spelled, ?_, line, ih inside ?_⟩
    · rw [text', ← List.append_assoc]
      exact between.newline_behind given back.text
    · rw [text']
      exact ends.newline back.text
    · simpa only [text, List.append_assoc] using later

end Division

/-- The tokens of two sources with a line end between them. -/
theorem tokenize_join {front back : String} {tokens tokens' : List (Token Terminal)}
    (read : tokenize front = .ok tokens) (read' : tokenize back = .ok tokens') :
    tokenize (front ++ "\n" ++ back) =
      .ok (tokens ++ tokens'.map (Token.lowered ((front.toList ++ ['\n']).count '\n'))) := by
  obtain ⟨division, proper, text, rfl⟩ := tokenize_eq_ok_iff.mp read
  obtain ⟨division', proper', text', rfl⟩ := tokenize_eq_ok_iff.mp read'
  refine tokenize_eq_ok_iff.mpr ⟨division.join (division'.lowered ((front.toList ++ ['\n']).count '\n')), ?_, ?_, ?_⟩
  · apply proper.join
    apply proper'.lowered
    rw [List.nil_append, text, List.count_nil, Nat.zero_add]
  · rw [Division.text_join, Division.text_lowered, text, text', String.toList_append, String.toList_append,
      List.append_assoc]
    rfl
  · rw [Division.tokens_join, Division.tokens_lowered]

/-! Definitions. -/

/-- The later symbols have all that the earlier ones have, at the same places, and more behind it. -/
structure Symbols.Extends (before after : Symbols) : Prop where
  global : before.global.entries <+: after.global.entries
  functions : before.functions.entries <+: after.functions.entries
  locals : before.locals.toList <+: after.locals.toList
  foundVariable : ∀ name entry, before.global.find? name = some entry → after.global.find? name = some entry
  foundFunction : ∀ name record, before.function? name = some record → after.function? name = some record

namespace Symbols.Extends

theorem refl (symbols : Symbols) : symbols.Extends symbols :=
  ⟨List.prefix_rfl, List.prefix_rfl, List.prefix_rfl, fun _ _ => id, fun _ _ => id⟩

theorem trans {first second third : Symbols} (early : first.Extends second) (late : second.Extends third) :
    first.Extends third :=
  ⟨early.global.trans late.global, early.functions.trans late.functions, early.locals.trans late.locals,
    fun name entry found => late.foundVariable name entry (early.foundVariable name entry found),
    fun name record found => late.foundFunction name record (early.foundFunction name record found)⟩

end Symbols.Extends

namespace Symbols

theorem prefix_locals {before after : Symbols}
    (kept : ∀ number < before.locals.size, after.locals[number]? = before.locals[number]?) :
    before.locals.toList <+: after.locals.toList := by
  rw [List.prefix_iff_getElem?]
  intro number inside
  rw [Array.getElem?_toList, kept number inside, ← Array.getElem?_toList, List.getElem?_eq_getElem inside]

/-- A global variable stands behind the others, and these are found as before. -/
theorem prefix_global (symbols : Symbols) (name : String) (kind : VariableKind) :
    symbols.global.entries <+: (symbols.enter .global name kind).global.entries ∧
      ∀ other entry, symbols.global.find? other = some entry →
        (symbols.enter .global name kind).global.find? other = some entry := by
  have present : symbols.table? .global = some symbols.global := rfl
  rcases declare?_cases present name kind with
    ⟨_, answer⟩ | ⟨_, _, answer⟩ | ⟨absent, _, answer⟩ <;> rw [enter, answer]
  · exact ⟨List.prefix_rfl, fun _ _ => id⟩
  · exact ⟨List.prefix_rfl, fun _ _ => id⟩
  · exact ⟨List.prefix_append _ _, fun _ _ => NameTable.find?_append absent⟩

theorem extends_openFunction (symbols : Symbols) (declarator : Declarator) (params : List Parameter) :
    symbols.Extends (symbols.openFunction declarator params) := by
  have tables : symbols.locals.toList <+: (symbols.locals.push .empty).toList := by
    rw [Array.toList_push]
    exact List.prefix_append _ _
  rw [openFunction_eq_mk]
  by_cases taken : symbols.functions.contains declarator.subject.name = true
  · rw [if_pos taken]
    exact ⟨List.prefix_rfl, List.prefix_rfl, tables, fun _ _ => id, fun _ _ => id⟩
  · rw [if_neg taken]
    rw [Bool.not_eq_true] at taken
    exact ⟨List.prefix_rfl, List.prefix_append _ _, tables, fun _ _ => id, fun _ _ => NameTable.find?_append taken⟩

/-- What is entered in the table of the latest function leaves those before it alone. -/
theorem SameBut.extended {before after : Symbols} {number : Nat} (same : SameBut (.local number) before after)
    {earlier : Symbols} (held : earlier.Extends before) (later : earlier.locals.size ≤ number) :
    earlier.Extends after := by
  have global : after.global = before.global := Option.some.inj (same.tables .global (by simp))
  refine ⟨global ▸ held.global, same.functions ▸ held.functions, ?_, global ▸ held.foundVariable, ?_⟩
  · apply prefix_locals
    intro other inside
    have apart : Scope.local other ≠ .local number := by
      intro equal
      cases equal
      omega
    have kept : after.locals[other]? = before.locals[other]? := same.tables (.local other) apart
    obtain ⟨more, whole⟩ := held.locals
    rw [kept, ← Array.getElem?_toList, ← Array.getElem?_toList, ← whole, List.getElem?_append_left inside]
  · intro name record found
    rw [function?, same.functions]
    exact held.foundFunction name record found

end Symbols

/-- One more definition. -/
theorem Definition.extends_after (symbols : Symbols) (definition : Definition) :
    symbols.Extends (definition.after symbols) := by
  obtain ⟨declarator, length | ⟨params, locals, body⟩⟩ := definition
  · have same := (Declaration.enters_stated .global ⟨declarator, length⟩).same symbols
    have entered : symbols.global.entries <+: (Declaration.after .global symbols ⟨declarator, length⟩).global.entries ∧
        ∀ other entry, symbols.global.find? other = some entry →
          (Declaration.after .global symbols ⟨declarator, length⟩).global.find? other = some entry := by
      unfold Declaration.after
      split
      · exact ⟨List.prefix_rfl, fun _ _ => id⟩
      · split
        · exact symbols.prefix_global _ _
        · exact ⟨List.prefix_rfl, fun _ _ => id⟩
    refine ⟨entered.1, same.functions ▸ List.prefix_rfl, ?_, entered.2, ?_⟩
    · exact Symbols.prefix_locals fun number _ => same.tables (.local number) (by simp)
    · intro name record found
      change (Declaration.after .global symbols ⟨declarator, length⟩).functions.find? name = _
      rw [same.functions]
      exact found
  · have same := same_bodySymbols symbols declarator params locals
    exact same.extended (symbols.extends_openFunction declarator params) (Nat.le_refl _)

/-- What a run of definitions leaves extends what it starts from. -/
theorem Program.extends_after (symbols : Symbols) (program : Program) : symbols.Extends (program.after symbols) := by
  induction program generalizing symbols with
  | nil => exact .refl symbols
  | cons definition rest ih => exact (definition.extends_after symbols).trans (ih _)

/-- The source behind another one is read as more definitions. It has other lines where it stands, but the same kinds
of tokens. -/
theorem parseSource_join {front back : String} {tree other : ParseTree} (parsed : parseSource front = .ok tree)
    (parsed' : parseSource back = .ok other) :
    ∃ joined more, parseSource (front ++ "\n" ++ back) = .ok joined ∧
      Program.ofTree joined = Program.ofTree tree ++ more := by
  obtain ⟨tokens, read, found⟩ := parseSource_ok parsed
  obtain ⟨tokens', read', found'⟩ := parseSource_ok parsed'
  obtain ⟨rooted, conforming, labels⟩ := Language.parse_tree found
  obtain ⟨rooted', conforming', labels'⟩ := Language.parse_tree found'
  have lowered := tokenize_join read read'
  generalize (front.toList ++ ['\n']).count '\n' = lines at lowered
  have kinds : (tokens'.map (Token.lowered lines)).map Token.kind = other.leaves := by
    rw [Parser.leaves_of_leafLabels labels', List.map_map]
    rfl
  obtain ⟨later, parsedLater⟩ := Parser.parse_of_tree Language.grammar_valid Language.parser_built rooted' conforming'
    kinds
  obtain ⟨laterRooted, laterConforming, laterLabels⟩ := Language.parse_tree parsedLater
  have each : ∀ definition ∈ tree.definitions ++ later.definitions, definition.Defines :=
    List.forall_mem_append.mpr ⟨Tree.defines_of_mem conforming, Tree.defines_of_mem laterConforming⟩
  have spelled : (tree.definitions ++ later.definitions).flatMap Tree.leafLabels =
      (tokens ++ tokens'.map (Token.lowered lines)).map (Token.label NonTerminal) := by
    rw [List.flatMap_append, Tree.leafLabels_definitions conforming (.inl rooted),
      Tree.leafLabels_definitions laterConforming (.inl laterRooted), labels, laterLabels, List.map_append]
  obtain ⟨joined, parsedJoined, program⟩ := Language.parse_definitions each spelled
  refine ⟨joined, later.definitions.map Definition.ofTree, ?_, ?_⟩
  · rw [parseSource, lowered]
    change (Language.parser.parse _).mapError _ = _
    rw [parsedJoined]
    rfl
  · rw [program, List.map_append, Program.ofTree_eq_map conforming rooted]

/-- Behind a source that is parsed, and a line end, any source that is parsed can stand: the whole is parsed, and all that
the evaluation of the first source leaves, code, errors and symbols, comes first in what the whole leaves. -/
theorem evaluation_of_joined_extends {front back : String} {tree other : ParseTree}
    (parsed : parseSource front = .ok tree) (parsed' : parseSource back = .ok other) :
    ∃ joined, parseSource (front ++ "\n" ++ back) = .ok joined ∧
      (Evaluation.ofTree tree).code <+: (Evaluation.ofTree joined).code ∧
      (Evaluation.ofTree tree).errors <+: (Evaluation.ofTree joined).errors ∧
      (Evaluation.ofTree tree).symbols.Extends (Evaluation.ofTree joined).symbols := by
  obtain ⟨joined, more, found, program⟩ := parseSource_join parsed parsed'
  obtain ⟨conforming, rooted⟩ := parseSource_conforms parsed
  obtain ⟨conforming', rooted'⟩ := parseSource_conforms found
  refine ⟨joined, found, ?_⟩
  rw [Evaluation.ofTree_eq_program conforming rooted, Evaluation.ofTree_eq_program conforming' rooted', program]
  refine ⟨?_, ?_, ?_⟩
  · rw [Program.code_append]
    exact List.prefix_append _ _
  · rw [Program.faults, Program.faults, faultsAll_append]
    exact List.prefix_append _ _
  · rw [Program.after, Program.after, List.foldl_append]
    exact Program.extends_after _ more

/-- The same source twice: its functions are then defined twice, and what it says the second time comes behind. -/
theorem evaluation_of_branching_twice :
    ∃ tree joined, parseSource branching = .ok tree ∧
      parseSource (branching ++ "\n" ++ branching) = .ok joined ∧
      (Evaluation.ofTree tree).code <+: (Evaluation.ofTree joined).code ∧
      (Evaluation.ofTree tree).symbols.Extends (Evaluation.ofTree joined).symbols ∧
      [⟨"f", .int, [.param false, .param true], 0⟩, ⟨"h", .void, [], 1⟩] <+:
        (Evaluation.ofTree joined).symbols.functions.entries := by
  obtain ⟨_, tree, _, parsed, _, _, functions, _⟩ := branching_parses
  obtain ⟨joined, found, code, _, symbols⟩ := evaluation_of_joined_extends parsed parsed
  exact ⟨tree, joined, parsed, found, code, symbols, functions ▸ symbols.functions⟩

end Minuscule
