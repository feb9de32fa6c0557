import Minuscule.Proofs.Derivation
import Minuscule.Proofs.Lookahead

/-!
First sets say what sequences derive. What a rewriting step leads to starts no differently from what it came
from, since the sets are closed under every production; so a whole derivation adds nothing to the First set of
the sequence it starts from. Conversely every member was put there by an expansion, and an expansion of some
height is a derivation.
-/

namespace Minuscule

namespace Grammar
variable {T N : Type} {grammar : Grammar T N}

theorem derives_nil_of_each {signs : List (Sign T N)} (each : ∀ sign ∈ signs, grammar.Derives [sign] []) :
    grammar.Derives signs [] := by
  have together : grammar.Derives (signs.map id) (signs.flatMap fun _ => []) := derives_flatMap each
  rwa [List.map_id, List.flatMap_eq_nil_iff.mpr fun _ _ => rfl] at together

theorem derives_start_of_split {kind : T} {front back rest : List (Sign T N)} {sign : Sign T N}
    (vanish : ∀ other ∈ front, grammar.Derives [other] [])
    (starts : grammar.Derives [sign] (.terminal kind :: rest)) :
    grammar.Derives (front ++ sign :: back) (.terminal kind :: (rest ++ back)) := by
  have nothing := derives_nil_of_each vanish
  have place : grammar.Derives (sign :: back) (.terminal kind :: (rest ++ back)) := starts.append .refl
  exact nothing.append place

theorem Vanishes.derives {height : Nat} {sign : Sign T N} (vanishes : grammar.Vanishes height sign) :
    grammar.Derives [sign] [] := by
  induction vanishes with
  | expand member _ ih => exact (derives_right member).trans (derives_nil_of_each ih)

theorem Starts.derives {kind : T} {height : Nat} {sign : Sign T N} (starts : grammar.Starts kind height sign) :
    ∃ rest, grammar.Derives [sign] (.terminal kind :: rest) := by
  induction starts with
  | terminal height => exact ⟨[], .refl⟩
  | @expand height production front back sign member right vanish _ ih =>
    obtain ⟨rest, derived⟩ := ih
    have nothing : ∀ other ∈ front, grammar.Derives [other] [] := by
      intro other inside
      obtain ⟨_, vanishes⟩ := vanish other inside
      exact vanishes.derives
    refine ⟨rest ++ back, (derives_right member).trans ?_⟩
    rw [right]
    exact derives_start_of_split nothing derived

end Grammar

namespace Lookahead
variable {T N : Type} [Ord T] [Ord N] [Std.TransOrd T] [Std.TransOrd N] [Std.LawfulEqOrd T]
  [Std.LawfulEqOrd N]

theorem mem_firstOfAll_append {first : SignSets T N} {front back : List (Sign T N)} {member : Sign T N} :
    member ∈ firstOfAll first (front ++ back) ↔
      (member ≠ .epsilon ∧ member ∈ firstOfAll first front) ∨
        (.epsilon ∈ firstOfAll first front ∧ member ∈ firstOfAll first back) := by
  induction front with
  | nil => simp +contextual [mem_firstOfAll_nil]
  | cons sign front ih =>
    rw [List.cons_append, mem_firstOfAll_cons, ih, mem_firstOfAll_cons, mem_firstOfAll_cons]
    grind

theorem mem_firstOfAll_singleton {first : SignSets T N} {sign member : Sign T N} :
    member ∈ firstOfAll first [sign] ↔ member ∈ firstOf first sign := by
  rw [mem_firstOfAll_cons, mem_firstOfAll_nil]
  grind

/-- A part of a sequence may be replaced by one that starts with all that it starts with. -/
theorem firstOfAll_inside {first : SignSets T N} {inner outer : List (Sign T N)}
    (covered : ∀ sign ∈ firstOfAll first inner, sign ∈ firstOfAll first outer) (front back : List (Sign T N))
    {sign : Sign T N} (inside : sign ∈ firstOfAll first (front ++ inner ++ back)) :
    sign ∈ firstOfAll first (front ++ outer ++ back) := by
  simp only [List.append_assoc, mem_firstOfAll_append] at inside ⊢
  rcases inside with early | ⟨vanishing, ⟨solid, here⟩ | ⟨gone, late⟩⟩
  · exact .inl early
  · exact .inr ⟨vanishing, .inl ⟨solid, covered sign here⟩⟩
  · exact .inr ⟨vanishing, .inr ⟨covered _ gone, late⟩⟩

section Grammars
variable {grammar : Grammar T N}

theorem firstOfAll_of_rewrites (valid : grammar.Valid) {before after : List (Sign T N)}
    (step : grammar.Rewrites before after) {sign : Sign T N}
    (inside : sign ∈ firstOfAll (firstSets grammar) after) : sign ∈ firstOfAll (firstSets grammar) before := by
  obtain ⟨front, production, back, member, rfl, rfl⟩ := step
  have covered : ∀ sign ∈ firstOfAll (firstSets grammar) production.right,
      sign ∈ firstOfAll (firstSets grammar) [.nonTerminal production.left] := by
    intro sign first
    rw [mem_firstOfAll_singleton]
    exact firstSets_closed valid member first
  simpa using firstOfAll_inside covered front back inside

/-- What a derivation leads to starts with nothing that its origin does not start with. -/
theorem firstOfAll_of_derives (valid : grammar.Valid) {before after : List (Sign T N)}
    (derived : grammar.Derives before after) {sign : Sign T N}
    (inside : sign ∈ firstOfAll (firstSets grammar) after) : sign ∈ firstOfAll (firstSets grammar) before := by
  induction derived with
  | refl => exact inside
  | tail _ step ih => exact ih (firstOfAll_of_rewrites valid step inside)

theorem derives_nil_of_first (valid : grammar.Valid) {sign : Sign T N} (solid : sign ≠ .epsilon)
    (first : .epsilon ∈ firstOf (firstSets grammar) sign) : grammar.Derives [sign] [] := by
  obtain ⟨_, vanishes⟩ := (justified_firstSets valid).sign_vanishes solid first
  exact vanishes.derives

theorem epsilon_mem_iff_derives (valid : grammar.Valid) {signs : List (Sign T N)}
    (solid : ∀ sign ∈ signs, sign ≠ .epsilon) :
    .epsilon ∈ firstOfAll (firstSets grammar) signs ↔ grammar.Derives signs [] := by
  constructor
  · intro vanishing
    apply Grammar.derives_nil_of_each
    intro sign inside
    exact derives_nil_of_first valid (solid sign inside) (epsilon_mem_firstOfAll.mp vanishing sign inside)
  · intro derived
    exact firstOfAll_of_derives valid derived (mem_firstOfAll_nil.mpr rfl)

theorem terminal_mem_iff_derives (valid : grammar.Valid) {signs : List (Sign T N)}
    (solid : ∀ sign ∈ signs, sign ≠ .epsilon) {kind : T} :
    .terminal kind ∈ firstOfAll (firstSets grammar) signs ↔
      ∃ rest, grammar.Derives signs (.terminal kind :: rest) := by
  constructor
  · intro first
    obtain ⟨front, sign, back, rfl, vanish, here⟩ := (mem_firstOfAll (by simp)).mp first
    obtain ⟨_, starts⟩ := (justified_firstSets valid).sign_starts here
    obtain ⟨rest, derived⟩ := starts.derives
    refine ⟨rest ++ back, Grammar.derives_start_of_split ?_ derived⟩
    intro other inside
    exact derives_nil_of_first valid (solid other (by simp [inside])) (vanish other inside)
  · rintro ⟨rest, derived⟩
    apply firstOfAll_of_derives valid derived
    rw [mem_firstOfAll_cons]
    exact .inl ⟨by simp, mem_firstOf_terminal.mpr rfl⟩

/-- No sequence without the end mark starts with anything but terminals and `ε`. -/
theorem mem_firstOfAll_cases (valid : grammar.Valid) {signs : List (Sign T N)}
    (unmarked : ∀ sign ∈ signs, sign ≠ .endMark) {sign : Sign T N}
    (first : sign ∈ firstOfAll (firstSets grammar) signs) : sign = .epsilon ∨ ∃ kind, sign = .terminal kind := by
  by_cases solid : sign = .epsilon
  · exact .inl solid
  · obtain ⟨front, source, back, rfl, _, here⟩ := (mem_firstOfAll solid).mp first
    cases source with
    | nonTerminal kind =>
      rcases (over_firstSets valid).members kind sign here with same | ⟨terminal, _, same⟩
      · exact .inl same
      · exact .inr ⟨terminal, same⟩
    | terminal kind => exact .inr ⟨kind, mem_firstOf_terminal.mp here⟩
    | epsilon => exact .inl ((mem_firstOf_fixed rfl).mp here)
    | endMark => exact absurd rfl (unmarked .endMark (by simp))

end Grammars

variable [DecidableEq N] {grammar : Grammar T N}

/-- The First set of a sequence of terminals and non-terminals holds the terminals that begin what the sequence
derives, `ε` exactly when the sequence derives nothing at all, and no other sign. The First set of a non-terminal
is that of the sequence of this one sign. -/
theorem first_sets_exact {start : N} {productions : List (Production T N)}
    (accepted : Grammar.ofProductions start productions = .ok grammar) (signs : List (Sign T N))
    (proper : ∀ sign ∈ signs, sign.isTerminal = true ∨ sign.isNonTerminal = true) :
    (∀ kind, .terminal kind ∈ firstOfAll (ofGrammar grammar).first signs ↔
      ∃ rest, grammar.Derives signs (.terminal kind :: rest)) ∧
    (.epsilon ∈ firstOfAll (ofGrammar grammar).first signs ↔ grammar.Derives signs []) ∧
    (∀ sign ∈ firstOfAll (ofGrammar grammar).first signs, sign = .epsilon ∨ ∃ kind, sign = .terminal kind) ∧
    ∀ kind sign, sign ∈ (ofGrammar grammar).first.of kind ↔
      sign ∈ firstOfAll (ofGrammar grammar).first [.nonTerminal kind] := by
  have valid := Grammar.valid_of_ofProductions accepted
  have solid : ∀ sign ∈ signs, sign ≠ .epsilon := by
    rintro _ inside rfl
    rcases proper _ inside with impossible | impossible <;> cases impossible
  have unmarked : ∀ sign ∈ signs, sign ≠ .endMark := by
    rintro _ inside rfl
    rcases proper _ inside with impossible | impossible <;> cases impossible
  refine ⟨?_, ?_, ?_, ?_⟩
  · exact fun kind => terminal_mem_iff_derives valid solid
  · exact epsilon_mem_iff_derives valid solid
  · exact fun sign first => mem_firstOfAll_cases valid unmarked first
  · intro kind sign
    have alone : sign ∈ firstOfAll (ofGrammar grammar).first [.nonTerminal kind] ↔
        sign ∈ firstOf (ofGrammar grammar).first (.nonTerminal kind) := mem_firstOfAll_singleton
    exact alone.symm

/-- Left recursion behind non-terminals that vanish by way of each other, and a non-terminal that derives no word. -/
def knotted : Grammar Nat Nat :=
  ⟨0, [⟨0, [.nonTerminal 1, .nonTerminal 0, .terminal 7]⟩, ⟨0, [.nonTerminal 1]⟩, ⟨1, [.nonTerminal 0]⟩, ⟨1, []⟩,
    ⟨2, [.nonTerminal 2, .terminal 8]⟩]⟩

theorem knotted_first :
    Grammar.ofProductions 0 knotted.productions = .ok knotted ∧
      (∃ rest, knotted.Derives [.nonTerminal 1, .terminal 9] (.terminal 7 :: rest)) ∧
      ¬ knotted.Derives [.nonTerminal 1, .terminal 9] [] ∧
      ¬ ∃ rest, knotted.Derives [.nonTerminal 2] (.terminal 8 :: rest) := by
  have accepted : Grammar.ofProductions 0 knotted.productions = .ok knotted := by decide
  obtain ⟨starts, vanishes, _⟩ := first_sets_exact accepted [.nonTerminal 1, .terminal 9] (by decide)
  obtain ⟨barren, _⟩ := first_sets_exact accepted [.nonTerminal 2] (by decide)
  refine ⟨accepted, (starts 7).mp ?_, mt vanishes.mpr ?_, mt (barren 8).mpr ?_⟩
  · decide +kernel
  · decide +kernel
  · decide +kernel

end Lookahead

end Minuscule
