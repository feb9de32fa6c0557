import Minuscule.Proofs.Emission
import Minuscule.Proofs.Machine
import Minuscule.Proofs.Spelling

/-!
What a function body means, without its code. An expression has a value in a store unless an operator is undefined on
its operands; a statement takes a store to a store and passes control on or returns. A call has no meaning here.
-/

namespace Minuscule

mutual

def Expression.value? (operations : Operations) (store : Store) : Expression → Option Int
  | .number literal => some (Numeral.value literal.toList)
  | .scalar use => some (store.scalars use.name)
  | .element use index => (index.value? operations store).map (store.arrays use.name)
  | .call .. => none
  | .chain head links => (head.value? operations store).bind (links.value? operations store)

/-- The operators of a chain one after the other, on the value of all that stands to their left. -/
def Links.value? (operations : Operations) (store : Store) : Links → Int → Option Int
  | .nil, left => some left
  | .cons operator operand rest, left =>
    (operand.value? operations store).bind fun right =>
      (operations operator left right).bind (rest.value? operations store)

end

/-- A statement started in the first store ends in this way with the second. -/
inductive Statement.Runs (operations : Operations) : Statement → Store → Outcome → Store → Prop where
  | skip {store : Store} : Runs operations .skip store .passed store
  | seq {first rest : Statement} {store middle final : Store} {outcome : Outcome} :
    Runs operations first store .passed middle → Runs operations rest middle outcome final →
      Runs operations (.seq first rest) store outcome final
  | seqReturned {first rest : Statement} {store final : Store} {value : Option Int} :
    Runs operations first store (.returned value) final →
      Runs operations (.seq first rest) store (.returned value) final
  | assign {target : Occurrence} {value : Expression} {store : Store} {result : Int} :
    value.value? operations store = some result →
      Runs operations (.assign target value) store .passed (store.assign target.name result)
  | store {target : Occurrence} {index value : Expression} {store : Store} {position result : Int} :
    index.value? operations store = some position → value.value? operations store = some result →
      Runs operations (.store target index value) store .passed (store.write target.name position result)
  | consequent {test : Expression} {consequent alternative : Statement} {store final : Store} {condition : Int}
    {outcome : Outcome} :
    test.value? operations store = some condition → condition ≠ 0 → Runs operations consequent store outcome final →
      Runs operations (.select test consequent alternative) store outcome final
  | alternative {test : Expression} {consequent alternative : Statement} {store final : Store} {outcome : Outcome} :
    test.value? operations store = some 0 → Runs operations alternative store outcome final →
      Runs operations (.select test consequent alternative) store outcome final
  | loopEnd {test : Expression} {body : Statement} {store : Store} :
    test.value? operations store = some 0 → Runs operations (.loop test body) store .passed store
  | loopRound {test : Expression} {body : Statement} {store middle final : Store} {condition : Int}
    {outcome : Outcome} :
    test.value? operations store = some condition → condition ≠ 0 → Runs operations body store .passed middle →
      Runs operations (.loop test body) middle outcome final → Runs operations (.loop test body) store outcome final
  | loopReturned {test : Expression} {body : Statement} {store final : Store} {condition : Int} {value : Option Int} :
    test.value? operations store = some condition → condition ≠ 0 →
      Runs operations body store (.returned value) final →
        Runs operations (.loop test body) store (.returned value) final
  | retVoid {store : Store} : Runs operations (.ret none) store (.returned none) store
  | ret {value : Expression} {store : Store} {result : Int} :
    value.value? operations store = some result →
      Runs operations (.ret (some value)) store (.returned (some result)) store

/-! Names. A name that the compiler makes up starts with an underscore, so it is no numeral. -/

theorem digits?_underscore (rest : List Char) : Numeral.digits? ('_' :: rest) = none :=
  if_neg fun digits => by
    have first := (List.all_eq_true.mp digits.2) '_' (List.mem_cons_self ..)
    cases first

theorem toList_temporary (number : Nat) : (temporary number).toList = '_' :: 'v' :: Nat.toDigits 10 number := by
  change ("_v" ++ toString number).toList = _
  rw [String.toList_append, Nat.toString_eq_ofList_toDigits, String.toList_ofList, String.toList_ofList]
  rfl

theorem toList_blockLabel (number : Nat) :
    (blockLabel number).toList = '_' :: '_' :: 'b' :: Nat.toDigits 10 number := by
  change ("__b" ++ toString number).toList = _
  rw [String.toList_append, Nat.toString_eq_ofList_toDigits, String.toList_ofList, String.toList_ofList]
  rfl

theorem toDigits_injective {number number' : Nat} (same : Nat.toDigits 10 number = Nat.toDigits 10 number') :
    number = number' := by
  have back := congrArg (Nat.ofDigitChars 10 · 0) same
  simpa only [Nat.ofDigitChars_ten_toDigits] using back

theorem temporary_injective {number number' : Nat} (same : temporary number = temporary number') :
    number = number' := by
  have texts := congrArg String.toList same
  rw [toList_temporary, toList_temporary] at texts
  exact toDigits_injective (List.cons.inj (List.cons.inj texts).2).2

theorem blockLabel_injective {number number' : Nat} (same : blockLabel number = blockLabel number') :
    number = number' := by
  have texts := congrArg String.toList same
  rw [toList_blockLabel, toList_blockLabel] at texts
  exact toDigits_injective (List.cons.inj (List.cons.inj (List.cons.inj texts).2).2).2

theorem digits?_temporary (number : Nat) : Numeral.digits? (temporary number).toList = none := by
  rw [toList_temporary, digits?_underscore]

/-- Names that the compiler does not make up, and numerals. -/
def Vocabulary.hygienic : Vocabulary where
  name text := Numeral.digits? text.toList = none ∧ ∀ number, text ≠ temporary number ∧ text ≠ blockLabel number
  literal text := Numeral.digits? text.toList = some (Numeral.value text.toList)

/-! Stores. -/

/-- No temporary from this number on. -/
def Settled (next : Nat) (place : String) : Prop :=
  ∀ number, next ≤ number → place ≠ temporary number

theorem Settled.mono {next later : Nat} {place : String} (settled : Settled next place) (le : next ≤ later) :
    Settled later place :=
  fun number high => settled number (le.trans high)

theorem settled_temporary {number next : Nat} (low : number < next) : Settled next (temporary number) := by
  intro other high same
  have equal := temporary_injective same
  omega

namespace Store

/-- Two stores that differ in temporaries from this number on at most. -/
structure Keeps (next : Nat) (before after : Store) : Prop where
  arrays : after.arrays = before.arrays
  scalars : ∀ name, Settled next name → after.scalars name = before.scalars name

/-- Two stores that hold the same in the variables and arrays of the source. -/
abbrev Agrees (left right : Store) : Prop :=
  Keeps 0 right left

namespace Keeps
variable {next later : Nat} {before middle after : Store}

theorem refl (next : Nat) (store : Store) : Keeps next store store :=
  ⟨rfl, fun _ _ => rfl⟩

theorem symm (keeps : Keeps next before after) : Keeps next after before :=
  ⟨keeps.arrays.symm, fun name settled => (keeps.scalars name settled).symm⟩

theorem trans (first : Keeps next before middle) (second : Keeps next middle after) : Keeps next before after :=
  ⟨second.arrays.trans first.arrays,
    fun name settled => (second.scalars name settled).trans (first.scalars name settled)⟩

theorem mono (keeps : Keeps later before after) (le : next ≤ later) : Keeps next before after :=
  ⟨keeps.arrays, fun name settled => keeps.scalars name (settled.mono le)⟩

theorem read (keeps : Keeps next before after) {place : String} (settled : Settled next place) :
    after.read place = before.read place := by
  rw [Store.read, Store.read, keeps.scalars place settled]

theorem assign (keeps : Keeps next before after) (name : String) (value : Int) :
    Keeps next (before.assign name value) (after.assign name value) := by
  refine ⟨keeps.arrays, fun other settled => ?_⟩
  by_cases same : other = name
  · subst same
    simp [Store.assign]
  · simp [Store.assign, same, keeps.scalars other settled]

theorem write (keeps : Keeps next before after) (array : String) (index value : Int) :
    Keeps next (before.write array index value) (after.write array index value) :=
  ⟨by rw [Store.write, Store.write, keeps.arrays], keeps.scalars⟩

theorem temporary {number : Nat} (high : next ≤ number) (store : Store) (value : Int) :
    Keeps next store (store.assign (Minuscule.temporary number) value) := by
  refine ⟨rfl, fun name settled => ?_⟩
  simp [Store.assign, settled number high]

end Keeps

theorem read_name {name : String} (named : Numeral.digits? name.toList = none) (store : Store) :
    store.read name = store.scalars name := by
  rw [Store.read, named]
  rfl

theorem read_numeral {literal : String} {number : Nat} (numeral : Numeral.digits? literal.toList = some number)
    (store : Store) : store.read literal = number := by
  rw [Store.read, numeral]
  rfl

theorem read_temporary (store : Store) (number : Nat) (value : Int) :
    (store.assign (temporary number) value).read (temporary number) = value := by
  rw [read_name (digits?_temporary number)]
  exact Function.update_self ..

end Store

/-- A vocabulary without temporaries. -/
def Vocabulary.Settles (words : Vocabulary) : Prop :=
  ∀ text, words.name text ∨ words.literal text → Settled 0 text

theorem Vocabulary.settles_hygienic : Vocabulary.hygienic.Settles := by
  rintro text (named | literal) number _
  · exact (named.2 number).1
  · rintro rfl
    cases (digits?_temporary number).symm.trans literal

mutual

/-- Values depend on what the source can name only. -/
theorem Expression.value?_congr {operations : Operations} {left right : Store} (agrees : left.Agrees right) :
    ∀ {expression : Expression}, expression.Spelled .hygienic →
      expression.value? operations left = expression.value? operations right
  | .number _, _ => rfl
  | .scalar use, spelled => congrArg some (agrees.scalars use.name (Vocabulary.settles_hygienic _ (.inl spelled)))
  | .element use index, spelled => by
    rw [Expression.value?, Expression.value?, Expression.value?_congr agrees spelled.2, agrees.arrays]
  | .call .., _ => rfl
  | .chain head links, spelled => by
    rw [Expression.value?, Expression.value?, Expression.value?_congr agrees spelled.1,
      funext (Links.value?_congr agrees spelled.2)]

theorem Links.value?_congr {operations : Operations} {left right : Store} (agrees : left.Agrees right) :
    ∀ {links : Links}, links.Spelled .hygienic →
      ∀ value, links.value? operations left value = links.value? operations right value
  | .nil, _, _ => rfl
  | .cons operator operand rest, spelled, value => by
    rw [Links.value?, Links.value?, Expression.value?_congr agrees spelled.1,
      funext (Links.value?_congr agrees spelled.2)]

end

end Minuscule
