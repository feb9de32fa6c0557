import Mathlib.Data.List.Forall2
import Mathlib.Data.List.Infix
import Mathlib.Data.List.TakeWhile

/-!
Lists, apart from what they are lists of: rows that are related item by item, where an item stands in a list that has
parts, and what a test or a key selects.
-/

namespace Minuscule
variable {α β γ δ : Type}

/-! Related rows. -/

section Related
variable {R : α → β → Prop} {list : List α} {list' : List β}

theorem exists_forall₂ (each : ∀ one ∈ list, ∃ other, R one other) : ∃ others, List.Forall₂ R list others := by
  induction list with
  | nil => exact ⟨[], .nil⟩
  | cons one rest ih =>
    obtain ⟨here, later⟩ := List.forall_mem_cons.mp each
    obtain ⟨other, related⟩ := here
    obtain ⟨others, row⟩ := ih later
    exact ⟨other :: others, .cons related row⟩

theorem forall₂_split {front back : List α} (related : List.Forall₂ R (front ++ back) list') :
    ∃ front' back', list' = front' ++ back' ∧ List.Forall₂ R front front' ∧ List.Forall₂ R back back' := by
  induction front generalizing list' with
  | nil => exact ⟨[], list', rfl, .nil, related⟩
  | cons a front ih =>
    cases related with
    | cons here later =>
      obtain ⟨front', back', rfl, first, second⟩ := ih later
      exact ⟨_ :: front', back', rfl, .cons here first, second⟩

theorem map_eq_of_forall₂ {f : α → γ} {g : β → γ} (related : List.Forall₂ R list list')
    (same : ∀ a b, R a b → f a = g b) : list.map f = list'.map g := by
  rw [← List.forall₂_eq_eq_eq, List.forall₂_map_left_iff, List.forall₂_map_right_iff]
  exact related.imp same

theorem forall₂_of_map_eq {f : α → γ} {g : β → γ} (same : list.map f = list'.map g)
    (each : ∀ a ∈ list, ∀ b ∈ list', f a = g b → R a b) : List.Forall₂ R list list' := by
  induction list generalizing list' with
  | nil =>
    cases List.map_eq_nil_iff.mp same.symm
    exact .nil
  | cons a rest ih =>
    obtain ⟨b, others, rfl, head, tail⟩ := List.map_eq_cons_iff.mp same.symm
    refine .cons (each a (by simp) b (by simp) head.symm) (ih tail.symm fun a' member b' member' => ?_)
    exact each a' (List.mem_cons_of_mem _ member) b' (List.mem_cons_of_mem _ member')

theorem forall_of_forall₂ {P : β → Prop} (related : List.Forall₂ R list list') (each : ∀ a b, R a b → P b) :
    ∀ b ∈ list', P b := by
  induction related with
  | nil => simp
  | cons here _ ih => exact List.forall_mem_cons.mpr ⟨each _ _ here, ih⟩

theorem rel_getElem? (related : List.Forall₂ R list list') (index : Nat) : Option.Rel R list[index]? list'[index]? := by
  induction related generalizing index with
  | nil => exact .none
  | cons here _ ih =>
    cases index with
    | zero => exact .some here
    | succ index => exact ih index

theorem rel_bind {S : γ → δ → Prop} {first : Option α} {second : Option β} {f : α → Option γ} {g : β → Option δ}
    (related : Option.Rel R first second) (further : ∀ one other, R one other → Option.Rel S (f one) (g other)) :
    Option.Rel S (first.bind f) (second.bind g) := by
  cases related with
  | none => exact .none
  | some here => exact further _ _ here

end Related

section Children
variable {f : α → β} {list : List α} {first second third : β}

theorem map_eq_pair (same : list.map f = [first, second]) : ∃ a b, list = [a, b] ∧ f a = first ∧ f b = second := by
  obtain ⟨a, _, rfl, here, same⟩ := List.map_eq_cons_iff.mp same
  obtain ⟨b, _, rfl, next, same⟩ := List.map_eq_cons_iff.mp same
  cases List.map_eq_nil_iff.mp same
  exact ⟨a, b, rfl, here, next⟩

theorem map_eq_triple (same : list.map f = [first, second, third]) :
    ∃ a b c, list = [a, b, c] ∧ f a = first ∧ f b = second ∧ f c = third := by
  obtain ⟨a, _, rfl, here, same⟩ := List.map_eq_cons_iff.mp same
  obtain ⟨b, c, rfl, next, last⟩ := map_eq_pair same
  exact ⟨a, b, c, rfl, here, next, last⟩

end Children

/-! Where an item stands. -/

section Middle
variable (front back : List α) (item item' : α)

theorem getElem?_middle : (front ++ item :: back)[front.length]? = some item := by
  rw [List.getElem?_append_right (Nat.le_refl _), Nat.sub_self, List.getElem?_cons_zero]

theorem getElem?_behind_middle (more : Nat) : (front ++ item :: back)[front.length + more + 1]? = back[more]? := by
  rw [List.getElem?_append_right (by omega), Nat.add_assoc, Nat.add_sub_cancel_left, List.getElem?_cons_succ]

variable {front} in
theorem getElem?_of_ne_middle {place : Nat} (other : place ≠ front.length) :
    (front ++ item :: back)[place]? = (front ++ item' :: back)[place]? := by
  rcases Nat.lt_or_gt_of_ne other with early | late
  · rw [List.getElem?_append_left early, List.getElem?_append_left early]
  · obtain ⟨more, rfl⟩ := Nat.exists_eq_add_of_lt late
    rw [getElem?_behind_middle, getElem?_behind_middle]

end Middle

/-- A sign of a sequence in three parts stands in one of them. -/
theorem place_cases {first second third front back : List α} {item : α}
    (split : first ++ second ++ third = front ++ item :: back) :
    (∃ rest, first = front ++ item :: rest ∧ back = rest ++ second ++ third) ∨
      (∃ before rest, second = before ++ item :: rest ∧ back = rest ++ third) ∨
        ∃ before, third = before ++ item :: back := by
  rcases List.append_eq_append_iff.mp split with ⟨between, inFront, behind⟩ | ⟨between, inFront, behind⟩
  · exact .inr (.inr ⟨between, behind⟩)
  · rcases List.cons_eq_append_iff.mp behind with ⟨rfl, third⟩ | ⟨rest, rfl, rfl⟩
    · exact .inr (.inr ⟨[], third⟩)
    · rcases List.append_eq_append_iff.mp inFront with ⟨before, _, second⟩ | ⟨before, first, second⟩
      · exact .inr (.inl ⟨before, rest, second, rfl⟩)
      · rcases List.cons_eq_append_iff.mp second with ⟨rfl, here⟩ | ⟨later, rfl, rfl⟩
        · exact .inr (.inl ⟨[], rest, here, rfl⟩)
        · exact .inl ⟨later, first, rfl⟩

/-- Two places in one list are the same, or one lies before the other. -/
theorem places_compare {front back front' back' : List α} {a b : α}
    (same : front ++ a :: back = front' ++ b :: back') :
    (front = front' ∧ a = b ∧ back = back') ∨ (∃ between, front = front' ++ b :: between) ∨
      ∃ between, front' = front ++ a :: between ∧ back = between ++ b :: back' := by
  rcases List.append_eq_append_iff.mp same with ⟨between, rfl, split⟩ | ⟨between, rfl, split⟩
  · cases between with
    | nil =>
      cases split
      exact .inl ⟨by simp, rfl, rfl⟩
    | cons head between =>
      cases split
      exact .inr (.inr ⟨between, rfl, rfl⟩)
  · cases between with
    | nil =>
      cases split
      exact .inl ⟨by simp, rfl, rfl⟩
    | cons head between =>
      cases split
      exact .inr (.inl ⟨between, rfl⟩)

/-- Two runs of numbers, the second behind the first. -/
theorem perm_range' {used others : List Nat} {first count more : Nat} (here : used.Perm (List.range' first count))
    (later : others.Perm (List.range' (first + count) more)) :
    (used ++ others).Perm (List.range' first (count + more)) := by
  rw [← List.range'_append_1]
  exact here.append later

/-! What a test or a key selects. -/

theorem take_drop_takeWhile (test : α → Bool) (text : List α) :
    text.take (text.takeWhile test).length = text.takeWhile test ∧
      text.drop (text.takeWhile test).length = text.dropWhile test := by
  have split := List.takeWhile_append_dropWhile (p := test) (l := text)
  constructor
  · exact (List.prefix_iff_eq_take.mp (List.takeWhile_prefix test)).symm
  · calc text.drop (text.takeWhile test).length
        = (text.takeWhile test ++ text.dropWhile test).drop (text.takeWhile test).length := by rw [split]
      _ = text.dropWhile test := List.drop_left

theorem not_of_head?_dropWhile {test : α → Bool} {text : List α} :
    ∀ next ∈ (text.dropWhile test).head?, test next = false := by
  intro next found
  have stopped := List.head?_dropWhile_not test text
  rw [Option.mem_def] at found
  rwa [found] at stopped

/-- A run of items that pass is taken whole, if the next item does not pass. -/
theorem takeWhile_append_stop {test : α → Bool} {more after : List α} (inside : ∀ c ∈ more, test c = true)
    (stop : ∀ next ∈ after.head?, test next = false) : (more ++ after).takeWhile test = more := by
  rw [List.takeWhile_append_of_pos inside]
  cases after with
  | nil => simp
  | cons next rest => simp [stop next rfl]

theorem lookup_map (key : α → String) (value : α → β) (list : List α) (name : String) :
    (list.map fun entry => (key entry, value entry)).lookup name = (list.find? (key · = name)).map value := by
  induction list with
  | nil => rfl
  | cons entry rest ih =>
    rw [List.map_cons, List.lookup_cons, List.find?_cons]
    by_cases same : key entry = name
    · simp [same]
    · have other : (name == key entry) = false := by simpa using Ne.symm same
      simp only [same, decide_false, other]
      exact ih

end Minuscule
