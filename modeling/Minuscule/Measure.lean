/-!
The sum of a measure over a list. What is counted here, goals, frames, members of sets and bytes of
storage, is counted item by item.
-/

namespace Minuscule

/-- The instances are those of the numbers themselves, whatever else is in scope. -/
def sumOf {α : Type} (measure : α → Nat) (items : List α) : Nat :=
  @List.sum Nat instAddNat Zero.ofOfNat0 (items.map measure)

section Sum
variable {α : Type} (measure : α → Nat)

theorem sumOf_cons (item : α) (items : List α) :
    sumOf measure (item :: items) = measure item + sumOf measure items :=
  List.sum_cons

theorem sumOf_append (front back : List α) :
    sumOf measure (front ++ back) = sumOf measure front + sumOf measure back := by
  rw [sumOf, List.map_append]
  exact List.sum_append_nat

theorem le_sumOf {item : α} {items : List α} (member : item ∈ items) : measure item ≤ sumOf measure items := by
  obtain ⟨front, back, rfl⟩ := List.append_of_mem member
  rw [sumOf_append, sumOf_cons]
  omega

/-- Items that measure the same. -/
theorem sumOf_eq_mul {items : List α} {size : Nat} (each : ∀ item ∈ items, measure item = size) :
    sumOf measure items = items.length * size := by
  rw [sumOf, List.map_eq_replicate_iff.mpr each]
  exact List.sum_replicate_nat

end Sum

end Minuscule
