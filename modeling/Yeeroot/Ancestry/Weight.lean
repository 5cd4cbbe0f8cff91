import Mathlib.Algebra.BigOperators.Group.Finset.Piecewise
import Mathlib.Algebra.Order.BigOperators.Group.Finset
import Yeeroot.Ancestry.Support

namespace Yeeroot.Ancestry

section Weight

variable {Id : Type} (voters : Finset Id) (weight : Id → Nat)

open Classical in
noncomputable def weightOf (p : Id → Prop) : Nat := ∑ id ∈ voters, if p id then weight id else 0

variable {voters weight} {p q : Id → Prop}

theorem weightOf_mono (h : ∀ id ∈ voters, p id → q id) :
    weightOf voters weight p ≤ weightOf voters weight q := by
  refine Finset.sum_le_sum fun id hid => ?_
  by_cases hp : p id
  · rw [if_pos hp, if_pos (h id hid hp)]
  · rw [if_neg hp]
    exact Nat.zero_le _

theorem weightOf_congr (h : ∀ id ∈ voters, p id ↔ q id) :
    weightOf voters weight p = weightOf voters weight q :=
  Nat.le_antisymm (weightOf_mono fun id hid => (h id hid).mp)
    (weightOf_mono fun id hid => (h id hid).mpr)

variable (voters weight) in
theorem weightOf_le_sum (p : Id → Prop) : weightOf voters weight p ≤ ∑ id ∈ voters, weight id := by
  refine Finset.sum_le_sum fun id _ => ?_
  by_cases hp : p id
  · rw [if_pos hp]
  · rw [if_neg hp]
    exact Nat.zero_le _

variable (voters weight) in
theorem weightOf_or_add_and (p q : Id → Prop) :
    weightOf voters weight (fun id => p id ∨ q id) + weightOf voters weight (fun id => p id ∧ q id) =
      weightOf voters weight p + weightOf voters weight q := by
  unfold weightOf
  rw [← Finset.sum_add_distrib, ← Finset.sum_add_distrib]
  refine Finset.sum_congr rfl fun id _ => ?_
  by_cases hp : p id <;> by_cases hq : q id <;> simp [hp, hq]

end Weight

end Yeeroot.Ancestry
