import Mathlib.Order.BoundedOrder.Basic
import Mathlib.Order.Lattice
import Stratify.Level.Interval

/-!
# Levels as a linear order

The correctness order makes the levels a bounded linear order, written `≤`. The comparisons that
the solver computes are those of this order, and the level it picks from an interval is the one of
least performance rank. Picking is monotone in both ends of the interval, which is why levels that
are picked one by one still fit together.
-/

namespace Stratify

namespace Level

instance : LinearOrder Level where
  le a b := Order.correctness.rank a ≤ Order.correctness.rank b
  le_refl _ := Nat.le_refl _
  le_trans _ _ _ := Nat.le_trans
  le_antisymm _ _ hab hba := Order.correctness.rank_injective (Nat.le_antisymm hab hba)
  le_total _ _ := Nat.le_total _ _
  toDecidableLE a b :=
    inferInstanceAs (Decidable (Order.correctness.rank a ≤ Order.correctness.rank b))
  toDecidableEq := inferInstance

instance : BoundedOrder Level where
  bot := .data
  bot_le _ := Nat.zero_le _
  top := .genquant
  le_top := Order.correctness.rank_le_top

theorem le_def {a b : Level} :
    a ≤ b ↔ Order.correctness.rank a ≤ Order.correctness.rank b :=
  Iff.rfl

theorem lt_def {a b : Level} :
    a < b ↔ Order.correctness.rank a < Order.correctness.rank b := by
  rw [← not_le, le_def, Nat.not_le]

@[simp] theorem data_le (l : Level) : .data ≤ l :=
  bot_le

@[simp] theorem le_genquant (l : Level) : l ≤ .genquant :=
  le_top

end Level

namespace Order

@[simp] theorem less_correctness {a b : Level} : correctness.less a b = true ↔ a < b := by
  rw [less, decide_eq_true_iff, Level.lt_def]

@[simp] theorem lessEq_correctness {a b : Level} : correctness.lessEq a b = true ↔ a ≤ b := by
  rw [lessEq, decide_eq_true_iff, Level.le_def]

end Order

namespace Interval

theorem empty_iff {i : Interval Level} : i.empty = true ↔ i.upper < i.lower := by
  rw [empty, Order.less_correctness]

theorem cheapest_mem {i : Interval Level} (h : i.lower ≤ i.upper) :
    i.lower ≤ i.cheapest ∧ i.cheapest ≤ i.upper := by
  obtain ⟨lo, hi⟩ := i
  revert h
  cases lo <;> cases hi <;> decide

/-- No level of the interval is cheaper. -/
theorem rank_cheapest_le {i : Interval Level} {l : Level} (hlo : i.lower ≤ l) (hhi : l ≤ i.upper) :
    Order.performance.rank i.cheapest ≤ Order.performance.rank l := by
  obtain ⟨lo, hi⟩ := i
  revert hlo hhi
  cases lo <;> cases hi <;> cases l <;> decide

theorem cheapest_mono {i j : Interval Level} (hlo : i.lower ≤ j.lower) (hhi : i.upper ≤ j.upper)
    (hi : i.lower ≤ i.upper) (hj : j.lower ≤ j.upper) : i.cheapest ≤ j.cheapest := by
  obtain ⟨lo₁, hi₁⟩ := i
  obtain ⟨lo₂, hi₂⟩ := j
  revert hlo hhi hi hj
  cases lo₁ <;> cases hi₁ <;> cases lo₂ <;> cases hi₂ <;> decide

end Interval

end Stratify
