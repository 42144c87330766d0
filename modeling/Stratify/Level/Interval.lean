import Stratify.Level.Basic

/-!
# Intervals of levels

An interval is given by its two ends under the correctness order, and is empty when they cross.
-/

namespace Stratify

/-- The two ends of an interval of levels, or of numbers that stand for levels. -/
structure Interval (κ : Type) where
  lower : κ
  upper : κ
deriving DecidableEq, Repr

namespace Interval

def text {κ : Type} (name : κ → String) (i : Interval κ) : String :=
  "[" ++ name i.lower ++ ", " ++ name i.upper ++ "]"

def unbounded : Interval Level :=
  ⟨.data, .genquant⟩

def empty (i : Interval Level) : Bool :=
  Order.correctness.less i.upper i.lower

def contains (i : Interval Level) (l : Level) : Bool :=
  Order.correctness.lessEq i.lower l && Order.correctness.lessEq l i.upper

def feasible (i : Interval Level) : List Level :=
  Level.all.filter i.contains

/-- The lowest level of the interval under an order. -/
def pick? (i : Interval Level) (o : Order) : Option Level :=
  match i.feasible with
  | [] => none
  | ls => some (o.min ls)

/-- The level that the solver takes from an interval; of no use if the interval is empty. -/
def cheapest (i : Interval Level) : Level :=
  (i.pick? .performance).getD .data

theorem mem_feasible_iff {i : Interval Level} {l : Level} :
    l ∈ i.feasible ↔ i.contains l = true := by
  simp [feasible, Level.mem_all]

end Interval

end Stratify
