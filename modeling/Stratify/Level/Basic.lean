/-!
# Levels and their two orders

The level of a variable says when it is known: with the data, with the parameters of the model, or
only once a sample has been drawn. Information may flow upwards in the correctness order. The
performance order ranks the levels by how often the target program evaluates them, and only
decides between levels that are all correct. Both orders have `data` at the bottom.
-/

namespace Stratify

inductive Level
  | data
  | model
  | genquant
deriving DecidableEq, Repr, Inhabited

namespace Level

def text : Level → String
  | data => "data"
  | model => "model"
  | genquant => "genquant"

def all : List Level :=
  [data, model, genquant]

theorem mem_all (l : Level) : l ∈ all := by
  cases l <;> decide

end Level

inductive Order
  | correctness
  | performance
deriving DecidableEq, Repr, Inhabited

namespace Order

def text : Order → String
  | correctness => "correctness"
  | performance => "performance"

def rank : Order → Level → Nat
  | _, .data => 0
  | correctness, .model => 1
  | correctness, .genquant => 2
  | performance, .genquant => 1
  | performance, .model => 2

def less (o : Order) (a b : Level) : Bool :=
  decide (o.rank a < o.rank b)

def lessEq (o : Order) (a b : Level) : Bool :=
  decide (o.rank a ≤ o.rank b)

def top : Order → Level
  | correctness => .genquant
  | performance => .model

/-- The greatest of some levels, `data` if there are none. -/
def max (o : Order) (ls : List Level) : Level :=
  ls.foldl (fun m l ↦ if o.less m l then l else m) .data

/-- The lowest of some levels, the top of the order if there are none. -/
def min (o : Order) (ls : List Level) : Level :=
  ls.foldl (fun m l ↦ if o.less l m then l else m) o.top

def sort (o : Order) (ls : List Level) : List Level :=
  ls.mergeSort o.lessEq

theorem rank_injective (o : Order) {a b : Level} (h : o.rank a = o.rank b) : a = b := by
  cases o <;> cases a <;> cases b <;> simp_all [rank]

theorem rank_le_top (o : Order) (l : Level) : o.rank l ≤ o.rank o.top := by
  cases o <;> cases l <;> decide

end Order

end Stratify
