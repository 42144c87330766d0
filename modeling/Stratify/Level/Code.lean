import Stratify.Level.Interval

/-!
# Numbers that stand for levels

Callers may name a level by its number. A number that is none of the three has a text, but no
place in an order: whatever would have to rank it is undefined.
-/

namespace Stratify

structure LevelCode where
  value : Int
deriving DecidableEq, Repr, Inhabited

namespace LevelCode

def level? (c : LevelCode) : Option Level :=
  match c.value with
  | 0 => some .data
  | 1 => some .model
  | 2 => some .genquant
  | _ => none

def text (c : LevelCode) : String :=
  match c.level? with
  | some l => l.text
  | none => "Level(" ++ toString c.value ++ ")"

def isValid (c : LevelCode) : Bool :=
  c.level?.isSome

/-- The levels behind some numbers, if all of them have one. -/
def levels? (cs : List LevelCode) : Option (List Level) :=
  cs.mapM level?

end LevelCode

namespace Level

def code : Level → LevelCode
  | data => ⟨0⟩
  | model => ⟨1⟩
  | genquant => ⟨2⟩

@[simp] theorem level?_code (l : Level) : l.code.level? = some l := by
  cases l <;> rfl

@[simp] theorem text_code (l : Level) : l.code.text = l.text := by
  cases l <;> rfl

end Level

/-- What can stand for a level in a constraint. -/
class OfLevel (κ : Type) where
  ofLevel : Level → κ

instance : OfLevel Level where
  ofLevel l := l

instance : OfLevel LevelCode where
  ofLevel := Level.code

namespace Order

def rank? (o : Order) (c : LevelCode) : Option Nat :=
  c.level?.map o.rank

def less? (o : Order) (a b : LevelCode) : Option Bool := do
  return o.less (← a.level?) (← b.level?)

def lessEq? (o : Order) (a b : LevelCode) : Option Bool := do
  return o.lessEq (← a.level?) (← b.level?)

def max? (o : Order) (cs : List LevelCode) : Option Level :=
  (LevelCode.levels? cs).map o.max

def min? (o : Order) (cs : List LevelCode) : Option Level :=
  (LevelCode.levels? cs).map o.min

/-- A single number is in order whatever it is. -/
def sort? (o : Order) : List LevelCode → Option (List LevelCode)
  | [] => some []
  | [c] => some [c]
  | cs => (LevelCode.levels? cs).map fun ls ↦ (o.sort ls).map Level.code

end Order

namespace Interval

def empty? (i : Interval LevelCode) : Option Bool :=
  Order.correctness.less? i.upper i.lower

/-- The upper end is only looked at when the lower end lets the level in. -/
def contains? (i : Interval LevelCode) (c : LevelCode) : Option Bool := do
  if ← Order.correctness.lessEq? i.lower c then
    Order.correctness.lessEq? c i.upper
  else
    return false

def levels? (i : Interval LevelCode) : Option (Interval Level) := do
  return ⟨← i.lower.level?, ← i.upper.level?⟩

/-- Undefined unless both ends are levels. -/
def feasible? (i : Interval LevelCode) : Option (List Level) :=
  i.levels?.map feasible

/-- Undefined unless both ends are levels; otherwise the pick, if there is one. -/
def pickCode? (i : Interval LevelCode) (o : Order) : Option (Option Level) :=
  i.levels?.map fun j ↦ j.pick? o

end Interval

end Stratify
