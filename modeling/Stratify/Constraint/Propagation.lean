import Stratify.Constraint.Basic

/-!
# Propagation of bounds

Every variable has a range of levels, at first that of the constants it is compared with. Bounds
are then passed along the inequalities between variables, lower bounds upwards and upper bounds
downwards, until nothing changes. A bound remembers the rule it comes from and the first variable
it came through. Ranges last for one propagation: each starts from full ones, and nothing that an
earlier one has found is read again.
-/

namespace Stratify

namespace Bound

variable {κ : Type}

/-- A bound as it arrives from a variable. -/
def along (b : Bound κ) (display : String) : Bound κ :=
  if b.via = "" then { b with via := display } else b

end Bound

/-- The greatest lower and the lowest upper bound found so far. -/
structure Range where
  lower : Bound Level
  upper : Bound Level
deriving DecidableEq, Repr

namespace Range

def full : Range :=
  ⟨.direct .data "", .direct .genquant ""⟩

def interval (r : Range) : Interval Level :=
  ⟨r.lower.level, r.upper.level⟩

/-- Takes a lower bound if it is a better one. -/
def raise? (r : Range) (b : Bound Level) : Option Range :=
  if Order.correctness.less r.lower.level b.level then some { r with lower := b } else none

/-- Takes an upper bound if it is a better one. -/
def cap? (r : Range) (b : Bound Level) : Option Range :=
  if Order.correctness.less b.level r.upper.level then some { r with upper := b } else none

end Range

namespace LevelSystem

/-- The inequalities between variables, by their places. -/
def edges (s : LevelSystem Level) : List (Nat × Nat) :=
  s.constraints.filterMap fun c ↦
    match c.lo, c.hi with
    | .var lo, .var hi => do return (← s.index? lo, ← s.index? hi)
    | _, _ => none

def rangeAt (rs : Array Range) (i : Nat) : Range :=
  rs.getD i Range.full

/-- Bounds a variable by the constant it is compared with, if it is. -/
def impose (s : LevelSystem Level) (rs : Array Range) (c : Constraint Level) : Array Range :=
  match c.lo, c.hi with
  | .const l, .var key =>
    match s.index? key with
    | some i => rs.setIfInBounds i
        (((rangeAt rs i).raise? (.direct l c.rule)).getD (rangeAt rs i))
    | none => rs
  | .var key, .const l =>
    match s.index? key with
    | some i => rs.setIfInBounds i
        (((rangeAt rs i).cap? (.direct l c.rule)).getD (rangeAt rs i))
    | none => rs
  | _, _ => rs

/-- The ranges that the constants alone allow. -/
def imposed (s : LevelSystem Level) : Array Range :=
  s.constraints.foldl s.impose (Array.replicate s.size Range.full)

end LevelSystem

/-- What propagation looks at and never changes. -/
structure Network where
  displays : Array String
  edges : List (Nat × Nat)

namespace Network

def succ (n : Network) (i : Nat) : List Nat :=
  n.edges.filterMap fun e ↦ if e.1 = i then some e.2 else none

def pred (n : Network) (i : Nat) : List Nat :=
  n.edges.filterMap fun e ↦ if e.2 = i then some e.1 else none

def display (n : Network) (i : Nat) : String :=
  n.displays.getD i ""

end Network

/-- The ranges so far, and the variables whose bounds are still to be passed on. -/
structure Progress where
  ranges : Array Range
  queue : List Nat

namespace Progress

def range (p : Progress) (i : Nat) : Range :=
  LevelSystem.rangeAt p.ranges i

def enqueue (p : Progress) (i : Nat) : Progress :=
  if i ∈ p.queue then p else { p with queue := p.queue ++ [i] }

/-- Stores a better range, if there is one, and puts its variable into the queue. -/
def improve (p : Progress) (i : Nat) : Option Range → Progress
  | none => p
  | some r => { p with ranges := p.ranges.setIfInBounds i r }.enqueue i

def raise (b : Bound Level) (p : Progress) (i : Nat) : Progress :=
  p.improve i ((p.range i).raise? b)

def cap (b : Bound Level) (p : Progress) (i : Nat) : Progress :=
  p.improve i ((p.range i).cap? b)

/-- Passes the bounds of one variable on to its neighbours. -/
def visit (n : Network) (p : Progress) (i : Nat) : Progress :=
  let r := p.range i
  let p := (n.succ i).foldl (raise (r.lower.along (n.display i))) p
  (n.pred i).foldl (cap (r.upper.along (n.display i))) p

/-- Works off the queue, for at most `fuel` variables. -/
def run (n : Network) : (fuel : Nat) → Progress → Progress
  | 0, p => p
  | fuel + 1, p =>
    match p.queue with
    | [] => p
    | i :: rest => run n fuel ({ p with queue := rest }.visit n i)

end Progress

namespace LevelSystem

def network (s : LevelSystem Level) : Network :=
  ⟨(s.vertices.map Vertex.display).toArray, s.edges⟩

/-- The ranges that all the constraints allow. A variable enters the queue once at the start, and
again at most twice for each of its two bounds. -/
def propagated (s : LevelSystem Level) : Array Range :=
  (Progress.run s.network (5 * s.size) ⟨s.imposed, List.range s.size⟩).ranges

end LevelSystem

end Stratify
