import Stratify.Constraint.Propagation

/-!
# Solutions of constraint systems

A system has a solution when no variable's range is empty and no constant contradicts another.
Every variable then takes the lowest level of its range under the performance order. Otherwise the
first variable at fault is reported, a variable of the program rather than one of an expression.
-/

namespace Stratify

abbrev Solution :=
  List (String × Level)

namespace Solution

def get? (sol : Solution) (key : String) : Option Level :=
  (sol.find? fun e ↦ decide (e.1 = key)).map Prod.snd

def level (sol : Solution) (key : String) : Level :=
  (sol.get? key).getD .data

def value (sol : Solution) : Term Level → Level
  | .var key => sol.level key
  | .const l => l

def satisfies (sol : Solution) (c : Constraint Level) : Bool :=
  Order.correctness.lessEq (sol.value c.lo) (sol.value c.hi)

end Solution

namespace Constraint

def clash (text rule : String) (lo hi : LevelCode) : Diagnostic :=
  ⟨.inconsistent text (.direct lo rule) (.direct hi rule), none⟩

/-- The first false constraint between constants is reported. -/
def checkConstants : List (Constraint Level) → Except Diagnostic Unit
  | [] => .ok ()
  | c :: cs =>
    match c.lo, c.hi with
    | .const lo, .const hi =>
      if Order.correctness.less hi lo then
        .error (clash (c.text Level.text) c.rule lo.code hi.code)
      else checkConstants cs
    | _, _ => checkConstants cs

end Constraint

namespace LevelSystem

/-- Variables with an empty range, in their order. -/
def emptyVertices (s : LevelSystem Level) (rs : Array Range) : List (Vertex × Range) :=
  (s.vertices.zip rs.toList).filter fun p ↦ p.2.interval.empty

/-- The variable to blame. -/
def firstEmpty? (s : LevelSystem Level) (rs : Array Range) : Option (Vertex × Range) :=
  let es := s.emptyVertices rs
  (es.find? fun p ↦ !p.1.isExpr).or es.head?

def picked (s : LevelSystem Level) (rs : Array Range) : Solution :=
  (s.vertices.zip rs.toList).map fun p ↦ (p.1.key, p.2.interval.cheapest)

/-- Reports the first constraint that does not hold. -/
def checkSolution (sol : Solution) : List (Constraint Level) → Except Diagnostic Unit
  | [] => .ok ()
  | c :: cs =>
    if sol.satisfies c then checkSolution sol cs
    else .error ⟨.violatedConstraint (c.text Level.text) (sol.value c.lo) (sol.value c.hi), none⟩

def solve (s : LevelSystem Level) : Except Diagnostic Solution := do
  Constraint.checkConstants s.constraints
  let rs := s.propagated
  match s.firstEmpty? rs with
  | some (v, r) => throw ⟨.inconsistent v.display r.lower.code r.upper.code, v.source⟩
  | none =>
    let sol := s.picked rs
    checkSolution sol s.constraints
    return sol

end LevelSystem

namespace Term

def levels? : Term LevelCode → Option (Term Level)
  | var key => some (var key)
  | const c => c.level?.map const

end Term

namespace Constraint

def levels? (c : Constraint LevelCode) : Option (Constraint Level) := do
  return ⟨← c.lo.levels?, ← c.hi.levels?, c.rule⟩

/-- As `checkConstants`, for numbers: undefined from the first one on that is no level. -/
def checkCodes : List (Constraint LevelCode) → Except Fault Unit
  | [] => .ok ()
  | c :: cs =>
    match c.lo, c.hi with
    | .const lo, .const hi =>
      match Order.correctness.less? hi lo with
      | none => .error .undefined
      | some true => .error (.report (clash (c.text LevelCode.text) c.rule lo hi))
      | some false => checkCodes cs
    | _, _ => checkCodes cs

end Constraint

namespace LevelSystem

def levels? (s : LevelSystem LevelCode) : Option (LevelSystem Level) := do
  return ⟨s.vertices, ← s.constraints.mapM Constraint.levels?⟩

/-- Solves a system whose constants are numbers. Contradictions between constants are found before
numbers beside variables are looked at. -/
def solveCodes (s : LevelSystem LevelCode) : Except Fault Solution := do
  Constraint.checkCodes s.constraints
  match s.levels? with
  | none => throw .undefined
  | some t => t.solve.mapError .report

end LevelSystem

end Stratify
