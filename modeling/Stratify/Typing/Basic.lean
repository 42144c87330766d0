import Stratify.Constraint.Solution
import Stratify.Typing.Draft

/-!
# Level typings

The typing of a program gives a level to each of its variables, and a signature to each of its
functions. It is read off the solution of the program's constraints.
-/

namespace Stratify

structure Signature where
  func : String
  params : List Level
  /-- Parameters and locals in declaration order. -/
  vars : List (String × Level)
  result : Level
deriving DecidableEq, Repr

namespace Signature

def level? (s : Signature) (name : String) : Option Level :=
  (s.vars.find? fun e ↦ decide (e.1 = name)).map Prod.snd

def levelsText (ls : List Level) : String :=
  "[" ++ " ".intercalate (ls.map Level.text) ++ "]"

def text (s : Signature) : String :=
  s.func ++ levelsText s.params ++ " " ++ s.result.text

def read (env : Env) (sol : Solution) (fn : String) : Signature :=
  let vars := Env.vars env fn
  { func := fn
    params := (vars.filter Var.param).map fun v ↦ sol.level v.key
    vars := vars.map fun v ↦ (v.id.name, sol.level v.key)
    result := sol.level (VarId.resultKey fn) }

end Signature

structure Typing where
  env : Env
  system : LevelSystem Level
  levels : Solution
  signatures : List Signature

/-- Lower bounds of program variables, by name. -/
abbrev Seeds :=
  List (String × LevelCode)

namespace Seeds

def sorted (seeds : Seeds) : Seeds :=
  List.mergeSort seeds fun a b ↦ decide (a.1 ≤ b.1)

end Seeds

namespace Typing

def find? (t : Typing) (name : String) : Option Var :=
  Env.find? t.env "" name

def level? (t : Typing) (name : String) : Option Level :=
  match t.find? name with
  | none => none
  | some _ => t.levels.get? name

def assigned (t : Typing) (name : String) : Bool :=
  match t.find? name with
  | none => false
  | some v => v.assigned

/-- The program's variables in declaration order. -/
def vars (t : Typing) : List Var :=
  Env.vars t.env ""

def names (t : Typing) : List String :=
  (t.vars.map fun v ↦ v.id.name).eraseDups.mergeSort fun a b ↦ decide (a ≤ b)

def signature? (t : Typing) (fn : String) : Option Signature :=
  t.signatures.find? fun s ↦ s.func == fn

def read (p : Program) (d : Draft) (sol : Solution) : Typing where
  env := d.env
  system := d.system
  levels := sol
  signatures := p.funcs.map fun f ↦ Signature.read d.env sol f.name

/-- Generates the constraints, adds the seeds in the order of their names, solves, and reads the
typing off the solution. -/
def infer (prims : Primitives) (p : Program) (seeds : Seeds) : Except Fault Typing := do
  let d ← Draft.ofProgram prims p
  let d ← Draft.seed seeds.sorted d
  let sol ← d.system.solve.mapError Fault.report
  return read p d sol

end Typing

end Stratify
