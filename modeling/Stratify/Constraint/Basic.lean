import Stratify.Diagnostic.Basic

/-!
# Constraint systems

A system consists of level variables and of inequalities between them and constants, under the
correctness order. Variables are known by a key, and enter the system when they are first
mentioned. The empty key is no variable: it stands for the constant `data`.
-/

namespace Stratify

/-- One side of an inequality. The type `κ` is that of the constants. -/
inductive Term (κ : Type)
  | var (key : String)
  | const (level : κ)
deriving DecidableEq, Repr

namespace Term

variable {κ : Type}

def named [OfLevel κ] (key : String) : Term κ :=
  if key = "" then const (OfLevel.ofLevel .data) else var key

def text (name : κ → String) : Term κ → String
  | var key => key
  | const level => name level

end Term

/-- `lo` is at most `hi`, because of a rule. -/
structure Constraint (κ : Type) where
  lo : Term κ
  hi : Term κ
  rule : String
deriving DecidableEq, Repr

namespace Constraint

variable {κ : Type}

def text (name : κ → String) (c : Constraint κ) : String :=
  c.lo.text name ++ " <= " ++ c.hi.text name ++ " (" ++ c.rule ++ ")"

end Constraint

/-- A level variable, with the name and the node by which diagnostics refer to it. -/
structure Vertex where
  key : String
  display : String
  /-- The variable is that of an expression. -/
  isExpr : Bool
  source : Option Node
deriving Repr

structure LevelSystem (κ : Type) where
  vertices : List Vertex
  constraints : List (Constraint κ)

namespace LevelSystem

variable {κ : Type}

def empty : LevelSystem κ :=
  ⟨[], []⟩

def has (s : LevelSystem κ) (key : String) : Bool :=
  s.vertices.any fun v ↦ v.key == key

def size (s : LevelSystem κ) : Nat :=
  s.vertices.length

def index? (s : LevelSystem κ) (key : String) : Option Nat :=
  s.vertices.findIdx? fun v ↦ v.key == key

/-- Adds a variable unless it is there. Without a name of its own it is displayed by its key. -/
def addVar (s : LevelSystem κ) (key display : String) : LevelSystem κ :=
  if s.has key then s
  else
    let v : Vertex := ⟨key, if display = "" then key else display, false, none⟩
    { s with vertices := s.vertices ++ [v] }

def modify (s : LevelSystem κ) (key : String) (f : Vertex → Vertex) : LevelSystem κ :=
  { s with vertices := s.vertices.map fun v ↦ if v.key = key then f v else v }

def addExprVar (s : LevelSystem κ) (key display : String) : LevelSystem κ :=
  (s.addVar key display).modify key fun v ↦ { v with isExpr := true }

def setSource (s : LevelSystem κ) (key : String) (source : Option Node) : LevelSystem κ :=
  s.modify key fun v ↦ { v with source := source }

def mention (s : LevelSystem κ) : Term κ → LevelSystem κ
  | .var key => s.addVar key ""
  | .const _ => s

def add (s : LevelSystem κ) (c : Constraint κ) : LevelSystem κ :=
  let t := (s.mention c.lo).mention c.hi
  { t with constraints := t.constraints ++ [c] }

variable [OfLevel κ]

def atLeast (s : LevelSystem κ) (key : String) (level : κ) (rule : String) : LevelSystem κ :=
  s.add ⟨.const level, .named key, rule⟩

def atMost (s : LevelSystem κ) (key : String) (level : κ) (rule : String) : LevelSystem κ :=
  s.add ⟨.named key, .const level, rule⟩

def equal (s : LevelSystem κ) (key : String) (level : κ) (rule : String) : LevelSystem κ :=
  (s.atLeast key level rule).atMost key level rule

/-- Information flows from one variable to another. -/
def flow (s : LevelSystem κ) (lo hi rule : String) : LevelSystem κ :=
  s.add ⟨.named lo, .named hi, rule⟩

end LevelSystem

end Stratify
