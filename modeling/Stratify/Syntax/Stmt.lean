import Stratify.Syntax.Expr

/-!
# Statements and programs

Blocks only group statements: they open no scope. A function has parameters, a body that may be
missing altogether, and a result. A program has function definitions and top-level statements.
-/

namespace Stratify

structure Param where
  type : String
  name : String
deriving DecidableEq, Repr, Inhabited

inductive Stmt
  | hole
  | decl (type name : String) (data : Bool) (init : Option Expr)
  | assign (name : String) (value : Expr)
  | sample (name dist : String) (args : List Expr)
  | block (list : List Stmt)
  | func (name : String) (params : List Param) (body : Option (List Stmt)) (result : Option Expr)
deriving Repr, Inhabited

/-- A function definition, apart from the statement it may stand in. -/
structure Func where
  name : String
  params : List Param
  body : Option (List Stmt)
  result : Option Expr
deriving Repr, Inhabited

namespace Func

def toStmt (f : Func) : Stmt :=
  .func f.name f.params f.body f.result

def paramNames (f : Func) : List String :=
  f.params.map Param.name

/-- A missing body does nothing. -/
def stmts (f : Func) : List Stmt :=
  f.body.getD []

/-- The first of some functions that has a name. -/
def named? (fs : List Func) (name : String) : Option Func :=
  fs.find? fun f ↦ f.name == name

@[simp] theorem named?_nil (name : String) : named? [] name = none :=
  rfl

theorem of_named?_eq_some {fs : List Func} {name : String} {f : Func}
    (h : named? fs name = some f) : f.name = name ∧ f ∈ fs := by
  have hname := List.find?_some h
  exact ⟨by simpa using hname, List.mem_of_find?_eq_some h⟩

theorem isSome_named?_iff {fs : List Func} {name : String} :
    (named? fs name).isSome = true ↔ ∃ f ∈ fs, f.name = name := by
  simp [named?]

/-- If no two functions have the same name, their order does not matter. -/
theorem named?_eq_some_iff {fs : List Func} (hnodup : (fs.map Func.name).Nodup) {name : String}
    {f : Func} : named? fs name = some f ↔ f ∈ fs ∧ f.name = name := by
  refine ⟨fun h ↦ (of_named?_eq_some h).symm, ?_⟩
  rintro ⟨hmem, rfl⟩
  induction fs with
  | nil => cases hmem
  | cons f' fs ih =>
      obtain ⟨hnotMem, hrest⟩ := List.nodup_cons.mp hnodup
      rcases List.mem_cons.mp hmem with rfl | hmem
      · simp [named?]
      · have hne : f'.name ≠ f.name := fun heq ↦ hnotMem (heq ▸ List.mem_map_of_mem hmem)
        simpa [named?, hne] using ih hrest hmem

end Func

structure Program where
  funcs : List Func
  stmts : List Stmt
deriving Repr, Inhabited

namespace Program

def func? (p : Program) (name : String) : Option Func :=
  Func.named? p.funcs name

end Program

/-- Anything in a tree that can be pointed at. -/
inductive Node
  | expr (e : Expr)
  | stmt (s : Stmt)
  | param (p : Param)
deriving Repr, Inhabited

end Stratify
