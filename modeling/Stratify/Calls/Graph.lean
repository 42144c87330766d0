import Stratify.Syntax.Traversal

/-!
# Call graphs

The user functions of a program and the calls between them. If a name is defined more than once,
its last definition counts.
-/

namespace Stratify

structure CallGraph where
  funcs : List Func
deriving Repr

namespace CallGraph

def ofProgram (p : Program) : CallGraph :=
  ⟨p.funcs⟩

def func? (g : CallGraph) (name : String) : Option Func :=
  Func.named? g.funcs.reverse name

def isUser (g : CallGraph) (name : String) : Bool :=
  (g.func? name).isSome

def names (g : CallGraph) : List String :=
  (g.funcs.map Func.name).eraseDups.mergeSort fun a b ↦ decide (a ≤ b)

/-- The calls of a function to user functions, in evaluation order. -/
def userCalls (g : CallGraph) (name : String) : List Call :=
  match g.func? name with
  | none => []
  | some f => f.calls.filter fun c ↦ g.isUser c.fn

/-- The first call to each user function that a function calls. -/
def firstCalls (g : CallGraph) (name : String) : List Call :=
  (g.userCalls name).eraseDupsBy fun a b ↦ a.fn == b.fn

def callees (g : CallGraph) (name : String) : List String :=
  (g.firstCalls name).map Call.fn

end CallGraph

end Stratify
