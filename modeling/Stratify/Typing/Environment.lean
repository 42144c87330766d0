import Stratify.OrderedMap
import Stratify.Syntax.Stmt

/-!
# Type environments

Variables belong to a function, or to the program when the function's name is empty. A name is
declared at most once in each of them. The environment lists all variables in declaration order.
-/

namespace Stratify

/-- A variable's name and the function it belongs to. -/
structure VarId where
  func : String
  name : String
deriving DecidableEq, Repr, Inhabited

namespace VarId

def key (v : VarId) : String :=
  if v.func = "" then v.name else v.func ++ "." ++ v.name

/-- The key of the level of a function's result. The name is a word of the language, which no
variable can have. -/
def resultKey (fn : String) : String :=
  key ⟨fn, "return"⟩

end VarId

structure Var where
  id : VarId
  type : String
  /-- The variable is given from outside. -/
  data : Bool
  param : Bool
  /-- Some statement, or a call, gives the variable a value. -/
  assigned : Bool
  /-- The declaration or the parameter. -/
  decl : Node
deriving Repr

namespace Var

def key (v : Var) : String :=
  v.id.key

end Var

abbrev Env :=
  OrderedMap VarId Var

namespace Env

def find? (env : Env) (fn name : String) : Option Var :=
  OrderedMap.get? env ⟨fn, name⟩

/-- The variables of a function in declaration order. -/
def vars (env : Env) (fn : String) : List Var :=
  (OrderedMap.values env).filter fun v ↦ decide (v.id.func = fn)

def declare? (env : Env) (v : Var) : Option Env :=
  if (OrderedMap.get? env v.id).isSome then none else some (OrderedMap.insert env v.id v)

def markAssigned (env : Env) (v : Var) : Env :=
  OrderedMap.insert env v.id { v with assigned := true }

end Env

end Stratify
