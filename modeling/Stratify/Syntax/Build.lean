import Stratify.Syntax.Stmt

/-!
# Short ways to build trees

Variables and parameters built here are real.
-/

namespace Stratify

namespace Expr

/-- A number with a point or an exponent is a float. -/
def num (value : String) : Expr :=
  let isFloat := value.toList.any fun c ↦ c == '.' || c == 'e' || c == 'E'
  lit (if isFloat then .float else .int) value

def int (value : Int) : Expr :=
  lit .int (toString value)

def add (x y : Expr) : Expr :=
  binary .add x y

def mul (x y : Expr) : Expr :=
  binary .mul x y

def div (x y : Expr) : Expr :=
  binary .div x y

def neg (x : Expr) : Expr :=
  unary .sub x

end Expr

/-- The type of the variables and parameters built here. -/
def realType : String :=
  "real"

namespace Stmt

def declare (name : String) : Stmt :=
  decl realType name false none

def define (name : String) (init : Option Expr) : Stmt :=
  decl realType name false init

def given (name : String) : Stmt :=
  decl realType name true none

end Stmt

namespace Param

def real (name : String) : Param :=
  ⟨realType, name⟩

end Param

namespace Func

/-- A function that has a body, be it an empty one. -/
def define (name : String) (params : List Param) (result : Option Expr) (body : List Stmt) :
    Func :=
  ⟨name, params, some body, result⟩

end Func

namespace Program

def ofStmts (stmts : List Stmt) : Program :=
  ⟨[], stmts⟩

end Program

end Stratify
