import Stratify.Syntax.Stmt

/-!
# Renaming of variables

Renaming maps every variable of a tree, read or written, and leaves functions and distributions
alone. It is defined on every expression, and on the statements that may stand in a function body:
a missing statement and a function definition cannot be renamed.
-/

namespace Stratify

namespace Expr

mutual

def rename (r : String → String) : Expr → Expr
  | hole => hole
  | lit kind value => lit kind value
  | var name => var (r name)
  | unary op x => unary op (x.rename r)
  | binary op x y => binary op (x.rename r) (y.rename r)
  | index x indices => index (x.rename r) (renameAll r indices)
  | call fn args => call fn (renameAll r args)

def renameAll (r : String → String) : List Expr → List Expr
  | [] => []
  | e :: es => e.rename r :: renameAll r es

end

end Expr

/-- The statements that only some stages accept. -/
inductive Stray
  | missing
  | block
  | function
deriving DecidableEq, Repr, Inhabited

namespace Stray

def text : Stray → String
  | missing => "<nil>"
  | block => "*ast.BlockStmt"
  | function => "*ast.FuncDecl"

end Stray

namespace Stmt

mutual

def rename (r : String → String) : Stmt → Except Stray Stmt
  | hole => .error .missing
  | decl type name data init => .ok (decl type (r name) data (init.map (Expr.rename r)))
  | assign name value => .ok (assign (r name) (value.rename r))
  | sample name dist args => .ok (sample (r name) dist (Expr.renameAll r args))
  | block list => do
    let list ← renameAll r list
    return block list
  | func .. => .error .function

def renameAll (r : String → String) : List Stmt → Except Stray (List Stmt)
  | [] => .ok []
  | s :: ss => do
    let s ← s.rename r
    let ss ← renameAll r ss
    return s :: ss

end

end Stmt

end Stratify
