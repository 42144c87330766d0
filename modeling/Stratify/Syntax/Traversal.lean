import Stratify.Syntax.Stmt

/-!
# Walks through a tree

`visited` lists the nodes of a tree, a node before its children; `calls` lists the calls in the
order in which they are evaluated, the arguments of a call before the call. Holes are skipped.
-/

namespace Stratify

namespace Node

def withChildren (enter : Node → Bool) (n : Node) (below : List Node) : List Node :=
  n :: if enter n then below else []

end Node

namespace Expr

mutual

def visited (enter : Node → Bool) : Expr → List Node
  | hole => []
  | lit kind value => [.expr (lit kind value)]
  | var name => [.expr (var name)]
  | unary op x => Node.withChildren enter (.expr (unary op x)) (x.visited enter)
  | binary op x y =>
    Node.withChildren enter (.expr (binary op x y)) (x.visited enter ++ y.visited enter)
  | index x indices =>
    Node.withChildren enter (.expr (index x indices))
      (x.visited enter ++ visitedAll enter indices)
  | call fn args => Node.withChildren enter (.expr (call fn args)) (visitedAll enter args)

def visitedAll (enter : Node → Bool) : List Expr → List Node
  | [] => []
  | e :: es => e.visited enter ++ visitedAll enter es

end

mutual

def calls : Expr → List Call
  | hole => []
  | lit .. => []
  | var _ => []
  | unary _ x => x.calls
  | binary _ x y => x.calls ++ y.calls
  | index x indices => x.calls ++ callsAll indices
  | call fn args => callsAll args ++ [⟨fn, args⟩]

def callsAll : List Expr → List Call
  | [] => []
  | e :: es => e.calls ++ callsAll es

end

end Expr

namespace Stmt

def visitedInit (enter : Node → Bool) : Option Expr → List Node
  | none => []
  | some e => e.visited enter

mutual

/-- A function's body is visited as a block; its parameters are not visited. -/
def visited (enter : Node → Bool) : Stmt → List Node
  | hole => []
  | decl type name data init =>
    Node.withChildren enter (.stmt (decl type name data init)) (visitedInit enter init)
  | assign name value =>
    Node.withChildren enter (.stmt (assign name value)) (value.visited enter)
  | sample name dist args =>
    Node.withChildren enter (.stmt (sample name dist args)) (Expr.visitedAll enter args)
  | block list => Node.withChildren enter (.stmt (block list)) (visitedAll enter list)
  | func name params none result =>
    Node.withChildren enter (.stmt (func name params none result)) (visitedInit enter result)
  | func name params (some body) result =>
    Node.withChildren enter (.stmt (func name params (some body) result))
      (Node.withChildren enter (.stmt (block body)) (visitedAll enter body) ++
        visitedInit enter result)

def visitedAll (enter : Node → Bool) : List Stmt → List Node
  | [] => []
  | s :: ss => s.visited enter ++ visitedAll enter ss

end

def initCalls : Option Expr → List Call
  | none => []
  | some e => e.calls

mutual

def calls : Stmt → List Call
  | hole => []
  | decl _ _ _ init => initCalls init
  | assign _ value => value.calls
  | sample _ _ args => Expr.callsAll args
  | block list => callsAll list
  | func _ _ none result => initCalls result
  | func _ _ (some body) result => callsAll body ++ initCalls result

def callsAll : List Stmt → List Call
  | [] => []
  | s :: ss => s.calls ++ callsAll ss

end

mutual

/-- A statement as a list in which blocks are opened up. -/
def flat : Stmt → List Stmt
  | hole => [hole]
  | decl type name data init => [decl type name data init]
  | assign name value => [assign name value]
  | sample name dist args => [sample name dist args]
  | block list => flatten list
  | func name params body result => [func name params body result]

/-- Replaces every block by its statements, in place. -/
def flatten : List Stmt → List Stmt
  | [] => []
  | s :: ss => s.flat ++ flatten ss

end

end Stmt

namespace Func

/-- The calls of the body and then of the result. -/
def calls (f : Func) : List Call :=
  f.toStmt.calls

end Func

namespace Node

def visited (enter : Node → Bool) : Node → List Node
  | expr e => e.visited enter
  | stmt s => s.visited enter
  | param p => [param p]

def calls : Node → List Call
  | expr e => e.calls
  | stmt s => s.calls
  | param _ => []

end Node

end Stratify
