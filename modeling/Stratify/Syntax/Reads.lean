import Stratify.Syntax.Expr

/-!
# What an expression depends on

An expression depends on the variables it reads outside of calls to user functions, and on the
outermost of these calls. What the arguments of such a call read is the business of the call.
-/

namespace Stratify

/-- Variables in the order in which they first occur, and outermost user calls. -/
structure Deps where
  vars : List String
  calls : List Call
deriving Repr, Inhabited

namespace Expr

mutual

/-- Every variable that is read outside of user calls, once for each time. -/
def reads (isUser : String → Bool) : Expr → List String
  | hole => []
  | lit .. => []
  | var name => [name]
  | unary _ x => x.reads isUser
  | binary _ x y => x.reads isUser ++ y.reads isUser
  | index x indices => x.reads isUser ++ readsAll isUser indices
  | call fn args => if isUser fn then [] else readsAll isUser args

def readsAll (isUser : String → Bool) : List Expr → List String
  | [] => []
  | e :: es => e.reads isUser ++ readsAll isUser es

end

mutual

/-- The user calls that no other user call contains. -/
def outerCalls (isUser : String → Bool) : Expr → List Call
  | hole => []
  | lit .. => []
  | var _ => []
  | unary _ x => x.outerCalls isUser
  | binary _ x y => x.outerCalls isUser ++ y.outerCalls isUser
  | index x indices => x.outerCalls isUser ++ outerCallsAll isUser indices
  | call fn args => if isUser fn then [⟨fn, args⟩] else outerCallsAll isUser args

def outerCallsAll (isUser : String → Bool) : List Expr → List Call
  | [] => []
  | e :: es => e.outerCalls isUser ++ outerCallsAll isUser es

end

end Expr

namespace Deps

def ofExprs (isUser : String → Bool) (es : List Expr) : Deps where
  vars := (Expr.readsAll isUser es).eraseDups
  calls := Expr.outerCallsAll isUser es

/-- Every call is taken for one of the target language's. -/
def noUser (_ : String) : Bool :=
  false

end Deps

namespace Expr

/-- All the variables an expression reads, also in the arguments of calls. -/
def idents (e : Expr) : List String :=
  (Deps.ofExprs Deps.noUser [e]).vars

end Expr

end Stratify
