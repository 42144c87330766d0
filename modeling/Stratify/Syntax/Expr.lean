/-!
# Expressions

Expressions of the language. A required child that is missing is a `hole`: trees with holes can be
walked and rebuilt, but they have no text.
-/

namespace Stratify

inductive LitKind
  | int
  | float
  | string
deriving DecidableEq, Repr, Inhabited

inductive Op
  | add | sub | mul | div | mod | pow | not
  | eq | ne | lt | le | gt | ge
  | both | either | bitAnd | bitOr | shiftLeft | shiftRight | bitClear
deriving DecidableEq, Repr, Inhabited

namespace Op

def text : Op → String
  | add => "+"
  | sub => "-"
  | mul => "*"
  | div => "/"
  | mod => "%"
  | pow => "^"
  | not => "!"
  | eq => "=="
  | ne => "!="
  | lt => "<"
  | le => "<="
  | gt => ">"
  | ge => ">="
  | both => "&&"
  | either => "||"
  | bitAnd => "&"
  | bitOr => "|"
  | shiftLeft => "<<"
  | shiftRight => ">>"
  | bitClear => "&^"

def all : List Op :=
  [add, sub, mul, div, mod, pow, not, eq, ne, lt, le, gt, ge, both, either, bitAnd, bitOr,
    shiftLeft, shiftRight, bitClear]

def ofText? (s : String) : Option Op :=
  all.find? fun op ↦ op.text == s

end Op

inductive Expr
  | hole
  | lit (kind : LitKind) (value : String)
  | var (name : String)
  | unary (op : Op) (x : Expr)
  | binary (op : Op) (x y : Expr)
  | index (x : Expr) (indices : List Expr)
  | call (fn : String) (args : List Expr)
deriving Repr, Inhabited

/-- A call, apart from the expression it stands in. -/
structure Call where
  fn : String
  args : List Expr
deriving Repr, Inhabited

namespace Call

def toExpr (c : Call) : Expr :=
  .call c.fn c.args

end Call

namespace Expr

def isBinary : Expr → Bool
  | binary .. => true
  | _ => false

end Expr

end Stratify
