import Stratify.Syntax.Stmt
import Stratify.Text.Lines
import Stratify.Text.Quoted

/-!
# Source text

The text of a tree. A tree with a hole has no text, so every function here gives an `Option`.
A binary expression is put in parentheses when it is an operand of a binary or an index expression.
-/

namespace Stratify

namespace Text

/-- Texts with a separator between them, after some text. Undefined if one of the texts is. -/
def joinAfter (start sep : String) (items : List (Option String)) : Option String := do
  return start ++ sep.intercalate (← items.mapM id)

def join (sep : String) (items : List (Option String)) : Option String :=
  joinAfter "" sep items

end Text

namespace LitKind

def render (value : String) : LitKind → String
  | .string => Text.quote value
  | _ => value

end LitKind

namespace Expr

/-- Parentheses stand around binary operands. -/
def wrap (e : Expr) (text : String) : String :=
  if e.isBinary then "(" ++ text ++ ")" else text

mutual

def text : Expr → Option String
  | hole => none
  | lit kind value => some (kind.render value)
  | var name => some name
  | unary op x => x.text.map fun t ↦ op.text ++ t
  | binary op x y => do
    let s ← x.text
    let t ← y.text
    return x.wrap s ++ " " ++ op.text ++ " " ++ y.wrap t
  | index x indices => do
    let s ← x.text
    let ts ← texts indices
    return x.wrap s ++ "[" ++ ", ".intercalate ts ++ "]"
  | call fn args => do
    let ts ← texts args
    return fn ++ "(" ++ ", ".intercalate ts ++ ")"

def texts : List Expr → Option (List String)
  | [] => some []
  | e :: es => do
    let t ← e.text
    let ts ← texts es
    return t :: ts

end

end Expr

namespace Param

def text (p : Param) : String :=
  p.type ++ " " ++ p.name

end Param

namespace Stmt

def initText : Option Expr → Option String
  | none => some ""
  | some e => e.text.map (" = " ++ ·)

def resultText : Option Expr → Option String
  | none => some ""
  | some e => e.text.map fun t ↦ "\treturn " ++ t ++ ";\n"

def bodyText : List String → String
  | [] => ""
  | ts => Text.indented ("\n".intercalate ts) ++ "\n"

def funcText (name : String) (params : List Param) (body result : String) : String :=
  name ++ "(" ++ ", ".intercalate (params.map Param.text) ++ ") \x7b\n" ++ body ++ result ++ "\x7d"

mutual

def text : Stmt → Option String
  | hole => none
  | decl type name data init => do
    let t ← initText init
    return (if data then "data " else "") ++ type ++ " " ++ name ++ t ++ ";"
  | assign name value => value.text.map fun t ↦ name ++ " = " ++ t ++ ";"
  | sample name dist args => do
    let ts ← Expr.texts args
    return name ++ " ~ " ++ dist ++ "(" ++ ", ".intercalate ts ++ ");"
  | block list => do
    let ts ← texts list
    return "\n".intercalate ts
  | func name params none result => do
    let r ← resultText result
    return funcText name params "" r
  | func name params (some body) result => do
    let ts ← texts body
    let r ← resultText result
    return funcText name params (bodyText ts) r

def texts : List Stmt → Option (List String)
  | [] => some []
  | s :: ss => do
    let t ← s.text
    let ts ← texts ss
    return t :: ts

end

end Stmt

namespace Func

def text (f : Func) : Option String :=
  f.toStmt.text

end Func

namespace Program

def text (p : Program) : Option String := do
  let fs ← p.funcs.mapM Func.text
  let ss ← Stmt.texts p.stmts
  return "\n".intercalate (fs ++ ss)

end Program

namespace Node

def text : Node → Option String
  | expr e => e.text
  | stmt s => s.text
  | param p => some p.text

end Node

end Stratify
