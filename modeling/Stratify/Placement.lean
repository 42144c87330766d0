import Stratify.Diagnostic.Basic
import Stratify.Syntax.Reads
import Stratify.Syntax.Traversal
import Stratify.Target.Layout

/-!
# Placement of statements in blocks

A declaration goes to the block of its variable's level, an assignment to the block of its
target's declaration, and a sample statement to the model block. No statement may read a variable
of a higher level than that of its target. The programs placed here have no functions, and the
order of their statements within a block is that of the program.
-/

namespace Stratify

/-- What placement has to know of the variables. -/
structure LevelMap where
  level? : String → Option LevelCode
  assigned : String → Bool

namespace Placement

/-- The blocks of the variables declared so far. A later entry hides an earlier one. -/
abbrev Declared :=
  List (String × Block)

namespace Declared

def get? (ds : Declared) (name : String) : Option Block :=
  (ds.find? fun e ↦ decide (e.1 = name)).map Prod.snd

end Declared

def level (m : LevelMap) (name : String) (node : Node) : Except Fault LevelCode :=
  match m.level? name with
  | none => .error (.about node (.noLevel name))
  | some c => .ok c

/-- No variable read is of a higher level than the target. -/
def checkFlows (m : LevelMap) (target : String) (l : LevelCode) (node : Node) :
    List String → Except Fault Unit
  | [] => .ok ()
  | dep :: deps => do
    let c ← level m dep node
    match Order.correctness.lessEq? c l with
    | none => .error .undefined
    | some false => .error (.about node (.illegalFlow target l dep c))
    | some true => checkFlows m target l node deps

def checkReads (m : LevelMap) (target : String) (l : LevelCode) (node : Node) (es : List Expr) :
    Except Fault Unit :=
  checkFlows m target l node (Deps.ofExprs Deps.noUser es).vars

def blockOf (m : LevelMap) (ds : Declared) : Stmt → Except Fault Block
  | .decl type name data init => do
    let node := Node.stmt (.decl type name data init)
    let l ← level m name node
    match Block.place? l (m.assigned name) with
    | none => .error (.about node (.noBlock name l (m.assigned name)))
    | some b =>
      checkReads m name l node init.toList
      return b
  | .assign name value => do
    let node := Node.stmt (.assign name value)
    match ds.get? name with
    | none => .error (.about node (.assignedEarly name))
    | some b =>
      let l ← level m name node
      checkReads m name l node [value]
      return b
  | .sample name dist args => do
    let node := Node.stmt (.sample name dist args)
    match ds.get? name with
    | none => .error (.about node (.sampledEarly name))
    | some _ =>
      checkReads m name Level.model.code node (.var name :: args)
      return .model
  | .hole => .error (.bare (.stray .placement .missing))
  | .block list => .error (.about (.stmt (.block list)) (.stray .placement .block))
  | .func name params body result =>
    .error (.about (.stmt (.func name params body result)) (.stray .placement .function))

def declare (ds : Declared) (b : Block) (s : Stmt) : Declared :=
  match s.declName? with
  | none => ds
  | some name => (name, b) :: ds

/-- Appends statements that are no blocks to a layout, one after the other. -/
def stmts (m : LevelMap) : Layout → Declared → List Stmt → Except Fault Layout
  | l, _, [] => .ok l
  | l, ds, s :: ss => do
    let b ← blockOf m ds s
    stmts m (l.append b s) (declare ds b s) ss

end Placement

namespace Layout

/-- Places all the statements of a program without functions. -/
def ofProgram (m : LevelMap) (p : Program) : Except Fault Layout :=
  if p.funcs.isEmpty then Placement.stmts m .empty [] (Stmt.flatten p.stmts)
  else .error (.bare (.notElaborated p.funcs.length))

end Layout

end Stratify
