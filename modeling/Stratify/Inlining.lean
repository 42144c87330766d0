import Stratify.Calls.Depth
import Stratify.Calls.Size
import Stratify.NameSupply
import Stratify.Syntax.Build
import Stratify.Syntax.Rename
import Stratify.Target.Layout
import Stratify.Typing.Basic

/-!
# Inlining of user functions

A call to a user function becomes a declaration for each parameter, initialised by its argument,
and the statements of the body; the result takes the place of the call. Arguments are inlined
before the call that consumes them. Parameters and locals get fresh names at every call, so that
no two copies of a body, and no copy and its caller, share a variable.
-/

namespace Stratify

/-- Where a fresh variable comes from. Calls are counted from one, in evaluation order. -/
structure Origin where
  func : String
  name : String
  call : Nat
deriving DecidableEq, Repr

/-- A program without calls to user functions. -/
structure Elaborated where
  stmts : List Stmt
  /-- The origins of the fresh variables in the order of their creation. -/
  origins : List (String × Origin)
  calls : Nat

namespace Elaborated

def program (e : Elaborated) : Program :=
  .ofStmts e.stmts

end Elaborated

namespace Expr

/-- An expression as an initialiser: a hole initialises nothing. -/
def toInit : Expr → Option Expr
  | hole => none
  | e => some e

def ofInit : Option Expr → Expr
  | none => hole
  | some e => e

end Expr

namespace Node

/-- The variable that a node mentions by itself. -/
def mentioned? : Node → Option String
  | expr (.var name) => some name
  | stmt (.decl _ name _ _) => some name
  | stmt (.assign name _) => some name
  | stmt (.sample name _ _) => some name
  | _ => none

end Node

namespace Stmt

def mentions (s : Stmt) : List String :=
  (s.visited fun _ ↦ true).filterMap Node.mentioned?

end Stmt

namespace Program

/-- All the variables that a program mentions, called or not. -/
def mentions (p : Program) : List String :=
  (p.funcs.flatMap fun f ↦ f.paramNames ++ f.toStmt.mentions) ++ p.stmts.flatMap Stmt.mentions

end Program

namespace Inlining

/-- What inlining has used up and recorded so far. -/
structure State where
  names : NameSupply
  origins : List (String × Origin)
  calls : Nat

/-- The fresh names of a function's variables. A later entry hides an earlier one. -/
abbrev Renaming :=
  List (String × String)

namespace Renaming

def apply (r : Renaming) (name : String) : String :=
  ((r.find? fun e ↦ decide (e.1 = name)).map Prod.snd).getD name

end Renaming

def alloc (fn : String) (call : Nat) (name : String) (s : State) : String × State :=
  let (renamed, names) := s.names.fresh name
  (renamed, { s with names := names, origins := s.origins ++ [(renamed, ⟨fn, name, call⟩)] })

def allocAll (fn : String) (call : Nat) : List String → Renaming → State →
    List String × Renaming × State
  | [], r, s => ([], r, s)
  | name :: rest, r, s =>
    let (renamed, s) := alloc fn call name s
    let (more, r, s) := allocAll fn call rest ((name, renamed) :: r) s
    (renamed :: more, r, s)

/-- What to do with a call to a user function: given the definition, the call as it stands and its
arguments without user calls, the statements to run before and the expression that replaces the
call. -/
abbrev CallHandler :=
  Func → Expr → List Expr → State → Except Diagnostic (List Stmt × Expr × State)

section Walk

variable (g : CallGraph) (handle : CallHandler)

mutual

/-- The statements that compute the calls of an expression, and the expression without them. -/
def expr : Expr → State → Except Diagnostic (List Stmt × Expr × State)
  | .hole, s => .ok ([], .hole, s)
  | .lit kind value, s => .ok ([], .lit kind value, s)
  | .var name, s => .ok ([], .var name, s)
  | .unary op x, s => do
    let (pre, x, s) ← expr x s
    return (pre, .unary op x, s)
  | .binary op x y, s => do
    let (preX, x, s) ← expr x s
    let (preY, y, s) ← expr y s
    return (preX ++ preY, .binary op x y, s)
  | .index x indices, s => do
    let (preX, x, s) ← expr x s
    let (preI, indices, s) ← exprs indices s
    return (preX ++ preI, .index x indices, s)
  | .call fn args, s => do
    let (pre, values, s) ← exprs args s
    match g.func? fn with
    | none => return (pre, .call fn values, s)
    | some f =>
      let (body, result, s) ← handle f (.call fn args) values s
      return (pre ++ body, result, s)

def exprs : List Expr → State → Except Diagnostic (List Stmt × List Expr × State)
  | [], s => .ok ([], [], s)
  | e :: es, s => do
    let (pre, e, s) ← expr e s
    let (more, es, s) ← exprs es s
    return (pre ++ more, e :: es, s)

end

mutual

def stmt : Stmt → State → Except Diagnostic (List Stmt × State)
  | .hole, _ => .error ⟨.stray .inlining .missing, none⟩
  | .decl type name data init, s => do
    let (pre, e, s) ← expr g handle (.ofInit init) s
    return (pre ++ [.decl type name data e.toInit], s)
  | .assign name value, s => do
    let (pre, value, s) ← expr g handle value s
    return (pre ++ [.assign name value], s)
  | .sample name dist args, s => do
    let (pre, args, s) ← exprs g handle args s
    return (pre ++ [.sample name dist args], s)
  | .block list, s => stmts list s
  | .func name params body result, _ =>
    .error ⟨.stray .inlining .function, some (.stmt (.func name params body result))⟩

def stmts : List Stmt → State → Except Diagnostic (List Stmt × State)
  | [], s => .ok ([], s)
  | t :: ts, s => do
    let (out, s) ← stmt t s
    let (more, s) ← stmts ts s
    return (out ++ more, s)

end

/-- Renames the statements of a body one after the other, and inlines the calls of each. -/
def renamedStmts (r : String → String) : List Stmt → State → Except Diagnostic (List Stmt × State)
  | [], s => .ok ([], s)
  | t :: ts, s =>
    match t.rename r with
    | .error what => .error ⟨.stray .renaming what, none⟩
    | .ok t => do
      let (out, s) ← stmt g handle t s
      let (more, s) ← renamedStmts r ts s
      return (out ++ more, s)

/-- One copy of a function, with fresh variables, for given arguments. -/
def copy (f : Func) (args : List Expr) (s : State) :
    Except Diagnostic (List Stmt × Expr × State) := do
  let call := s.calls + 1
  let (names, r, s) := allocAll f.name call f.paramNames [] { s with calls := call }
  let inits := (f.params.zip (names.zip args)).map fun (p, name, arg) ↦
    Stmt.decl p.type name false arg.toInit
  let body := Stmt.flatten f.stmts
  let (_, r, s) := allocAll f.name call (body.filterMap Stmt.declName?) r s
  let (out, s) ← renamedStmts g handle r.apply body s
  let (pre, result, s) ← expr g handle ((Expr.ofInit f.result).rename r.apply) s
  return (inits ++ out ++ pre, result, s)

end Walk

/-- Handles the calls that stand under a chain of others, when `room` more of them may be
nested. -/
def handler (g : CallGraph) (limit : Int) : (room : Nat) → (chain : List String) → CallHandler
  | room, chain, f, call, args, s =>
    if args.length ≠ f.params.length then
      .error ⟨.arityMismatch f.name f.params.length args.length, some (.expr call)⟩
    else match room with
      | 0 => .error ⟨.nestedTooDeep (chain ++ [f.name]) limit, some (.expr call)⟩
      | room + 1 => copy g (handler g limit room (chain ++ [f.name])) f args s

/-- The first statement with a call to a user function is reported. -/
def checkCallFree (g : CallGraph) : List Stmt → Except Diagnostic Unit
  | [] => .ok ()
  | s :: ss =>
    match s.calls.find? fun c ↦ g.isUser c.fn with
    | some c => .error ⟨.callLeft c.fn, some (.stmt s)⟩
    | none => checkCallFree g ss

def start (sep : String) (p : Program) : State where
  names := (NameSupply.new sep).reserveAll p.mentions
  origins := []
  calls := 0

end Inlining

/-- How far calls may be unrolled, and how fresh names are written. -/
structure Limits where
  depth : Int
  calls : Int
  sep : String
deriving DecidableEq, Repr

namespace Elaborated

/-- Inlines every call to a user function, once it is known that this ends within the limits. -/
def ofProgram (l : Limits) (p : Program) : Except Diagnostic Elaborated := do
  let g := CallGraph.ofProgram p
  g.checkDepth l.depth
  g.checkSize p.stmts l.calls
  let handle := Inlining.handler g l.depth l.depth.toNat []
  let (stmts, s) ← Inlining.stmts g handle p.stmts (Inlining.start l.sep p)
  Inlining.checkCallFree g stmts
  return ⟨stmts, s.origins, s.calls⟩

def originLevel (t : Typing) (o : Origin) : Except Diagnostic Level :=
  match t.signature? o.func with
  | none => .error ⟨.noSignature o.func, none⟩
  | some sig =>
    match sig.level? o.name with
    | none => .error ⟨.notInSignature o.func o.name, none⟩
    | some l => .ok l

/-- The levels of the origins of all fresh variables: lower bounds for the levels of the
copies. -/
def seeds (e : Elaborated) (t : Typing) : Except Diagnostic (List (String × Level)) :=
  e.origins.mapM fun (name, o) ↦ do
    let l ← originLevel t o
    return (name, l)

end Elaborated

end Stratify
