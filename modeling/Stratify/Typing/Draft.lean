import Stratify.Constraint.Basic
import Stratify.Syntax.Printer
import Stratify.Target.Primitives
import Stratify.Typing.Environment

/-!
# Level constraints of a program

The typing rules turn a program into a constraint system. Every expression that a rule speaks of
gets a level variable of its own, which is at least the level of all that the expression depends
on. The parameters, the locals and the result of a function have one level each, shared by all the
calls: a call makes a parameter at least its argument, and is itself at least the result.

Whether a variable is ever assigned is only known once all the statements are read, so the rules
that depend on it come last.
-/

namespace Stratify

inductive Rule
  | data
  | unassigned
  | assignment
  | sample
  | rng
  | argument
  | result
  | signature
deriving DecidableEq, Repr

namespace Rule

def text : Rule → String
  | data => "data variable"
  | unassigned => "never assigned"
  | assignment => "assignment"
  | sample => "sample"
  | rng => "random number generator"
  | argument => "call argument"
  | result => "return value"
  | signature => "function signature"

end Rule

/-- What the typing rules know beforehand: the target language and the user functions. -/
structure Globals where
  prims : Primitives
  funcs : List Func

namespace Globals

def func? (g : Globals) (name : String) : Option Func :=
  Func.named? g.funcs name

end Globals

/-- Variables and constraints found so far, and how many expressions have a level variable. -/
structure Draft where
  env : Env
  system : LevelSystem Level
  exprs : Nat

namespace Draft

def empty : Draft :=
  ⟨.empty, .empty, 0⟩

def find? (d : Draft) (fn name : String) : Option Var :=
  Env.find? d.env fn name

def flow (d : Draft) (lo hi : String) (rule : Rule) : Draft :=
  { d with system := d.system.flow lo hi rule.text }

def atLeast (d : Draft) (key : String) (l : Level) (rule : Rule) : Draft :=
  { d with system := d.system.atLeast key l rule.text }

def atMost (d : Draft) (key : String) (l : Level) (rule : Rule) : Draft :=
  { d with system := d.system.atMost key l rule.text }

def equal (d : Draft) (key : String) (l : Level) (rule : Rule) : Draft :=
  { d with system := d.system.equal key l rule.text }

/-- Adds a level variable that diagnostics know by a name and a node. -/
def addVar (d : Draft) (key display : String) (source : Node) : Draft :=
  { d with system := (d.system.addVar key display).setSource key (some source) }

/-- The key of the level variable that the next expression gets. -/
def nextKey (d : Draft) : String :=
  "$" ++ toString (d.exprs + 1)

/-- Adds the level variable of an expression, which diagnostics know by its text. -/
def addExpr (d : Draft) (e : Expr) : Except Fault Draft :=
  match e.text with
  | none => .error .undefined
  | some t =>
    let system := d.system.addExprVar d.nextKey ("`" ++ t ++ "`")
    .ok { d with
      system := system.setSource d.nextKey (some (.expr e))
      exprs := d.exprs + 1 }

/-! ### Expressions -/

mutual

/-- Makes the level variable `key` of the expression `whole` at least what the part `e` of it
depends on. -/
def reads (g : Globals) (fn : String) :
    (whole : Expr) → (key : String) → (rule : Rule) → (e : Expr) → Draft → Except Fault Draft
  | _, _, _, .hole, d => .ok d
  | _, _, _, .lit .., d => .ok d
  | whole, key, rule, .var name, d =>
    match d.find? fn name with
    | none => .error (.about (.expr whole) (.undefinedVariable name))
    | some v => .ok (d.flow v.key key rule)
  | whole, key, rule, .unary _ x, d => reads g fn whole key rule x d
  | whole, key, rule, .binary _ x y, d => do
    let d ← reads g fn whole key rule x d
    reads g fn whole key rule y d
  | whole, key, rule, .index x indices, d => do
    let d ← reads g fn whole key rule x d
    readsAll g fn whole key rule indices d
  | whole, key, rule, .call callee args, d =>
    match g.func? callee with
    | some f =>
      if args.length = f.params.length then do
        let d ← passes g fn f.name f.params args d
        return d.flow (VarId.resultKey f.name) key .result
      else
        .error (.about (.expr (.call callee args))
          (.arityMismatch f.name f.params.length args.length))
    | none =>
      if g.prims.isFunc callee then
        let d := if Primitives.isRng callee then d.atLeast key .genquant .rng else d
        readsAll g fn whole key rule args d
      else
        .error (.about (.expr (.call callee args)) (.undefinedFunction callee))

def readsAll (g : Globals) (fn : String) :
    (whole : Expr) → (key : String) → (rule : Rule) → List Expr → Draft → Except Fault Draft
  | _, _, _, [], d => .ok d
  | whole, key, rule, e :: es, d => do
    let d ← reads g fn whole key rule e d
    readsAll g fn whole key rule es d

/-- Passes arguments to the parameters of a user function. -/
def passes (g : Globals) (fn callee : String) :
    List Param → List Expr → Draft → Except Fault Draft
  | p :: ps, e :: es, d => do
    let key := d.nextKey
    let d ← d.addExpr e
    let d ← reads g fn e key .argument e d
    passes g fn callee ps es (d.flow key (VarId.key ⟨callee, p.name⟩) .argument)
  | _, _, d => .ok d

end

/-- Reads an expression through a level variable of its own, and gives the key of that. -/
def expr (g : Globals) (fn : String) (e : Expr) (rule : Rule) (d : Draft) :
    Except Fault (String × Draft) := do
  let key := d.nextKey
  let d ← d.addExpr e
  let d ← reads g fn e key rule e d
  return (key, d)

/-! ### Statements -/

/-- How diagnostics call a declared variable. -/
def declDisplay (fn name : String) : String :=
  if fn = "" then name else name ++ " (local of " ++ fn ++ ")"

def declare (s : Stmt) (v : Var) (d : Draft) : Except Fault Draft :=
  match Env.declare? d.env v with
  | none => .error (.about (.stmt s) (.variableRedeclared v.id.name))
  | some env =>
    .ok ({ d with env := env }.addVar v.key (declDisplay v.id.func v.id.name) (.stmt s))

/-- The initialiser is read before its variable is declared. -/
def decl (g : Globals) (fn type name : String) (data : Bool) (init : Option Expr) (d : Draft) :
    Except Fault Draft :=
  let s := Stmt.decl type name data init
  let v : Var := ⟨⟨fn, name⟩, type, data, false, init.isSome, .stmt s⟩
  if data && init.isSome then .error (.about (.stmt s) (.dataInitialized name))
  else if data && fn != "" then .error (.about (.stmt s) (.dataInFunction name fn))
  else match init with
    | none => d.declare s v
    | some e => do
      let (key, d) ← expr g fn e .assignment d
      let d ← d.declare s v
      return d.flow key v.key .assignment

def assign (g : Globals) (fn name : String) (value : Expr) (d : Draft) : Except Fault Draft :=
  let s := Stmt.assign name value
  match d.find? fn name with
  | none => .error (.about (.stmt s) (.undefinedVariable name))
  | some v =>
    if v.data then .error (.about (.stmt s) (.dataAssigned name))
    else do
      let (key, d) ← expr g fn value .assignment d
      return { d with env := Env.markAssigned d.env v }.flow key v.key .assignment

/-- The arguments of a sample statement are at most of level `model`. -/
def sampleArgs (g : Globals) (fn : String) : List Expr → Draft → Except Fault Draft
  | [], d => .ok d
  | e :: es, d => do
    let (key, d) ← expr g fn e .sample d
    sampleArgs g fn es (d.atMost key .model .sample)

def sample (g : Globals) (fn name dist : String) (args : List Expr) (d : Draft) :
    Except Fault Draft :=
  let s := Stmt.sample name dist args
  match d.find? fn name with
  | none => .error (.about (.stmt s) (.undefinedVariable name))
  | some v =>
    if g.prims.isDist dist then sampleArgs g fn args (d.atMost v.key .model .sample)
    else .error (.about (.stmt s) (.undefinedDistribution dist))

mutual

def stmt (g : Globals) (fn : String) : Stmt → Draft → Except Fault Draft
  | .hole, _ => .error (.bare (.stray .inference .missing))
  | .decl type name data init, d => decl g fn type name data init d
  | .assign name value, d => assign g fn name value d
  | .sample name dist args, d => sample g fn name dist args d
  | .block list, d => stmts g fn list d
  | .func name params body result, _ =>
    .error (.about (.stmt (.func name params body result)) (.nestedFunction name))

def stmts (g : Globals) (fn : String) : List Stmt → Draft → Except Fault Draft
  | [], d => .ok d
  | s :: ss, d => do
    let d ← stmt g fn s d
    stmts g fn ss d

end

/-! ### Functions -/

/-- A user function has a name of its own and a result. -/
def checkFuncs (prims : Primitives) : (seen : List String) → List Func → Except Fault Unit
  | _, [] => .ok ()
  | seen, f :: fs =>
    if f.name ∈ seen then .error (.bare (.functionRedefined f.name))
    else if prims.isFunc f.name || prims.isDist f.name then
      .error (.bare (.primitiveRedefined f.name))
    else if f.result.isNone then .error (.bare (.missingResult f.name))
    else checkFuncs prims (f.name :: seen) fs

def params (f : Func) : List Param → Draft → Except Fault Draft
  | [], d => .ok d
  | p :: ps, d =>
    let v : Var := ⟨⟨f.name, p.name⟩, p.type, false, true, true, .param p⟩
    match Env.declare? d.env v with
    | none => .error (.about (.stmt f.toStmt) (.parameterRedeclared p.name f.name))
    | some env =>
      let display := p.name ++ " (parameter of " ++ f.name ++ ")"
      params f ps ({ d with env := env }.addVar v.key display (.param p))

/-- The levels that callers of a function refer to. -/
def header (f : Func) (d : Draft) : Except Fault Draft := do
  let d ← params f f.params d
  return d.addVar (VarId.resultKey f.name) ("return value of " ++ f.name) (.stmt f.toStmt)

def headers : List Func → Draft → Except Fault Draft
  | [], d => .ok d
  | f :: fs, d => do
    let d ← header f d
    headers fs d

def body (g : Globals) (f : Func) (d : Draft) : Except Fault Draft := do
  let d ← stmts g f.name f.stmts d
  let (key, d) ← expr g f.name (f.result.getD .hole) .result d
  return d.flow key (VarId.resultKey f.name) .result

def bodies (g : Globals) : List Func → Draft → Except Fault Draft
  | [], d => .ok d
  | f :: fs, d => do
    let d ← body g f d
    bodies g fs d

/-! ### Programs -/

/-- Data variables are of level `data`; other variables that nothing assigns are at least
`model`. -/
def varRule (d : Draft) (v : Var) : Draft :=
  if v.data then d.equal v.key .data .data
  else if v.assigned then d
  else d.atLeast v.key .model .unassigned

def varRules (d : Draft) (fn : String) : Draft :=
  (Env.vars d.env fn).foldl varRule d

/-- All the constraints of a program. Headers come before bodies, since a call may stand before
the definition. -/
def ofProgram (prims : Primitives) (p : Program) : Except Fault Draft := do
  let g : Globals := ⟨prims, p.funcs⟩
  checkFuncs prims [] p.funcs
  let d ← headers p.funcs empty
  let d ← bodies g p.funcs d
  let d ← stmts g "" p.stmts d
  return p.funcs.foldl (fun d f ↦ d.varRules f.name) (d.varRules "")

def seed : List (String × LevelCode) → Draft → Except Fault Draft
  | [], d => .ok d
  | (name, c) :: rest, d =>
    match d.find? "" name with
    | none => .error (.bare (.undeclaredSeed name))
    | some v =>
      match c.level? with
      | none => .error (.bare (.invalidSeed name c))
      | some l => seed rest (d.atLeast v.key l .signature)

end Draft

end Stratify
