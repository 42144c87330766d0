import Stratify.Proofs.Level.Order
import Stratify.Proofs.Syntax.Complete
import Stratify.Target.Layout
import Stratify.Typing.Basic

/-!
# Well-scoped programs and their level assignments

The rules of the language, apart from any way to check them. A program is well scoped if its names
can be resolved. An assignment of levels to its variables and to the results of its functions fits
the program if information only flows upwards: out of what an expression reads, into the variable
that it initialises or is assigned to, and from arguments into parameters. All the calls of a
function share the levels of its parameters, locals and result.
-/

namespace Stratify

/-- What has a level: a variable, or the result of a function. -/
inductive Slot
  | var (id : VarId)
  | result (fn : String)
deriving DecidableEq, Repr

abbrev Assignment :=
  Slot → Level

namespace Globals

/-- A call to a known function with as many arguments as that takes. -/
def Admits (g : Globals) (c : Call) : Prop :=
  match g.func? c.fn with
  | some f => c.args.length = f.params.length
  | none => g.prims.isFunc c.fn = true

end Globals

/-! ### Scopes -/

namespace Expr

/-- Every variable that is read is in scope, and every call is to a known function. -/
structure Scoped (g : Globals) (Γ : String → Prop) (e : Expr) : Prop where
  vars : ∀ x ∈ e.reads Deps.noUser, Γ x
  calls : ∀ c ∈ e.calls, g.Admits c

end Expr

namespace Stmt

/-- The variables that some statements declare, in order. -/
def declNames (ss : List Stmt) : List String :=
  ss.filterMap declName?

/-- A statement obeys the rules of its scope, given the parameters and the statements before it. -/
def ScopedAfter (g : Globals) (fn : String) (params : List String) (before : List Stmt) :
    Stmt → Prop
  | decl _ _ data init =>
    (data = true → init = none ∧ fn = "") ∧
      ∀ e ∈ init, e.Scoped g (· ∈ params ++ declNames before)
  | assign x e =>
    x ∈ params ++ declNames before ∧ (∀ type init, decl type x true init ∉ before) ∧
      e.Scoped g (· ∈ params ++ declNames before)
  | sample x dist args =>
    x ∈ params ++ declNames before ∧ g.prims.isDist dist = true ∧
      ∀ e ∈ args, e.Scoped g (· ∈ params ++ declNames before)
  | hole => False
  | block _ => False
  | func .. => False

/-- No variable is declared twice in a scope, and every statement of it obeys the rules. -/
structure ScopedIn (g : Globals) (fn : String) (params : List String) (ss : List Stmt) : Prop where
  nodup : (params ++ declNames ss).Nodup
  stmts : ∀ before s after, ss = before ++ s :: after → s.ScopedAfter g fn params before

end Stmt

namespace Program

/-- The functions and the target language, as the statements of a program see them. -/
def globals (p : Program) (prims : Primitives) : Globals :=
  ⟨prims, p.funcs⟩

structure WellScoped (prims : Primitives) (p : Program) : Prop where
  funcs_nodup : (p.funcs.map Func.name).Nodup
  not_primitive : ∀ f ∈ p.funcs, prims.isFunc f.name = false ∧ prims.isDist f.name = false
  bodies : ∀ f ∈ p.funcs,
    Stmt.ScopedIn (p.globals prims) f.name f.paramNames (Stmt.flatten f.stmts)
  results : ∀ f ∈ p.funcs, ∃ e, f.result = some e ∧
    e.Scoped (p.globals prims) (· ∈ f.paramNames ++ Stmt.declNames (Stmt.flatten f.stmts))
  stmts : Stmt.ScopedIn (p.globals prims) "" [] (Stmt.flatten p.stmts)

end Program

/-! ### Levels -/

namespace Primitives

/-- Random number generators make their expression a generated quantity. -/
def callLevel (name : String) : Level :=
  if isRng name then .genquant else .data

end Primitives

namespace Expr

mutual

/-- The level of all that an expression of a function reads. The arguments of a user call are read
by its parameters, and the expression itself only reads the result. -/
def levelIn (g : Globals) (A : Assignment) (fn : String) : Expr → Level
  | hole => .data
  | lit .. => .data
  | var x => A (.var ⟨fn, x⟩)
  | unary _ x => x.levelIn g A fn
  | binary _ x y => max (x.levelIn g A fn) (y.levelIn g A fn)
  | index x indices => max (x.levelIn g A fn) (levelInAll g A fn indices)
  | call callee args =>
    if (g.func? callee).isSome then A (.result callee)
    else max (Primitives.callLevel callee) (levelInAll g A fn args)

def levelInAll (g : Globals) (A : Assignment) (fn : String) : List Expr → Level
  | [] => .data
  | e :: es => max (e.levelIn g A fn) (levelInAll g A fn es)

end

/-- Every argument of a user call, nested ones included, flows into its parameter. -/
def Passes (g : Globals) (A : Assignment) (fn : String) (e : Expr) : Prop :=
  ∀ c ∈ e.calls, ∀ f, g.func? c.fn = some f → ∀ pa ∈ f.params.zip c.args,
    pa.2.levelIn g A fn ≤ A (.var ⟨f.name, pa.1.name⟩)

/-- The value of an expression may flow into something of the level `l`. -/
structure FlowsTo (g : Globals) (A : Assignment) (fn : String) (e : Expr) (l : Level) : Prop where
  level_le : e.levelIn g A fn ≤ l
  passes : e.Passes g A fn

end Expr

namespace Stmt

/-- What a statement of a function demands of the levels. -/
def Fits (g : Globals) (A : Assignment) (fn : String) : Stmt → Prop
  | decl _ x _ init => ∀ e ∈ init, e.FlowsTo g A fn (A (.var ⟨fn, x⟩))
  | assign x e => e.FlowsTo g A fn (A (.var ⟨fn, x⟩))
  | sample x _ args => A (.var ⟨fn, x⟩) ≤ .model ∧ ∀ e ∈ args, e.FlowsTo g A fn .model
  | _ => True

/-- What the statements of a scope demand of the levels. A variable that is neither given from
outside nor gets a value anywhere in its scope is at least a parameter of the model. -/
structure FitIn (g : Globals) (A : Assignment) (fn : String) (ss : List Stmt) : Prop where
  stmts : ∀ s ∈ ss, s.Fits g A fn
  data : ∀ type x init, decl type x true init ∈ ss → A (.var ⟨fn, x⟩) = .data
  unassigned : ∀ type x, decl type x false none ∈ ss → (∀ e, assign x e ∉ ss) →
    .model ≤ A (.var ⟨fn, x⟩)

end Stmt

namespace Seeds

/-- Lower bounds of declared variables of the program. -/
def ValidFor (seeds : Seeds) (p : Program) : Prop :=
  ∀ s ∈ seeds, s.1 ∈ Stmt.declNames (Stmt.flatten p.stmts) ∧ s.2.level?.isSome = true

instance (seeds : Seeds) (p : Program) : Decidable (seeds.ValidFor p) :=
  inferInstanceAs (Decidable (∀ s ∈ seeds, _))

/-- The bounds hold of an assignment. -/
def Hold (seeds : Seeds) (A : Assignment) : Prop :=
  ∀ x c, (x, c) ∈ seeds → ∀ l, c.level? = some l → l ≤ A (.var ⟨"", x⟩)

end Seeds

namespace Program

/-- An assignment of levels that obeys the rules of the language and some lower bounds. -/
structure Fits (prims : Primitives) (p : Program) (seeds : Seeds) (A : Assignment) : Prop where
  bodies : ∀ f ∈ p.funcs, Stmt.FitIn (p.globals prims) A f.name (Stmt.flatten f.stmts)
  results : ∀ f ∈ p.funcs, ∀ e, f.result = some e →
    e.FlowsTo (p.globals prims) A f.name (A (.result f.name))
  stmts : Stmt.FitIn (p.globals prims) A "" (Stmt.flatten p.stmts)
  seeds : seeds.Hold A

/-- All that has a level in a program. -/
def slots (p : Program) : List Slot :=
  (Stmt.declNames (Stmt.flatten p.stmts)).map (fun x ↦ .var ⟨"", x⟩) ++
    p.funcs.flatMap fun f ↦ .result f.name ::
      (f.paramNames ++ Stmt.declNames (Stmt.flatten f.stmts)).map fun x ↦ .var ⟨f.name, x⟩

end Program

end Stratify
