import Stratify.Placement
import Stratify.Settings.Basic

/-!
# The compiler

Levels are inferred for the source program, where the calls of a function share one signature.
Then calls are inlined, and levels are inferred once more, at least as high as the signatures say.
These levels decide the blocks. The first stage that fails ends the compilation.
-/

namespace Stratify

/-- Settings without a problem. -/
structure Compiler where
  settings : Settings
  sound : settings.problems = []

structure Output where
  layout : Layout
  source : Typing
  elaborated : Elaborated
  levels : Typing

namespace Program

def topFunc? : Stmt → Option Func
  | .func name params body result => some ⟨name, params, body, result⟩
  | _ => none

/-- Moves the functions defined among the top-level statements to the other functions. -/
def hoist (p : Program) : Program where
  funcs := p.funcs ++ p.stmts.filterMap topFunc?
  stmts := p.stmts.filter fun s ↦ (topFunc? s).isNone

end Program

namespace Typing

def levelMap (t : Typing) : LevelMap where
  level? name := (t.level? name).map Level.code
  assigned := t.assigned

end Typing

namespace Seeds

def ofLevels (seeds : List (String × Level)) : Seeds :=
  seeds.map fun (name, l) ↦ (name, l.code)

end Seeds

namespace Compiler

def new (s : Settings) : Except Failure Compiler :=
  if h : s.problems = [] then .ok ⟨s, h⟩
  else .error (Settings.complaint "invalid compiler options" s.problems)

/-- The levels of the inlined program, at least those of the signatures. -/
def inferAgain (c : Compiler) (source : Typing) (e : Elaborated) : Except Fault Typing := do
  let seeds ← (e.seeds source).mapError Fault.report
  Typing.infer c.settings.primitives e.program (.ofLevels seeds)

def compile (c : Compiler) (program : Program) : Except Fault Output := do
  let p := program.hoist
  let source ← Typing.infer c.settings.primitives p []
  let e ← (Elaborated.ofProgram c.settings.limits p).mapError Fault.report
  let levels ← c.inferAgain source e
  let layout ← Layout.ofProgram levels.levelMap e.program
  return ⟨layout, source, e, levels⟩

end Compiler

end Stratify
