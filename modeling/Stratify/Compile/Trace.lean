import Stratify.Compile.Basic

/-!
# The trace of a compilation

The records that a compilation leaves, up to the stage that fails.
-/

namespace Stratify

namespace LogRecord

def inferred (p : Program) (t : Typing) : LogRecord where
  message := "levels inferred"
  attrs := [
    ("functions", toString p.funcs.length),
    ("variables", toString t.system.size),
    ("constraints", toString t.system.constraints.length)]

def signature (s : Signature) : LogRecord where
  message := "function signature"
  attrs := [
    ("func", s.func), ("params", Signature.levelsText s.params), ("return", s.result.text)]

def inlined (e : Elaborated) : LogRecord where
  message := "calls inlined"
  attrs := [("calls", toString e.calls), ("fresh", toString e.origins.length)]

def elaborated (source : String) : LogRecord where
  message := "elaborated program"
  attrs := [("source", Text.numbered source)]

def block (b : Block) (ss : List Stmt) : LogRecord where
  message := "block"
  attrs := [("name", b.text), ("statements", toString ss.length)]

end LogRecord

namespace Compiler

def traceLayout (t : Typing) (e : Elaborated) : List LogRecord :=
  match Layout.ofProgram t.levelMap e.program with
  | .error _ => []
  | .ok l => l.blocks.map fun (b, ss) ↦ .block b ss

def traceElaborated (c : Compiler) (source : Typing) (e : Elaborated) : List LogRecord :=
  .inlined e :: match e.program.text with
    | none => []
    | some text => .elaborated text :: match c.inferAgain source e with
      | .error _ => []
      | .ok t => .inferred e.program t :: traceLayout t e

def trace (c : Compiler) (program : Program) : List LogRecord :=
  let p := program.hoist
  match Typing.infer c.settings.primitives p [] with
  | .error _ => []
  | .ok source =>
    .inferred p source :: source.signatures.map .signature ++
      match Elaborated.ofProgram c.settings.limits p with
      | .error _ => []
      | .ok e => c.traceElaborated source e

/-- The records that the compiler's logger keeps. -/
def log (c : Compiler) (program : Program) : List LogRecord :=
  c.settings.logger.kept (c.trace program)

end Compiler

end Stratify
