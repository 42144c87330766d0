import Stratify.Compile.Basic

/-!
# Batches of programs

Programs that have nothing to do with each other are compiled with one compiler. Outputs and
failures keep the order of the programs, and a failure tells the place of its program.
-/

namespace Stratify

structure Batch where
  /-- One output for each program, or none if the program failed. -/
  outputs : List (Option Output)
  failures : List Failure

namespace Batch

def locate (i : Nat) (f : Failure) : Failure :=
  .context ("program " ++ toString i) f

/-- Why a program is not compiled at all. -/
def cancelled : Failure :=
  .plain "context canceled"

def empty : Batch :=
  ⟨[], []⟩

/-- Puts the outcome of a program in front. -/
def cons (i : Nat) (r : Except Failure Output) (b : Batch) : Batch :=
  match r with
  | .ok out => ⟨some out :: b.outputs, b.failures⟩
  | .error f => ⟨none :: b.outputs, locate i f :: b.failures⟩

/-- The combined message, if there is any failure. The message itself may be undefined. -/
def message? (b : Batch) : Option (Option String) :=
  if b.failures.isEmpty then none else some (Failure.combined b.failures)

end Batch

namespace Compiler

def outcome (c : Compiler) (p : Program) : Option (Except Failure Output) :=
  match c.compile p with
  | .ok out => some (.ok out)
  | .error (.report d) => some (.error (.diagnostic d))
  | .error .undefined => none

/-- Compiles programs, the first of which has a given place. After a cancellation every program
fails. Undefined if one of the outcomes is. -/
def compileFrom (c : Compiler) (isCancelled : Bool) : Nat → List Program → Option Batch
  | _, [] => some .empty
  | i, p :: ps => do
    let r ← if isCancelled then some (.error Batch.cancelled) else c.outcome p
    let rest ← compileFrom c isCancelled (i + 1) ps
    return rest.cons i r

def compileAll (c : Compiler) (isCancelled : Bool) (ps : List Program) : Option Batch :=
  c.compileFrom isCancelled 0 ps

end Compiler

end Stratify
