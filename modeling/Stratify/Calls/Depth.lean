import Stratify.Calls.Graph
import Stratify.Diagnostic.Basic

/-!
# Nesting depth of calls

Calls can be unrolled only if no function calls itself, directly or through others, and if the
calls are not nested too deeply. The check searches the call graph depth first, in the order of
the function names, and finds the depth of a function after that of its callees.
-/

namespace Stratify

/-- The depths of the functions that the search has left. -/
abbrev Depths :=
  List (String × Nat)

namespace Depths

def get? (ds : Depths) (fn : String) : Option Nat :=
  (ds.find? fun e ↦ decide (e.1 = fn)).map Prod.snd

def depth (ds : Depths) (fn : String) : Nat :=
  (ds.get? fn).getD 0

end Depths

namespace CallGraph

/-- Enters a function through a call from the last function of the chain. A function of the chain
closes a cycle, and one that the search has left needs no second visit. The chain has no function
twice, so it never outgrows the number of functions, which is the fuel. -/
def visit (g : CallGraph) (limit : Int) :
    (fuel : Nat) → (chain : List String) → (fn : String) → (via : Expr) → Depths →
      Except Diagnostic Depths
  | 0, _, _, _, ds => .ok ds
  | fuel + 1, chain, fn, via, ds =>
    if fn ∈ chain then
      .error ⟨.recursion (chain.dropWhile (fun f ↦ decide (f ≠ fn)) ++ [fn]) fn, some (.expr via)⟩
    else if (ds.get? fn).isSome then .ok ds
    else do
      let (ds, depth) ← (g.firstCalls fn).foldlM
        (fun (acc : Depths × Nat) call ↦ do
          let ds ← visit g limit fuel (chain ++ [fn]) call.fn call.toExpr acc.1
          return (ds, max acc.2 (ds.depth call.fn + 1)))
        (ds, 1)
      if limit < depth then
        .error ⟨.tooDeep (chain ++ [fn]) fn depth limit, some (.expr via)⟩
      else
        return (fn, depth) :: ds

/-- Fails if the calls cannot be unrolled within a depth. A function that no call has led to is
entered through a missing one. -/
def checkDepth (g : CallGraph) (limit : Int) : Except Diagnostic Unit := do
  let _ ← g.names.foldlM (fun ds fn ↦ g.visit limit (g.names.length + 1) [] fn .hole ds) []
  return ()

/-- No chain of distinct functions is deeper than their number, so with that limit only a cycle
can make the check fail. -/
def isAcyclic (g : CallGraph) : Bool :=
  match g.checkDepth g.names.length with
  | .ok _ => true
  | .error _ => false

end CallGraph

end Stratify
