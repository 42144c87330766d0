import Stratify.Calls.Graph
import Stratify.Diagnostic.Basic

/-!
# Size of the unrolled calls

How many function bodies inlining would copy, counted before anything is inlined. Counts are
64-bit integers. They stop growing just above the limit, since all that matters is whether they
exceed it.
-/

namespace Stratify

/-- The number of bodies that one call to each function stands for. -/
abbrev Sizes :=
  List (String × Int64)

namespace Sizes

def size (ss : Sizes) (fn : String) : Int64 :=
  ((ss.find? fun e ↦ decide (e.1 = fn)).map Prod.snd).getD 0

/-- Adds a call to a count, up to one more than the limit. -/
def addCall (ss : Sizes) (limit n : Int64) (c : Call) : Int64 :=
  min (n + ss.size c.fn) (limit + 1)

end Sizes

namespace CallGraph

/-- Sizes that are right for calls nested up to a depth. -/
def sizesTo (g : CallGraph) (limit : Int64) : (depth : Nat) → Sizes
  | 0 => []
  | depth + 1 =>
    let ss := g.sizesTo limit depth
    g.names.map fun fn ↦ (fn, (g.userCalls fn).foldl (ss.addCall limit) 1)

/-- In an acyclic graph calls are nested no deeper than there are functions. -/
def sizes (g : CallGraph) (limit : Int64) : Sizes :=
  g.sizesTo limit g.names.length

/-- Counts the bodies of some calls, and fails at the first call that goes beyond the limit. -/
def checkCalls (ss : Sizes) (limit : Int) : List Call → (total : Int64) → Except Diagnostic Unit
  | [], _ => .ok ()
  | c :: cs, total =>
    let total := ss.addCall (.ofInt limit) total c
    if Int64.ofInt limit < total then
      .error ⟨.tooManyBodies c.fn limit, some (.expr c.toExpr)⟩
    else checkCalls ss limit cs total

/-- Fails if the statements stand for more bodies than allowed. The graph has to be acyclic. -/
def checkSize (g : CallGraph) (stmts : List Stmt) (limit : Int) : Except Diagnostic Unit :=
  checkCalls (g.sizes (.ofInt limit)) limit
    ((Stmt.callsAll stmts).filter fun c ↦ g.isUser c.fn) 0

end CallGraph

end Stratify
