import Stratify.Diagnostic.Basic

/-!
# Log records

The compiler records what its stages have done. All its records are for debugging, and a logger
keeps them if it starts at or below the level of such records. Where a logger is missing
altogether, a stage that wants to record its success cannot go on.
-/

namespace Stratify

structure LogRecord where
  message : String
  attrs : List (String × String)
deriving DecidableEq, Repr

inductive Logger
  | discarding
  | starting (level : Int)
  | absent
deriving DecidableEq, Repr

namespace Logger

def debugLevel : Int :=
  -4

def debugName : String :=
  "DEBUG"

def kept (l : Logger) (rs : List LogRecord) : List LogRecord :=
  match l with
  | starting level => if level ≤ debugLevel then rs else []
  | _ => []

/-- The lowest level from -100 to 100 that a logger keeps. -/
def lowest? : Logger → Option Int
  | starting level => if level ≤ -100 then some (-100) else if level ≤ 100 then some level else none
  | _ => none

/-- Something has to be recorded. -/
def demand : Logger → Except Fault Unit
  | absent => .error .undefined
  | _ => .ok ()

end Logger

end Stratify
