import Stratify.Diagnostic.Kind
import Stratify.Level.Code
import Stratify.Syntax.Rename

/-!
# Issues

What a stage of the compiler may have to report, as causes. The kind, the offending name, the call
chain and the wording of an issue are read off its cause, each in one place.
-/

namespace Stratify

/-- A level that bounds a variable: the rule that made it a bound and, if it came from elsewhere,
the variable it came from. -/
structure Bound (κ : Type) where
  level : κ
  via : String
  rule : String
deriving DecidableEq, Repr

namespace Bound

variable {κ : Type}

def direct (level : κ) (rule : String) : Bound κ :=
  ⟨level, "", rule⟩

def describe (b : Bound κ) : String :=
  if b.via = "" then b.rule else b.rule ++ " via " ++ b.via

def code (b : Bound Level) : Bound LevelCode :=
  ⟨b.level.code, b.via, b.rule⟩

end Bound

inductive Stage
  | inference
  | inlining
  | placement
  | renaming
deriving DecidableEq, Repr

inductive Issue
  -- names and scopes
  | undefinedVariable (name : String)
  | undefinedFunction (name : String)
  | undefinedDistribution (name : String)
  | arityMismatch (fn : String) (expected got : Nat)
  | functionRedefined (fn : String)
  | primitiveRedefined (fn : String)
  | parameterRedeclared (name fn : String)
  | variableRedeclared (name : String)
  | missingResult (fn : String)
  | nestedFunction (fn : String)
  | dataInitialized (name : String)
  | dataInFunction (name fn : String)
  | dataAssigned (name : String)
  -- levels
  | inconsistent (name : String) (lower upper : Bound LevelCode)
  | violatedConstraint (constraint : String) (lo hi : Level)
  | undeclaredSeed (name : String)
  | invalidSeed (name : String) (level : LevelCode)
  -- unrolling of calls
  | recursion (chain : List String) (fn : String)
  | tooDeep (chain : List String) (fn : String) (depth : Nat) (limit : Int)
  | tooManyBodies (fn : String) (limit : Int)
  | nestedTooDeep (chain : List String) (limit : Int)
  | notUnrolled (chain : List String) (reason : String)
  | callLeft (fn : String)
  | noSignature (fn : String)
  | notInSignature (fn name : String)
  -- placement in blocks
  | notElaborated (funcs : Nat)
  | noLevel (name : String)
  | noBlock (name : String) (level : LevelCode) (assigned : Bool)
  | illegalFlow (target : String) (level : LevelCode) (source : String) (sourceLevel : LevelCode)
  | assignedEarly (name : String)
  | sampledEarly (name : String)
  | stray (stage : Stage) (what : Stray)
  /-- An issue that is stated in its own words. -/
  | stated (kind : Kind) (name reason : String)
deriving Repr

namespace Issue

def kind : Issue → Kind
  | undefinedVariable _ => .undefinedVariable
  | undefinedFunction _ => .undefinedFunction
  | undefinedDistribution _ => .undefinedFunction
  | arityMismatch .. => .arityMismatch
  | functionRedefined _ => .redeclared
  | primitiveRedefined _ => .redeclared
  | parameterRedeclared .. => .redeclared
  | variableRedeclared _ => .redeclared
  | missingResult _ => .invalidStatement
  | nestedFunction _ => .invalidStatement
  | dataInitialized _ => .invalidAssignment
  | dataInFunction .. => .invalidStatement
  | dataAssigned _ => .invalidAssignment
  | inconsistent .. => .inconsistentLevelConstraints
  | recursion .. => .nonTerminatingElaboration
  | tooDeep .. => .nonTerminatingElaboration
  | tooManyBodies .. => .nonTerminatingElaboration
  | nestedTooDeep .. => .nonTerminatingElaboration
  | notUnrolled .. => .nonTerminatingElaboration
  | violatedConstraint .. => .internalInvariantViolation
  | undeclaredSeed _ => .internalInvariantViolation
  | invalidSeed .. => .internalInvariantViolation
  | callLeft _ => .internalInvariantViolation
  | noSignature _ => .internalInvariantViolation
  | notInSignature .. => .internalInvariantViolation
  | notElaborated _ => .internalInvariantViolation
  | noLevel _ => .internalInvariantViolation
  | noBlock .. => .internalInvariantViolation
  | illegalFlow .. => .internalInvariantViolation
  | assignedEarly _ => .internalInvariantViolation
  | sampledEarly _ => .internalInvariantViolation
  | stray .. => .internalInvariantViolation
  | stated kind _ _ => kind

/-- The calls that lead to an issue of unrolling, outermost first. -/
def chain : Issue → List String
  | recursion chain _ => chain
  | tooDeep chain _ _ _ => chain
  | tooManyBodies fn _ => [fn]
  | nestedTooDeep chain _ => chain
  | notUnrolled chain _ => chain
  | _ => []

/-- The offending variable or function: the last of the chain, if there is one. Violated
invariants name nothing. -/
def name : Issue → String
  | undefinedVariable name => name
  | undefinedFunction name => name
  | undefinedDistribution name => name
  | arityMismatch fn _ _ => fn
  | functionRedefined fn => fn
  | primitiveRedefined fn => fn
  | parameterRedeclared name _ => name
  | variableRedeclared name => name
  | missingResult fn => fn
  | nestedFunction fn => fn
  | dataInitialized name => name
  | dataInFunction name _ => name
  | dataAssigned name => name
  | inconsistent name _ _ => name
  | stated _ name _ => name
  | issue => issue.chain.getLastD ""

def lower? : Issue → Option (Bound LevelCode)
  | inconsistent _ lower _ => some lower
  | _ => none

def upper? : Issue → Option (Bound LevelCode)
  | inconsistent _ _ upper => some upper
  | _ => none

/-- The words for a stray statement depend on the stage that meets it. -/
def strayReason (what : Stray) : Stage → String
  | .inference => "statement " ++ what.text ++ " not supported"
  | .inlining => "statement " ++ what.text ++ " not supported by the elaborator"
  | .placement => "statement " ++ what.text ++ " cannot be placed in a block"
  | .renaming => "cannot rename statement " ++ what.text

def reason : Issue → String
  | undefinedVariable name => "undefined variable " ++ name
  | undefinedFunction name => "undefined function " ++ name
  | undefinedDistribution name => "undefined distribution " ++ name
  | arityMismatch fn expected got =>
    "function " ++ fn ++ " expects " ++ toString expected ++ " arguments but got " ++ toString got
  | functionRedefined fn => "function " ++ fn ++ " defined more than once"
  | primitiveRedefined fn => "function " ++ fn ++ " redefines a built-in"
  | parameterRedeclared name fn => "parameter " ++ name ++ " declared more than once in " ++ fn
  | variableRedeclared name => name ++ " declared more than once"
  | missingResult fn => "function " ++ fn ++ " has no return expression"
  | nestedFunction fn => "function " ++ fn ++ " must be defined at the top-level"
  | dataInitialized name => "data variable " ++ name ++ " cannot be initialized"
  | dataInFunction name fn => "data variable " ++ name ++ " cannot be declared in function " ++ fn
  | dataAssigned name => "cannot assign data variable " ++ name
  | inconsistent name lower upper =>
    "level of " ++ name ++ " must be at least " ++ lower.level.text ++ " (" ++ lower.describe ++
      ") and at most " ++ upper.level.text ++ " (" ++ upper.describe ++ ")"
  | violatedConstraint constraint lo hi =>
    "solution violates constraint " ++ constraint ++ ": " ++ lo.text ++ " > " ++ hi.text
  | undeclaredSeed name => "seed for undeclared variable " ++ name
  | invalidSeed name level => "invalid seed " ++ level.text ++ " for variable " ++ name
  | recursion _ fn => "recursive call to " ++ fn ++ " cannot be unrolled"
  | tooDeep _ fn depth limit =>
    "calls to " ++ fn ++ " are nested " ++ toString depth ++ " deep, more than the maximum of " ++
      toString limit
  | tooManyBodies fn limit =>
    "inlining calls to " ++ fn ++ " expands to more than " ++ toString limit ++ " function bodies"
  | nestedTooDeep _ limit => "calls nested more than " ++ toString limit ++ " deep"
  | notUnrolled _ reason => reason
  | callLeft fn => "call to " ++ fn ++ " left after elaboration"
  | noSignature fn => "no signature for function " ++ fn
  | notInSignature fn name => "signature of " ++ fn ++ " has no variable " ++ name
  | notElaborated funcs =>
    "program with " ++ toString funcs ++ " function definitions has not been elaborated"
  | noLevel name => "no level for variable " ++ name
  | noBlock name level assigned =>
    "no block for " ++ name ++ " with level " ++ level.text ++ " (assigned: " ++
      (if assigned then "true" else "false") ++ ")"
  | illegalFlow target level source sourceLevel =>
    target ++ " at level " ++ level.text ++ " reads " ++ source ++ " at level " ++ sourceLevel.text
  | assignedEarly name => "assignment to " ++ name ++ " before its declaration"
  | sampledEarly name => "sample of " ++ name ++ " before its declaration"
  | stray stage what => strayReason what stage
  | stated _ _ reason => reason

end Issue

end Stratify
