/-!
# Kinds of diagnostics

Every diagnostic is of one kind. Kinds are numbered; a number beyond the known ones still names a
kind, by its number.
-/

namespace Stratify

inductive Kind
  | unknown
  | undefinedVariable
  | undefinedFunction
  | arityMismatch
  | inconsistentLevelConstraints
  | nonTerminatingElaboration
  | internalInvariantViolation
  | redeclared
  | invalidAssignment
  | invalidStatement
  | other (number : Int)
deriving DecidableEq, Repr, Inhabited

namespace Kind

def text : Kind → String
  | unknown => "Unknown"
  | undefinedVariable => "UndefinedVariable"
  | undefinedFunction => "UndefinedFunction"
  | arityMismatch => "ArityMismatch"
  | inconsistentLevelConstraints => "InconsistentLevelConstraints"
  | nonTerminatingElaboration => "NonTerminatingElaboration"
  | internalInvariantViolation => "InternalInvariantViolation"
  | redeclared => "Redeclared"
  | invalidAssignment => "InvalidAssignment"
  | invalidStatement => "InvalidStatement"
  | other n => "Kind(" ++ toString n ++ ")"

def ofNumber : Int → Kind
  | 0 => unknown
  | 1 => undefinedVariable
  | 2 => undefinedFunction
  | 3 => arityMismatch
  | 4 => inconsistentLevelConstraints
  | 5 => nonTerminatingElaboration
  | 6 => internalInvariantViolation
  | 7 => redeclared
  | 8 => invalidAssignment
  | 9 => invalidStatement
  | n => other n

/-- How a message begins: a violated invariant is the compiler's own fault and says so. -/
def heading : Kind → String
  | internalInvariantViolation => internalInvariantViolation.text ++ " (compiler bug): "
  | k => k.text ++ ": "

end Kind

end Stratify
