import Stratify.Diagnostic.Issue
import Stratify.Syntax.Printer

/-!
# Diagnostics

A diagnostic is an issue and the node it points at, if any. Its message ends with the text of that
node, so it is undefined when the node has none. A failure is what a caller gets to see: a
diagnostic or a plain message, possibly inside contexts that are written in front of it.
-/

namespace Stratify

structure Diagnostic where
  issue : Issue
  node : Option Node
deriving Repr

namespace Diagnostic

/-- How the message mentions the call chain. -/
def chainText : List String → String
  | [] => ""
  | chain => " [call chain: " ++ " -> ".intercalate chain ++ "]"

/-- How the message mentions the node. -/
def nodeText : Option Node → Option String
  | none => some ""
  | some n => n.text.map fun t ↦ " in `" ++ t ++ "`"

def message (d : Diagnostic) : Option String := do
  let suffix ← nodeText d.node
  return d.issue.kind.heading ++ d.issue.reason ++ chainText d.issue.chain ++ suffix

end Diagnostic

inductive Failure
  | diagnostic (d : Diagnostic)
  | plain (text : String)
  | context (text : String) (inner : Failure)
deriving Repr

namespace Failure

def message : Failure → Option String
  | diagnostic d => d.message
  | plain text => some text
  | context text inner => inner.message.map fun t ↦ text ++ ": " ++ t

def diagnostic? : Failure → Option Diagnostic
  | diagnostic d => some d
  | plain _ => none
  | context _ inner => inner.diagnostic?

def kind (f : Failure) : Kind :=
  match f.diagnostic? with
  | some d => d.issue.kind
  | none => .unknown

/-- What a plain message says in its contexts. -/
def plainText : Failure → String
  | diagnostic d => d.issue.reason
  | plain text => text
  | context text inner => text ++ ": " ++ inner.plainText

/-- Blames the compiler for a failure that no diagnostic explains. -/
def asInternal (f : Failure) : Failure :=
  match f.diagnostic? with
  | some _ => f
  | none => .diagnostic ⟨.stated .internalInvariantViolation "" f.plainText, none⟩

def combined (fs : List Failure) : Option String :=
  Text.join "; " (fs.map message)

end Failure

/-- Why a stage has no result: it reports a diagnostic, or the result would depend on something
that has no value, such as the text of a tree with a hole or the rank of a number that is no
level. -/
inductive Fault
  | report (d : Diagnostic)
  | undefined
deriving Repr

namespace Fault

def about (n : Node) (i : Issue) : Fault :=
  report ⟨i, some n⟩

def bare (i : Issue) : Fault :=
  report ⟨i, none⟩

end Fault

end Stratify
