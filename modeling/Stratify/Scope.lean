import Stratify.OrderedMap

/-!
# Scopes

A scope holds named values in declaration order. Defining a name twice is an error, and so is
changing a name that is not defined. Scopes do not nest.
-/

namespace Stratify

structure Scope (β : Type) where
  name : String
  vars : OrderedMap String β

/-- Why a scope refuses a name. -/
inductive ScopeError
  | defined (key scope : String)
  | undefined (key scope : String)
deriving DecidableEq, Repr

namespace ScopeError

def message : ScopeError → String
  | defined key scope => key ++ " already defined in scope " ++ scope
  | undefined key scope => "cannot update " ++ key ++ ": not defined in scope " ++ scope

end ScopeError

namespace Scope

variable {β : Type}

def empty (name : String) : Scope β :=
  ⟨name, .empty⟩

def find? (s : Scope β) (key : String) : Option β :=
  s.vars.get? key

def define (s : Scope β) (key : String) (value : β) : Except ScopeError (Scope β) :=
  if s.vars.contains key then .error (.defined key s.name)
  else .ok { s with vars := s.vars.insert key value }

def update (s : Scope β) (key : String) (value : β) : Except ScopeError (Scope β) :=
  if s.vars.contains key then .ok { s with vars := s.vars.insert key value }
  else .error (.undefined key s.name)

def text (render : β → String) (s : Scope β) : String :=
  "scope " ++ s.name ++ "\n" ++
    "\n".intercalate (s.vars.entries.map fun e ↦ e.1 ++ ": " ++ render e.2)

end Scope

end Stratify
