/-!
# A supply of fresh names

A fresh name is a root, a separator and a number. One counter serves all roots and only grows; a
number is passed over when the name it would give is taken.
-/

namespace Stratify

structure NameSupply where
  sep : String
  next : Nat
  taken : List String
deriving Repr

namespace NameSupply

def defaultSep : String :=
  "_"

/-- A supply with nothing taken. An empty separator stands for the default one. -/
def new (sep : String) : NameSupply where
  sep := if sep = "" then defaultSep else sep
  next := 1
  taken := []

def isTaken (s : NameSupply) (name : String) : Bool :=
  s.taken.contains name

def reserve (s : NameSupply) (name : String) : NameSupply :=
  { s with taken := s.taken.insert name }

def reserveAll (s : NameSupply) (names : List String) : NameSupply :=
  names.foldl reserve s

def candidate (s : NameSupply) (root : String) (n : Nat) : String :=
  root ++ s.sep ++ toString n

/-- The first number from `n` on that gives a free name, if there is one within `fuel` steps. -/
def search (s : NameSupply) (root : String) : (fuel n : Nat) → Nat
  | 0, n => n
  | fuel + 1, n => if s.isTaken (s.candidate root n) then s.search root fuel (n + 1) else n

/-- The number of the next fresh name of a root. Different numbers give different names, so there
is a free one within as many steps as names are taken. -/
def number (s : NameSupply) (root : String) : Nat :=
  s.search root s.taken.length s.next

def fresh (s : NameSupply) (root : String) : String × NameSupply :=
  let n := s.number root
  let name := s.candidate root n
  (name, { s with next := n + 1, taken := name :: s.taken })

/-- How many numbers have been used or passed over. -/
def count (s : NameSupply) : Nat :=
  s.next - 1

end NameSupply

end Stratify
