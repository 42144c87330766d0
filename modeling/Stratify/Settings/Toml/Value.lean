/-!
# Values of configurations

A table has keys with values, in the order in which they were first given. Tables written in braces
are closed: nothing can be added to them later.
-/

namespace Stratify.Toml

inductive Value
  | string (s : String)
  /-- An integer of 64 bits with a sign. -/
  | int (n : Int)
  /-- A number that only fits into 64 bits without a sign. -/
  | large (n : Nat)
  | float
  /-- A date, a time of day, or both. -/
  | moment
  | bool (b : Bool)
  | array (items : List Value)
  /-- Keys and values, in braces or not. -/
  | table (closed : Bool) (entries : List (String × Value))
  /-- An array of tables. -/
  | tables (items : List Value)
deriving Repr, Inhabited

namespace Value

def emptyTable (closed : Bool) : Value :=
  table closed []

def isTable : Value → Bool
  | table .. => true
  | _ => false

/-- The table itself, or the last one of an array of tables. -/
def asTable? : Value → Option Value
  | table closed entries => some (table closed entries)
  | tables items => items.getLast?
  | _ => none

def isClosed : Value → Bool
  | table closed _ => closed
  | _ => false

def entries : Value → List (String × Value)
  | table _ es => es
  | _ => []

def get? (t : Value) (key : String) : Option Value :=
  (t.entries.find? fun e ↦ decide (e.1 = key)).map Prod.snd

/-- The value at a path. Arrays of tables are entered at their last table. -/
def path? : List String → Value → Option Value
  | [], t => some t
  | [key], t => t.get? key
  | key :: keys, t => do
    let child ← t.get? key
    let child ← child.asTable?
    path? keys child

def putEntry (key : String) (v : Value) : List (String × Value) → List (String × Value)
  | [] => [(key, v)]
  | e :: es => if e.1 = key then (key, v) :: es else e :: putEntry key v es

def put (t : Value) (key : String) (v : Value) : Value :=
  match t with
  | table closed es => table closed (putEntry key v es)
  | v => v

/-- Puts a changed table back where it came from: in place of the table, or of the last one of an
array of tables. -/
def replaceTable (old new : Value) : Value :=
  match old with
  | tables items => tables (items.dropLast ++ [new])
  | _ => new

/-- Makes sure that there are tables along a path. New ones are closed if they stand in a closed
one. -/
def ensure : List String → Value → Option Value
  | [], t => some t
  | key :: keys, t =>
    match t.get? key with
    | none => do
      let child ← ensure keys (emptyTable t.isClosed)
      return t.put key child
    | some old => do
      let child ← old.asTable?
      let child ← ensure keys child
      return t.put key (replaceTable old child)

/-- Gives a new key a value in the table at a path. -/
def assign : (t : Value) → (path : List String) → (key : String) → (v : Value) → Option Value
  | t, [], key, v =>
    if t.isClosed || (t.get? key).isSome then none else some (t.put key v)
  | t, k :: ks, key, v =>
    match t.get? k with
    | none => do
      let child ← assign (emptyTable t.isClosed) ks key v
      return t.put k child
    | some old => do
      let child ← old.asTable?
      let child ← assign child ks key v
      return t.put k (replaceTable old child)

/-- Gives a key a value, whether it has one or not. What is no table on the way is passed over. -/
def set : (t : Value) → (path : List String) → (v : Value) → Value
  | t, [], _ => t
  | t, [key], v => t.put key v
  | t, key :: keys, v =>
    match t.get? key with
    | none => t.put key (set (emptyTable false) keys v)
    | some old =>
      match old.asTable? with
      | some child => t.put key (replaceTable old (set child keys v))
      | none => set t keys v

def close : Value → Value
  | table _ es => table true es
  | v => v

end Value

end Stratify.Toml
