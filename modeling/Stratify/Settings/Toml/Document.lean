import Stratify.Settings.Toml.Number
import Stratify.Settings.Toml.Token
import Stratify.Settings.Toml.Value

/-!
# Configuration documents

A document is a table. A key is given only once, and so is a table header, by its very text.
-/

namespace Stratify.Toml

/-! ### Keys -/

def keyParts : (fuel : Nat) → List Char → Option (List String)
  | 0, _ => some []
  | fuel + 1, cs =>
    match cs.dropWhile isBlank with
    | [] => some []
    | c :: rest =>
      if isBare c then
        let part := String.ofList (c :: rest.takeWhile isBare)
        match rest.dropWhile isBare with
        | [] => some [part]
        | d :: after =>
          if d = '.' then do
            let more ← keyParts fuel (d :: after)
            return part :: more
          else if isBlank d then
            match after.dropWhile isBlank with
            | [] => some [part]
            | '.' :: after => do
              let more ← keyParts fuel ('.' :: after)
              return part :: more
            | _ => none
          else none
      else if c = '\'' || c = '"' then
        match rest.dropWhile fun x ↦ x != c with
        | [] => none
        | _ :: after => do
          let more ← keyParts fuel after
          return String.ofList (rest.takeWhile fun x ↦ x != c) :: more
      else if c = '.' then
        match rest with
        | [] => none
        | d :: _ =>
          if isBare d || d = '\'' || d = '"' || d = ' ' then keyParts fuel rest else none
      else none

def parseKey (s : String) : Option (List String) := do
  let parts ← keyParts (s.length + 1) s.toList
  guard (!parts.isEmpty)
  return parts

/-! ### Values -/

/-- A date, with the time of day and the offset that may follow it. -/
def moment (d : Date) : List Token → Option (Value × List Token)
  | .time t :: .offset o :: rest =>
    if d.isValid && t.isValid && o.isValid then some (.moment, rest) else none
  | .time t :: rest => if d.isValid && t.isValid then some (.moment, rest) else none
  | rest => if d.isValid then some (.moment, rest) else none

mutual

def value : (fuel : Nat) → List Token → Option (Value × List Token)
  | 0, _ => none
  | fuel + 1, tok :: rest =>
    match tok with
    | .string s => some (.string s, rest)
    | .bool b => some (.bool b, rest)
    | .special => some (.float, rest)
    | .integer digits => (parseInteger digits).map fun v ↦ (v, rest)
    | .float digits => (parseFloat digits).map fun v ↦ (v, rest)
    | .date d => moment d rest
    | .time t => if t.isValid then some (.moment, rest) else none
    | .openBracket => do
      let (items, rest) ← arrayItems fuel rest
      return (if !items.isEmpty && items.all Value.isTable then .tables items else .array items,
        rest)
    | .openBrace => inlineTable fuel (.emptyTable false) none rest
    | _ => none
  | _ + 1, [] => none

/-- The items of an array: a comma stands between two of them, and may follow the last. -/
def arrayItems : (fuel : Nat) → List Token → Option (List Value × List Token)
  | 0, _ => none
  | _ + 1, .closeBracket :: rest => some ([], rest)
  | fuel + 1, toks => do
    let (v, rest) ← value fuel toks
    match rest with
    | .closeBracket :: rest => return ([v], rest)
    | .comma :: rest => do
      let (vs, rest) ← arrayItems fuel rest
      return (v :: vs, rest)
    | _ => none

/-- The fields of a table in braces, after a comma or a field if there was any. No comma may stand
before the closing brace. -/
def inlineTable : (fuel : Nat) → Value → (previous : Option Token) → List Token →
    Option (Value × List Token)
  | 0, _, _, _ => none
  | fuel + 1, t, previous, toks =>
    match toks with
    | .closeBrace :: rest => if previous = some .comma then none else some (t.close, rest)
    | .comma :: rest =>
      if previous = some .comma then none else inlineTable fuel t (some .comma) rest
    | .key k :: .equal :: rest =>
      if previous = none ∨ previous = some .comma then do
        let keys ← parseKey k
        let (v, rest) ← value fuel rest
        inlineTable fuel (t.set keys v) (some (.key k)) rest
      else none
    | _ => none

end

/-! ### Documents -/

/-- The document so far, the table that keys go to, and the headers seen. -/
structure State where
  root : Value
  current : List String
  seen : List String

namespace State

def openTable (s : State) (header : String) : Option State := do
  guard (!s.seen.contains header)
  let keys ← parseKey header
  let root ← s.root.ensure keys
  match root.path? keys with
  | some (.table true _) => none
  | _ => return { root := root, current := keys, seen := header :: s.seen }

/-- Adds a table to an array of tables. Headers below it may be used again for the new table. -/
def addTable (s : State) (header : String) : Option State := do
  let keys ← parseKey header
  let root := (s.root.ensure keys.dropLast).getD s.root
  let items ←
    match root.path? keys with
    | none => some []
    | some (.tables items) => some items
    | some _ => none
  let below := (header ++ ".").toList
  return {
    root := root.set keys (.tables (items ++ [.emptyTable false]))
    current := keys
    seen := header :: s.seen.filter fun h ↦ !below.isPrefixOf h.toList }

def assign (s : State) (key : String) (v : Value) : Option State := do
  let keys ← parseKey key
  let last ← keys.getLast?
  let root ← s.root.assign (s.current ++ keys.dropLast) last v
  return { s with root := root }

end State

def document : (fuel : Nat) → State → List Token → Option State
  | _, s, [] => some s
  | 0, _, _ => none
  | fuel + 1, s, toks =>
    match toks with
    | .openBracket :: .header h :: .closeBracket :: rest => do
      let s ← s.openTable h
      document fuel s rest
    | .openDouble :: .arrayHeader h :: .closeDouble :: rest => do
      let s ← s.addTable h
      document fuel s rest
    | .key k :: .equal :: rest => do
      let (v, rest) ← value toks.length rest
      let s ← s.assign k v
      document fuel s rest
    | _ => none

/-- The table that a text describes, if it is well formed. -/
def parse (text : String) : Option Value := do
  let toks ← tokens text
  let s ← document toks.length ⟨.emptyTable false, [], []⟩ toks
  return s.root

end Stratify.Toml
