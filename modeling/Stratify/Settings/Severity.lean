/-!
# Names of log levels

A log level is written as one of four names, in upper or lower case, with an optional offset that
starts with its sign. Levels are 64-bit integers, so that an offset may wrap around.
-/

namespace Stratify.Severity

/-- Upper case, as far as the names need it. Of all other letters only the dotless i has an upper
case among the ASCII letters of a name. -/
def upper (c : Char) : Char :=
  if c.toNat = 0x131 then 'I' else c.toUpper

def ofName? : String → Option Int
  | "DEBUG" => some (-4)
  | "INFO" => some 0
  | "WARN" => some 4
  | "ERROR" => some 8
  | _ => none

def isSign (c : Char) : Bool :=
  c == '+' || c == '-'

/-- A sign and digits that give a 64-bit integer. No text at all is no offset. -/
def offset? : List Char → Option Int
  | [] => some 0
  | sign :: digits =>
    if !digits.isEmpty && digits.all Char.isDigit then
      let n : Int := digits.foldl (fun n c ↦ 10 * n + ((c.toNat : Int) - 0x30)) 0
      let v := if sign = '-' then -n else n
      if -0x8000000000000000 ≤ v ∧ v < 0x8000000000000000 then some v else none
    else none

def parse? (s : String) : Option Int := do
  let cs := s.toList.map upper
  let offset ← offset? (cs.dropWhile fun c ↦ !isSign c)
  let level ← ofName? (String.ofList (cs.takeWhile fun c ↦ !isSign c))
  return Int.bmod (level + offset) 0x10000000000000000

end Stratify.Severity
