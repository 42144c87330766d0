/-!
# Characters of configuration texts

The classes of characters that configurations are written with, all of them in ASCII, and the
values of digits.
-/

namespace Stratify.Toml

def isBlank (c : Char) : Bool :=
  c == ' ' || c == '\t'

def isBlankOrFeed (c : Char) : Bool :=
  isBlank c || c == '\r' || c == '\n'

/-- The characters of keys without quotes. -/
def isBare (c : Char) : Bool :=
  c.isAlphanum || c == '_' || c == '-'

def isHex (c : Char) : Bool :=
  c.isDigit || (decide ('a' ≤ c) && decide (c ≤ 'f')) || (decide ('A' ≤ c) && decide (c ≤ 'F'))

def isOctal (c : Char) : Bool :=
  decide ('0' ≤ c) && decide (c ≤ '7')

def isBinary (c : Char) : Bool :=
  c == '0' || c == '1'

def digitValue (c : Char) : Nat :=
  if c.isDigit then c.toNat - 0x30
  else if decide ('a' ≤ c) then c.toNat - 0x57
  else c.toNat - 0x37

def digitsValue (base : Nat) (cs : List Char) : Nat :=
  cs.foldl (fun n c ↦ base * n + digitValue c) 0

/-- A character by its code point, or the replacement character where there is none. -/
def scalar (n : Nat) : Char :=
  if n.isValidChar then Char.ofNat n else Char.ofNat 0xFFFD

end Stratify.Toml
