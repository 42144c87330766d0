import Stratify.Settings.Toml.Character
import Stratify.Settings.Toml.Value

/-!
# Numbers of configurations

A number is read from its text. Underscores may stand between digits. Integers have to fit into 64
bits, and numbers with a fraction or an exponent have to round to a finite double. Small ones may
round to zero.
-/

namespace Stratify.Toml

/-- Every underscore stands after a digit and before something. -/
def underscoresOk (isDigit : Char → Bool) : (before : Bool) → List Char → Bool
  | _, [] => true
  | before, c :: rest =>
    if c = '_' then before && !rest.isEmpty && underscoresOk isDigit (isDigit c) rest
    else underscoresOk isDigit (isDigit c) rest

/-! ### Integers -/

/-- The value of a number with its sign, if it fits into 64 bits. -/
def fitting (sign : Option Char) (n : Nat) : Option Value :=
  if sign = some '-' then
    if n ≤ 0x8000000000000000 then some (.int (-(n : Int))) else none
  else if n < 0x8000000000000000 then some (.int n)
  else if sign = none && decide (n < 0x10000000000000000) then some (.large n)
  else none

def parseInteger (digits : String) : Option Value :=
  let raw := digits.toList
  match raw.filter fun c ↦ c != '_' with
  | '0' :: c :: d :: rest =>
    let base? : Option Nat :=
      if c = 'x' then some 16 else if c = 'o' then some 8 else if c = 'b' then some 2 else none
    let isDigit : Char → Bool := if c = 'x' then isHex else Char.isDigit
    match base? with
    | some base =>
      if underscoresOk isDigit false raw then fitting none (digitsValue base (d :: rest)) else none
    | none => none
  | cleaned =>
    if underscoresOk Char.isDigit false raw then
      match cleaned with
      | '+' :: ds => if ds.isEmpty then none else fitting (some '+') (digitsValue 10 ds)
      | '-' :: ds => if ds.isEmpty then none else fitting (some '-') (digitsValue 10 ds)
      | [] => none
      | ds => if ds.all Char.isDigit then fitting none (digitsValue 10 ds) else none
    else none

/-! ### Numbers with a fraction or an exponent -/

def areDigits (cs : List Char) : Bool :=
  !cs.isEmpty && cs.all Char.isDigit

def dropSign : List Char → List Char
  | '+' :: cs => cs
  | '-' :: cs => cs
  | cs => cs

/-- The parts of a number: digits, an optional fraction and an optional exponent. The fraction
keeps its point, and the exponent its letter and sign. -/
structure FloatText where
  whole : List Char
  fraction : List Char
  exponent : List Char
deriving DecidableEq, Repr

namespace FloatText

def ofChars (cs : List Char) : FloatText :=
  let isExp (c : Char) : Bool := c == 'e' || c == 'E'
  let mantissa := (dropSign cs).takeWhile fun c ↦ !isExp c
  { whole := mantissa.takeWhile fun c ↦ c != '.'
    fraction := mantissa.dropWhile fun c ↦ c != '.'
    exponent := (dropSign cs).dropWhile fun c ↦ !isExp c }

def isValid (t : FloatText) : Bool :=
  areDigits t.whole && (t.fraction.isEmpty || areDigits (t.fraction.drop 1)) &&
    (t.exponent.isEmpty || areDigits (dropSign (t.exponent.drop 1)))

/-- The number that the digits before and after the point make together. -/
def mantissa (t : FloatText) : Nat :=
  digitsValue 10 (t.whole ++ t.fraction.drop 1)

/-- The exponent without its sign. Digits that follow a value of ten thousand or more are
ignored. -/
def magnitude (t : FloatText) : Nat :=
  (dropSign (t.exponent.drop 1)).foldl
    (fun e c ↦ if e < 10000 then 10 * e + digitValue c else e) 0

def isReciprocal (t : FloatText) : Bool :=
  (t.exponent.drop 1).head? == some '-'

/-- The number is `numerator / denominator`. -/
def numerator (t : FloatText) : Nat :=
  if t.isReciprocal then t.mantissa else t.mantissa * Nat.pow 10 t.magnitude

def denominator (t : FloatText) : Nat :=
  let scale := Nat.pow 10 (t.fraction.drop 1).length
  if t.isReciprocal then scale * Nat.pow 10 t.magnitude else scale

end FloatText

/-- The least number that no longer rounds to a finite double: it lies in the middle between the
largest one, `2 ^ 1024 - 2 ^ 971`, and the next power of two. -/
def overflowBound : Nat :=
  Nat.pow 2 1024 - Nat.pow 2 970

def parseFloat (digits : String) : Option Value :=
  let raw := digits.toList
  let t := FloatText.ofChars (raw.filter fun c ↦ c != '_')
  if underscoresOk Char.isDigit false raw && t.isValid &&
      decide (t.numerator < overflowBound * t.denominator) then
    some .float
  else none

end Stratify.Toml
