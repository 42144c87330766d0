import Stratify.Settings.Toml.Calendar
import Stratify.Settings.Toml.Character

/-!
# Tokens of configuration texts

A configuration is a text in TOML. Keys and values are read in two modes: a line starts with a key
or a table header, and an equals sign leads to values. A line feed ends the values of a key,
except inside of brackets.
-/

namespace Stratify.Toml

inductive Token
  | key (text : String)
  /-- What stands between the brackets of a table header. -/
  | header (text : String)
  /-- What stands between the double brackets of an array of tables. -/
  | arrayHeader (text : String)
  | equal
  | comma
  | openBracket
  | closeBracket
  | openDouble
  | closeDouble
  | openBrace
  | closeBrace
  | string (value : String)
  | bool (value : Bool)
  | integer (digits : String)
  | float (digits : String)
  /-- An infinity, or no number at all. -/
  | special
  | date (d : Date)
  | time (t : TimeOfDay)
  /-- How far the time before is from universal time. -/
  | offset (o : Offset)
deriving DecidableEq, Repr

/-! ### Strings -/

def letterEscape? : Char → Option Char
  | '"' => some '"'
  | '\\' => some '\\'
  | '/' => some '/'
  | 'b' => some (Char.ofNat 0x08)
  | 'f' => some (Char.ofNat 0x0C)
  | 'n' => some '\n'
  | 'r' => some '\r'
  | 't' => some '\t'
  | _ => none

/-- What follows the quotes that end a string, if they stand here. -/
def afterQuotes? (quote : Char) (triple : Bool) : List Char → Option (List Char)
  | a :: rest =>
    if a = quote then
      if triple then
        match rest with
        | b :: c :: rest => if b = quote ∧ c = quote then some rest else none
        | _ => none
      else some rest
    else none
  | [] => none

/-- Control characters have to be escaped, except for tabs and, in some strings, line feeds. -/
def isForbidden (feeds : Bool) (c : Char) : Bool :=
  decide (c.toNat < 0x20) && c != '\t' && !(feeds && (c == '\n' || c == '\r'))

/-- Reads a string with escapes up to its closing quotes. A backslash before blanks or line feeds
swallows all of them. -/
def basicString (triple feeds : Bool) :
    (swallow : Bool) → List Char → Option (List Char × List Char)
  | _, [] => none
  | swallow, c :: rest =>
    if swallow && isBlankOrFeed c then basicString triple feeds true rest
    else match afterQuotes? '"' triple (c :: rest) with
      | some after => some ([], after)
      | none =>
        if c = '\\' then
          match rest with
          | 'u' :: a :: b :: c :: d :: rest => do
            guard ([a, b, c, d].all isHex)
            let (value, after) ← basicString triple feeds false rest
            return (scalar (digitsValue 16 [a, b, c, d]) :: value, after)
          | 'U' :: a :: b :: c :: d :: e :: f :: g :: h :: rest => do
            guard ([a, b, c, d, e, f, g, h].all isHex)
            let (value, after) ← basicString triple feeds false rest
            return (scalar (digitsValue 16 [a, b, c, d, e, f, g, h]) :: value, after)
          | e :: rest =>
            if isBlankOrFeed e then basicString triple feeds true rest
            else do
              let x ← letterEscape? e
              let (value, after) ← basicString triple feeds false rest
              return (x :: value, after)
          | [] => none
        else if isForbidden feeds c then none
        else do
          let (value, after) ← basicString triple feeds false rest
          return (c :: value, after)

/-- Reads a string without escapes up to its closing quotes. -/
def literalString (triple : Bool) : List Char → Option (List Char × List Char)
  | [] => none
  | c :: rest =>
    match afterQuotes? '\'' triple (c :: rest) with
    | some after => some ([], after)
    | none => do
      let (value, after) ← literalString triple rest
      return (c :: value, after)

/-- Strings in triple quotes may start on the next line. -/
def dropFeed : List Char → List Char
  | '\r' :: '\n' :: rest => rest
  | '\n' :: rest => rest
  | cs => cs

/-- A string value, given what follows its first quote. -/
def stringValue (quote : Char) (cs : List Char) : Option (Token × List Char) := do
  let (value, after) ←
    match cs with
    | a :: b :: rest =>
      if a = quote ∧ b = quote then
        let rest := dropFeed rest
        if quote = '"' then basicString true true false rest else literalString true rest
      else if quote = '"' then basicString false false false cs
      else literalString false cs
    | _ => if quote = '"' then basicString false false false cs else literalString false cs
  return (.string (String.ofList value), after)

/-! ### Keys -/

/-- Reads a key up to an equals sign or a blank that no dot follows. Quoted parts keep their
quotes. -/
def keyText : (fuel : Nat) → List Char → Option (List Char × List Char)
  | 0, _ => none
  | _ + 1, [] => some ([], [])
  | fuel + 1, c :: rest =>
    if c = '=' then some ([], c :: rest)
    else if c = '"' then do
      let (part, after) ← basicString false true false rest
      let (more, after) ← keyText fuel after
      return ('"' :: part ++ '"' :: more, after)
    else if c = '\'' then do
      let (part, after) ← literalString false rest
      let (more, after) ← keyText fuel after
      return ('\'' :: part ++ '\'' :: more, after)
    else if isBlank c then
      match rest.dropWhile isBlank with
      | '.' :: after => do
        let (more, after') ← keyText fuel (after.dropWhile isBlank)
        return (' ' :: rest.takeWhile isBlank ++ '.' :: after.takeWhile isBlank ++ more, after')
      | after => some ([], after)
    else if c = '.' || isBare c then do
      let (more, after) ← keyText fuel rest
      return (c :: more, after)
    else none

/-! ### Numbers -/

/-- Digits in a base other than ten, after the two characters that announce it. -/
def basedNumber (letter : Char) (cs : List Char) : Option (Token × List Char) :=
  let isDigit (c : Char) : Bool :=
    c == '_' || (if letter = 'x' then isHex c else if letter = 'o' then isOctal c else isBinary c)
  let digits := cs.takeWhile isDigit
  if digits.isEmpty then none
  else some (.integer (String.ofList ('0' :: letter :: digits)), cs.dropWhile isDigit)

/-- What has been seen of a decimal number. -/
structure Seen where
  point : Bool
  exponent : Bool
  digit : Bool

/-- The longest start of a text that looks like a decimal number. -/
def decimalText : Seen → List Char → Option (List Char × Seen × List Char)
  | seen, [] => some ([], seen, [])
  | seen, c :: rest =>
    if c = '.' then
      if seen.point || !seen.digit then none
      else match rest with
        | d :: rest =>
          if d.isDigit then do
            let (more, seen, after) ← decimalText { seen with point := true } rest
            return (c :: d :: more, seen, after)
          else none
        | [] => none
    else if c = 'e' || c = 'E' then
      match rest with
      | s :: rest' =>
        if s = '+' || s = '-' then do
          let (more, seen, after) ← decimalText { seen with exponent := true } rest'
          return (c :: s :: more, seen, after)
        else do
          let (more, seen, after) ← decimalText { seen with exponent := true } (s :: rest')
          return (c :: more, seen, after)
      | [] => some ([c], { seen with exponent := true }, [])
    else if c.isDigit || c = '_' then do
      let seen := { seen with digit := seen.digit || c.isDigit }
      let (more, seen, after) ← decimalText seen rest
      return (c :: more, seen, after)
    else some ([], seen, c :: rest)

def decimalNumber (sign cs : List Char) : Option (Token × List Char) := do
  let (text, seen, after) ← decimalText ⟨false, false, false⟩ cs
  guard seen.digit
  let digits := String.ofList (sign ++ text)
  return (if seen.point || seen.exponent then .float digits else .integer digits, after)

def number : List Char → Option (Token × List Char)
  | '+' :: rest => signed '+' rest
  | '-' :: rest => signed '-' rest
  | '0' :: c :: rest =>
    if c = 'x' || c = 'o' || c = 'b' then basedNumber c rest
    else if c.isAlpha then none
    else decimalNumber [] ('0' :: c :: rest)
  | cs => decimalNumber [] cs
where
  signed (sign : Char) : List Char → Option (Token × List Char)
    | 'i' :: 'n' :: 'f' :: rest => some (.special, rest)
    | 'n' :: 'a' :: 'n' :: rest => some (.special, rest)
    | rest => decimalNumber [sign] rest

/-! ### Dates and times -/

/-- A time of day after a date, with its offset. -/
def timeTokens (d : Date) (cs : List Char) : Option (List Token × List Char) := do
  let (t, cs) ← timeOfDay cs
  let (o, cs) ← offset? cs
  return (.date d :: .time t :: (o.map Token.offset).toList, cs)

/-- A date and perhaps a time of day. What follows a date is the end of the text, a blank or the
letter before a time. A blank may stand before a time as well, but two digits tell that there is
one. -/
def dateTokens (cs : List Char) : Option (List Token × List Char) := do
  let (d, cs) ← date cs
  match cs with
  | [] => return ([.date d], [])
  | 'T' :: cs => timeTokens d cs
  | ' ' :: cs =>
    if (twoDigits cs).isSome then timeTokens d cs else return ([.date d], ' ' :: cs)
  | _ => none

/-! ### Tokens -/

def dropComment : List Char → List Char
  | [] => []
  | '\n' :: rest => '\n' :: rest
  | '\r' :: '\n' :: rest => '\r' :: '\n' :: rest
  | _ :: rest => dropComment rest

inductive Bracket
  | square
  | curly
deriving DecidableEq, Repr

inductive Mode
  | keys
  | values
deriving DecidableEq, Repr

/-- The raw text of a header up to its closing bracket. -/
def headerText (cs : List Char) : Option (List Char × List Char) :=
  let inside := cs.takeWhile fun c ↦ c != ']' && c != '['
  match cs.dropWhile fun c ↦ c != ']' && c != '[' with
  | ']' :: rest => some (inside, rest)
  | _ => none

/-- An empty header has no text at all. -/
def headerTokens (tok : String → Token) (inside : List Char) : List Token :=
  if inside.isEmpty then [] else [tok (String.ofList inside)]

/-- One step in key mode: the tokens found, the mode that follows, the open brackets and the
rest. -/
def keyStep (bs : List Bracket) :
    List Char → Option (List Token × Mode × List Bracket × List Char)
  | [] => some ([], .keys, bs, [])
  | '}' :: rest =>
    match bs with
    | .curly :: bs => some ([.closeBrace], .values, bs, rest)
    | _ => none
  | '[' :: '[' :: rest => do
    let (inside, rest) ← headerText rest
    match rest with
    | ']' :: rest =>
      return (.openDouble :: headerTokens .arrayHeader inside ++ [.closeDouble], .keys, bs, rest)
    | _ => none
  | '[' :: rest => do
    let (inside, rest) ← headerText rest
    return (.openBracket :: headerTokens .header inside ++ [.closeBracket], .keys, bs, rest)
  | '#' :: rest => some ([], .keys, bs, dropComment rest)
  | '=' :: rest => some ([.equal], .values, bs, rest)
  | c :: rest =>
    if isBlankOrFeed c then some ([], .keys, bs, rest)
    else do
      let (text, after) ← keyText (rest.length + 2) (c :: rest)
      return ([.key (String.ofList text)], .keys, bs, after)

def valueStep (bs : List Bracket) :
    List Char → Option (List Token × Mode × List Bracket × List Char)
  | [] => some ([], .values, bs, [])
  | '=' :: rest => some ([.equal], .values, bs, rest)
  | '[' :: rest => some ([.openBracket], .values, .square :: bs, rest)
  | ']' :: rest =>
    match bs with
    | .square :: bs => some ([.closeBracket], .values, bs, rest)
    | _ => none
  | '{' :: rest => some ([.openBrace], .keys, .curly :: bs, rest)
  | '}' :: rest =>
    match bs with
    | .curly :: bs => some ([.closeBrace], .values, bs, rest)
    | _ => none
  | '#' :: rest => some ([], .values, bs, dropComment rest)
  | ',' :: rest =>
    some ([.comma], if bs.head? = some .curly then .keys else .values, bs, rest)
  | 't' :: 'r' :: 'u' :: 'e' :: rest => some ([.bool true], .values, bs, rest)
  | 'f' :: 'a' :: 'l' :: 's' :: 'e' :: rest => some ([.bool false], .values, bs, rest)
  | 'i' :: 'n' :: 'f' :: rest => some ([.special], .values, bs, rest)
  | 'n' :: 'a' :: 'n' :: rest => some ([.special], .values, bs, rest)
  | c :: rest =>
    if c = '"' || c = '\'' then do
      let (tok, after) ← stringValue c rest
      return ([tok], .values, bs, after)
    else if c = '\r' || c = '\n' then
      some ([], if bs.head? = some .square then .values else .keys, bs, rest)
    else if isBlank c then some ([], .values, bs, rest)
    else if startsTime (c :: rest) then do
      let (t, after) ← timeOfDay (c :: rest)
      return ([.time t], .values, bs, after)
    else if startsDate (c :: rest) then do
      let (toks, after) ← dateTokens (c :: rest)
      return (toks, .values, bs, after)
    else if c = '+' || c = '-' || c.isDigit then do
      let (tok, after) ← number (c :: rest)
      return ([tok], .values, bs, after)
    else none

/-- All the tokens of a text. Every step consumes a character, so the length of the text is fuel
enough. -/
def tokensFrom : (fuel : Nat) → Mode → List Bracket → List Char → Option (List Token)
  | 0, _, _, _ => some []
  | fuel + 1, mode, bs, cs =>
    match cs with
    | [] => some []
    | _ => do
      let (toks, mode, bs, rest) ←
        match mode with
        | .keys => keyStep bs cs
        | .values => valueStep bs cs
      let more ← tokensFrom fuel mode bs rest
      return toks ++ more

/-- A mark of byte order may stand in front. -/
def dropMark : List Char → List Char
  | c :: rest => if c.toNat = 0xFEFF then rest else c :: rest
  | [] => []

def tokens (s : String) : Option (List Token) :=
  let cs := dropMark s.toList
  tokensFrom cs.length .keys [] cs

end Stratify.Toml
