import Stratify.Settings.Basic
import Stratify.Settings.Severity
import Stratify.Settings.Toml.Document

/-!
# Settings from a configuration text

The table `compiler` of a configuration sets what its keys say; other keys and tables are ignored.
A zero, an empty text and an empty list leave a setting alone. A key may also be written in upper
case throughout.
-/

namespace Stratify

/-- The entries of the table, with zero, empty text and empty lists for what is not there. -/
structure Config where
  depth : Int
  calls : Int
  sep : String
  funcs : List String
  dists : List String
  logLevel : String
deriving DecidableEq, Repr

namespace Config

open Toml (Value)

def upperKey (key : String) : String :=
  String.ofList (key.toList.map Char.toUpper)

def lookup? (t : Value) (key : String) : Option Value :=
  (t.get? key).or (t.get? (upperKey key))

/-- A number without a sign bit wraps around. -/
def toInt? : Value → Option Int
  | .int n => some n
  | .large n => some ((n : Int) - 0x10000000000000000)
  | _ => none

/-- A number beyond the signed ones is taken for a character, and none has such a number. -/
def toText? : Value → Option String
  | .string s => some s
  | .large _ => some (String.ofList [Char.ofNat 0xFFFD])
  | _ => none

def toTexts? : Value → Option (List String)
  | .array items => items.mapM toText?
  | _ => none

def entry? {α : Type} (t : Value) (key : String) (missing : α) (read : Value → Option α) :
    Option α :=
  match lookup? t key with
  | none => some missing
  | some v => read v

def ofTable? (t : Value) : Option Config := do
  return {
    depth := ← entry? t "max-inline-depth" 0 toInt?
    calls := ← entry? t "max-inlined-calls" 0 toInt?
    sep := ← entry? t "name-separator" "" toText?
    funcs := ← entry? t "builtins" [] toTexts?
    dists := ← entry? t "distributions" [] toTexts?
    logLevel := ← entry? t "log-level" "" toText? }

/-- The table of the compiler, if there is one. Undefined if the text is malformed or an entry is
of the wrong type. -/
def parse? (text : String) : Option (Option Config) := do
  let root ← Toml.parse text
  match lookup? root "compiler" with
  | none => return none
  | some (.table closed entries) => do
    let c ← ofTable? (.table closed entries)
    return some c
  | some _ => none

def logger (level : String) : Except Failure (List Setting) :=
  if level = "" then .ok []
  else match Severity.parse? level with
    | none => .error (.plain ("invalid log level " ++ Text.quote level))
    | some n => .ok [.logger (.starting n)]

def settings (c : Config) : Except Failure (List Setting) := do
  let log ← logger c.logLevel
  return (if c.depth = 0 then [] else [.depth c.depth]) ++
    (if c.calls = 0 then [] else [.calls c.calls]) ++
    (if c.sep = "" then [] else [.sep c.sep]) ++
    (if c.funcs.isEmpty then [] else [.funcs c.funcs]) ++
    (if c.dists.isEmpty then [] else [.dists c.dists]) ++ log

end Config

namespace Settings

def fileName : String :=
  "slicstan.toml"

/-- The settings that a configuration text makes. They have no problem. -/
def ofConfig (text : String) : Except Failure (List Setting) :=
  match Config.parse? text with
  | none => .error (.plain "cannot parse configuration")
  | some none => .ok []
  | some (some c) => do
    let changes ← c.settings
    match (Settings.ofList changes).problems with
    | [] => return changes
    | ps => .error (complaint "invalid configuration" ps)

/-- Settings from a text, or from what went wrong in reading it. -/
def load : Except String String → Except Failure (List Setting)
  | .error reason => .error (.context "cannot read configuration" (.plain reason))
  | .ok text => ofConfig text

/-- Settings from a file, if it exists. Failures name the file. -/
def loadFile (path : String) : (content : Option String) → Except Failure (List Setting)
  | none => .error (.plain "file does not exist")
  | some text =>
    match ofConfig text with
    | .ok changes => .ok changes
    | .error f => .error (.context path f)

end Settings

end Stratify
