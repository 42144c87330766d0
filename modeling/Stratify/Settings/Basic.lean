import Stratify.Inlining
import Stratify.Log
import Stratify.Target.Primitives
import Stratify.Text.Quoted

/-!
# Settings of the compiler

Settings start from their defaults and are changed one by one, in order. Lists of names grow, all
other settings are replaced. What is wrong with the result is listed problem by problem.
-/

namespace Stratify

structure Settings where
  logger : Logger
  depth : Int
  calls : Int
  sep : String
  funcs : List String
  dists : List String
deriving Repr

inductive Setting
  | logger (l : Logger)
  | depth (n : Int)
  | calls (n : Int)
  | sep (s : String)
  | funcs (names : List String)
  | dists (names : List String)
deriving Repr

inductive Problem
  | noLogger
  | depth (n : Int)
  | calls (n : Int)
  | sep (s : String)
  | generator (name : String)
deriving DecidableEq, Repr

namespace Problem

def message : Problem → String
  | noLogger => "logger cannot be nil"
  | depth n => "maximum inline depth must be positive, got " ++ toString n
  | calls n => "maximum number of inlined calls must be positive, got " ++ toString n
  | sep s => "invalid name separator " ++ Text.quote s
  | generator name =>
    "builtin " ++ name ++ ": random number generators are derived from distributions"

end Problem

namespace Settings

def default : Settings where
  logger := .discarding
  depth := 64
  calls := 100000
  sep := NameSupply.defaultSep
  funcs := []
  dists := []

def apply (s : Settings) : Setting → Settings
  | .logger l => { s with logger := l }
  | .depth n => { s with depth := n }
  | .calls n => { s with calls := n }
  | .sep t => { s with sep := t }
  | .funcs names => { s with funcs := s.funcs ++ names }
  | .dists names => { s with dists := s.dists ++ names }

def ofList (changes : List Setting) : Settings :=
  changes.foldl apply default

/-- Blanks and the marks of the language cannot separate a name from its number. -/
def isSepMark (c : Char) : Bool :=
  " \t\n;~=()[]".toList.contains c

def validSep (sep : String) : Bool :=
  sep != "" && !sep.toList.any isSepMark

def problems (s : Settings) : List Problem :=
  (if s.logger = .absent then [.noLogger] else []) ++
  (if s.depth ≤ 0 then [.depth s.depth] else []) ++
  (if s.calls ≤ 0 then [.calls s.calls] else []) ++
  (if validSep s.sep then [] else [.sep s.sep]) ++
  (s.funcs.filter Primitives.isRng).map .generator

def complaint (context : String) (ps : List Problem) : Failure :=
  .context context (.plain ("; ".intercalate (ps.map Problem.message)))

def primitives (s : Settings) : Primitives :=
  .withExtra s.funcs s.dists

def limits (s : Settings) : Limits :=
  ⟨s.depth, s.calls, s.sep⟩

/-- Level inference as a stage of its own, which records its success. -/
def infer (s : Settings) (p : Program) (seeds : Seeds) : Except Fault Typing := do
  let t ← Typing.infer s.primitives p seeds
  s.logger.demand
  return t

/-- Inlining as a stage of its own, which records its success. -/
def elaborate (s : Settings) (p : Program) : Except Fault Elaborated := do
  let e ← (Elaborated.ofProgram s.limits p).mapError Fault.report
  s.logger.demand
  return e

end Settings

end Stratify
