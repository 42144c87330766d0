import Stratify.Level.Code

/-!
# Blocks of the target language

A program of the target language consists of six blocks in a fixed order. The level of a variable,
and whether it is ever assigned, decide the block of its declaration.
-/

namespace Stratify

inductive Block
  | data
  | transformedData
  | parameters
  | transformedParameters
  | model
  | generatedQuantities
deriving DecidableEq, Repr, Inhabited

namespace Block

def text : Block → String
  | data => "data"
  | transformedData => "transformed data"
  | parameters => "parameters"
  | transformedParameters => "transformed parameters"
  | model => "model"
  | generatedQuantities => "generated quantities"

def all : List Block :=
  [data, transformedData, parameters, transformedParameters, model, generatedQuantities]

/-- Blocks are numbered from zero in the order of the target language. -/
def ofNumber? : Int → Option Block
  | .ofNat n => all[n]?
  | .negSucc _ => none

def numberText (n : Int) : String :=
  match ofNumber? n with
  | some b => b.text
  | none => "Block(" ++ toString n ++ ")"

/-- The block that declares a variable. -/
def place (l : Level) (assigned : Bool) : Block :=
  match l, assigned with
  | .data, false => data
  | .data, true => transformedData
  | .model, false => parameters
  | .model, true => transformedParameters
  | .genquant, _ => generatedQuantities

/-- There is no block for a number that is no level. -/
def place? (c : LevelCode) (assigned : Bool) : Option Block :=
  c.level?.map fun l ↦ place l assigned

theorem mem_all (b : Block) : b ∈ all := by
  cases b <;> decide

end Block

end Stratify
