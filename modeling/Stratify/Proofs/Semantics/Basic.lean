import Stratify.Syntax.Traversal
import Stratify.Target.Layout

/-!
# The meaning of programs

A reference semantics, call by value. Literals, operators and the functions of the target language
may mean anything, as long as they are pure. Arguments are evaluated from left to right; then the
call takes the next number, its parameters are bound in a store of their own, the body runs, and
the result is evaluated. A variable that is declared without a value gets the one given for it,
at top level by its name, in a call by the number of the call and its name. Sample statements
leave a trace of factors.

Calls may only be nested up to a bound. What is nested more deeply has no value, and neither has
an expression that reads a variable without a value.
-/

namespace Stratify

/-- What the words of the target language stand for. -/
structure Meaning (V : Type) where
  lit : LitKind → String → V
  unary : Op → V → V
  binary : Op → V → V → V
  index : V → List V → V
  call : String → List V → V

/-- Values as texts: every operation writes down what it is applied to. -/
def Meaning.written : Meaning String where
  lit _ value := value
  unary _ v := "-" ++ v
  binary _ u v := "(" ++ u ++ " " ++ v ++ ")"
  index v vs := v ++ String.join vs
  call fn vs := fn ++ "(" ++ ", ".intercalate vs ++ ")"

abbrev Store (V : Type) :=
  String → Option V

namespace Store

variable {V : Type}

def empty : Store V :=
  fun _ ↦ none

def set (σ : Store V) (x : String) (v : V) : Store V :=
  fun y ↦ if y = x then some v else σ y

/-- A store that only has the given variables. -/
def ofList : List (String × V) → Store V
  | [] => empty
  | (x, v) :: rest => (ofList rest).set x v

@[simp] theorem set_self (σ : Store V) (x : String) (v : V) : σ.set x v x = some v :=
  if_pos rfl

theorem set_of_ne (σ : Store V) {x y : String} (h : y ≠ x) (v : V) : σ.set x v y = σ y :=
  if_neg h

end Store

/-- What a sample statement contributes. -/
structure Factor (V : Type) where
  dist : String
  target : V
  args : List V
deriving DecidableEq, Repr

/-- The values of the variables that a program does not initialise. -/
structure Givens (V : Type) where
  top : String → V
  inner : (call : Nat) → String → V

/-- Values named after their variables. -/
def Givens.written : Givens String where
  top x := x
  inner k x := x ++ "#" ++ toString k

/-- What a run does beside giving values to variables. -/
structure Effects (V : Type) where
  calls : Nat
  trace : List (Factor V)
deriving DecidableEq, Repr

abbrev CallMeaning (V : Type) :=
  Func → List V → Effects V → Option (V × Effects V)

section Evaluation

variable {V : Type} (M : Meaning V) (p : Program) (call : CallMeaning V)

namespace Expr

mutual

def eval (σ : Store V) : Expr → Effects V → Option (V × Effects V)
  | hole, _ => none
  | lit kind value, w => some (M.lit kind value, w)
  | var x, w => (σ x).map fun v ↦ (v, w)
  | unary op x, w => do
    let (v, w) ← x.eval σ w
    return (M.unary op v, w)
  | binary op x y, w => do
    let (u, w) ← x.eval σ w
    let (v, w) ← y.eval σ w
    return (M.binary op u v, w)
  | index x indices, w => do
    let (v, w) ← x.eval σ w
    let (vs, w) ← evalAll σ indices w
    return (M.index v vs, w)
  | .call fn args, w => do
    let (vs, w) ← evalAll σ args w
    match p.func? fn with
    | none => return (M.call fn vs, w)
    | some f => call f vs w

def evalAll (σ : Store V) : List Expr → Effects V → Option (List V × Effects V)
  | [], w => some ([], w)
  | e :: es, w => do
    let (v, w) ← e.eval σ w
    let (vs, w) ← evalAll σ es w
    return (v :: vs, w)

end

end Expr

namespace Stmt

/-- Runs a statement that is no block. Only a variable with a value can be assigned or sampled. -/
def exec (given : String → V) : Stmt → Store V × Effects V → Option (Store V × Effects V)
  | decl _ x _ none, (σ, w) => some (σ.set x (given x), w)
  | decl _ x _ (some e), (σ, w) => do
    let (v, w) ← e.eval M p call σ w
    return (σ.set x v, w)
  | assign x e, (σ, w) => do
    let (v, w) ← e.eval M p call σ w
    let _ ← σ x
    return (σ.set x v, w)
  | sample x dist args, (σ, w) => do
    let (vs, w) ← Expr.evalAll M p call σ args w
    let v ← σ x
    return (σ, { w with trace := w.trace ++ [⟨dist, v, vs⟩] })
  | hole, _ => none
  | block _, _ => none
  | func .., _ => none

def execAll (given : String → V) : List Stmt → Store V × Effects V → Option (Store V × Effects V)
  | [], c => some c
  | s :: ss, c => do
    let c ← s.exec M p call given c
    execAll given ss c

theorem execAll_append (given : String → V) (ss ts : List Stmt) (c : Store V × Effects V) :
    execAll M p call given (ss ++ ts) c =
      execAll M p call given ss c >>= execAll M p call given ts := by
  induction ss generalizing c with
  | nil => rfl
  | cons s ss ih =>
      simp only [List.cons_append, execAll, ih]
      cases s.exec M p call given c <;> rfl

end Stmt

namespace Func

/-- One call, under which other calls mean `call`. -/
def enter (given : Nat → String → V) : CallMeaning V
  | f, vs, w =>
    if vs.length = f.params.length then do
      let k := w.calls + 1
      let c := (Store.ofList (f.paramNames.zip vs), { w with calls := k })
      let (σ, w) ← Stmt.execAll M p call (given k) (Stmt.flatten f.stmts) c
      let e ← f.result
      e.eval M p call σ w
    else none

end Func

/-- What calls mean when at most `n` of them are nested. -/
def nestedCalls (given : Nat → String → V) : (n : Nat) → CallMeaning V
  | 0 => fun _ _ _ ↦ none
  | n + 1 => Func.enter M p (nestedCalls given n) given

namespace Program

/-- Runs a program in which at most `n` calls are nested. -/
def run (g : Givens V) (n : Nat) : Option (Store V × Effects V) :=
  Stmt.execAll M p (nestedCalls M p g.inner n) g.top (Stmt.flatten p.stmts) (.empty, ⟨0, []⟩)

end Program

end Evaluation

end Stratify
