import Stratify.Proofs.Semantics.Basic
import Stratify.Proofs.Typing.Flow

/-!
# What statements read and write

Without user functions, evaluation is pure: the value of an expression depends on nothing but the
variables that it reads. So a statement makes one change, which is either a new value of the
variable it writes or one more factor, and which depends on nothing but the variables it uses.
Two statements of which neither writes what the other uses or writes can change places, unless both
leave a factor.
-/

namespace Stratify

variable {V : Type}

namespace Expr

mutual

/-- The value of an expression in which no call is to a user function. -/
def value (M : Meaning V) (σ : Store V) : Expr → Option V
  | hole => none
  | lit kind value => some (M.lit kind value)
  | var x => σ x
  | unary op x => (x.value M σ).map (M.unary op)
  | binary op x y => do
    let u ← x.value M σ
    let v ← y.value M σ
    return M.binary op u v
  | index x indices => do
    let v ← x.value M σ
    let vs ← values M σ indices
    return M.index v vs
  | call fn args => (values M σ args).map (M.call fn)

def values (M : Meaning V) (σ : Store V) : List Expr → Option (List V)
  | [] => some []
  | e :: es => do
    let v ← e.value M σ
    let vs ← values M σ es
    return v :: vs

end

variable {M : Meaning V} {p : Program} {call : CallMeaning V} {σ σ' : Store V}

mutual

theorem eval_eq_value (hfuncs : p.funcs = []) :
    ∀ (e : Expr) (w : Effects V), e.eval M p call σ w = (e.value M σ).map fun v ↦ (v, w)
  | hole, w => rfl
  | lit .., w => rfl
  | var x, w => rfl
  | unary op x, w => by
      rw [eval, value, eval_eq_value hfuncs x]
      cases x.value M σ <;> rfl
  | binary op x y, w => by
      simp only [eval, value, eval_eq_value hfuncs x]
      cases x.value M σ with
      | none => rfl
      | some u =>
          simp only [Option.map_some, Option.bind_eq_bind, Option.bind_some,
            eval_eq_value hfuncs y]
          cases y.value M σ <;> rfl
  | index x indices, w => by
      simp only [eval, value, eval_eq_value hfuncs x]
      cases x.value M σ with
      | none => rfl
      | some u =>
          simp only [Option.map_some, Option.bind_eq_bind, Option.bind_some,
            evalAll_eq_values hfuncs indices]
          cases values M σ indices <;> rfl
  | .call fn args, w => by
      simp only [eval, value, evalAll_eq_values hfuncs args, Program.func?, hfuncs,
        Func.named?_nil]
      cases values M σ args <;> rfl

theorem evalAll_eq_values (hfuncs : p.funcs = []) :
    ∀ (es : List Expr) (w : Effects V),
      evalAll M p call σ es w = (values M σ es).map fun vs ↦ (vs, w)
  | [], w => rfl
  | e :: es, w => by
      simp only [evalAll, values, eval_eq_value hfuncs e]
      cases e.value M σ with
      | none => rfl
      | some v =>
          simp only [Option.map_some, Option.bind_eq_bind, Option.bind_some,
            evalAll_eq_values hfuncs es]
          cases values M σ es <;> rfl

end

mutual

theorem value_congr :
    ∀ {e : Expr}, (∀ x ∈ e.reads Deps.noUser, σ' x = σ x) → e.value M σ' = e.value M σ
  | hole, _ => rfl
  | lit .., _ => rfl
  | var x, h => h x (List.mem_singleton_self x)
  | unary op x, h => by rw [value, value, value_congr (e := x) h]
  | binary op x y, h => by
      simp only [reads, List.mem_append] at h
      rw [value, value, value_congr fun z hz ↦ h z (Or.inl hz),
        value_congr fun z hz ↦ h z (Or.inr hz)]
  | index x indices, h => by
      simp only [reads, List.mem_append] at h
      rw [value, value, value_congr fun z hz ↦ h z (Or.inl hz),
        values_congr fun z hz ↦ h z (Or.inr hz)]
  | .call fn args, h => by
      have hargs : values M σ' args = values M σ args := values_congr h
      rw [value, value, hargs]

theorem values_congr :
    ∀ {es : List Expr}, (∀ x ∈ readsAll Deps.noUser es, σ' x = σ x) →
      values M σ' es = values M σ es
  | [], _ => rfl
  | e :: es, h => by
      simp only [readsAll, List.mem_append] at h
      rw [values, values, value_congr fun z hz ↦ h z (Or.inl hz),
        values_congr fun z hz ↦ h z (Or.inr hz)]

end

mutual

/-- A complete expression has a value once all the variables in it have one. -/
theorem exists_value :
    ∀ {e : Expr}, e.complete = true → (∀ x ∈ e.reads Deps.noUser, ∃ v, σ x = some v) →
      ∃ v, e.value M σ = some v
  | hole, he, _ => by cases he
  | lit .., _, _ => ⟨_, rfl⟩
  | var x, _, h => h x (List.mem_singleton_self x)
  | unary op x, he, h => by
      obtain ⟨v, hv⟩ := exists_value (e := x) he h
      exact ⟨_, by rw [value, hv]; rfl⟩
  | binary op x y, he, h => by
      simp only [complete, Bool.and_eq_true] at he
      simp only [reads, List.mem_append] at h
      obtain ⟨u, hu⟩ := exists_value he.1 fun z hz ↦ h z (Or.inl hz)
      obtain ⟨v, hv⟩ := exists_value he.2 fun z hz ↦ h z (Or.inr hz)
      exact ⟨_, by rw [value, hu, hv]; rfl⟩
  | index x indices, he, h => by
      simp only [complete, Bool.and_eq_true] at he
      simp only [reads, List.mem_append] at h
      obtain ⟨u, hu⟩ := exists_value he.1 fun z hz ↦ h z (Or.inl hz)
      obtain ⟨vs, hvs⟩ := exists_values he.2 fun z hz ↦ h z (Or.inr hz)
      exact ⟨_, by rw [value, hu, hvs]; rfl⟩
  | .call fn args, he, h => by
      obtain ⟨vs, hvs⟩ : ∃ vs, values M σ args = some vs :=
        exists_values (by simpa [complete] using he) h
      exact ⟨_, by rw [value, hvs]; rfl⟩

theorem exists_values :
    ∀ {es : List Expr}, completeAll es = true →
      (∀ x ∈ readsAll Deps.noUser es, ∃ v, σ x = some v) → ∃ vs, values M σ es = some vs
  | [], _, _ => ⟨_, rfl⟩
  | e :: es, he, h => by
      simp only [completeAll, Bool.and_eq_true] at he
      simp only [readsAll, List.mem_append] at h
      obtain ⟨v, hv⟩ := exists_value he.1 fun z hz ↦ h z (Or.inl hz)
      obtain ⟨vs, hvs⟩ := exists_values he.2 fun z hz ↦ h z (Or.inr hz)
      exact ⟨_, by rw [values, hv, hvs]; rfl⟩

end

end Expr

namespace Stmt

/-- The variables whose values enter into what a statement does. -/
def reads : Stmt → List String
  | decl _ _ _ init => Expr.readsAll Deps.noUser init.toList
  | assign _ e => e.reads Deps.noUser
  | sample x _ args => x :: Expr.readsAll Deps.noUser args
  | _ => []

/-- The variables that a statement needs: also an assigned variable must have a value before. -/
def uses : Stmt → List String
  | assign x e => x :: e.reads Deps.noUser
  | s => s.reads

def target? : Stmt → Option String
  | decl _ x _ _ => some x
  | assign x _ => some x
  | _ => none

def isSample : Stmt → Bool
  | sample .. => true
  | _ => false

/-- Neither statement notices whether the other one has run. -/
structure Independent (s t : Stmt) : Prop where
  left : ∀ x ∈ s.target?, x ∉ t.uses
  right : ∀ x ∈ t.target?, x ∉ s.uses
  targets : ∀ x ∈ s.target?, x ∉ t.target?
  samples : s.isSample = true → t.isSample = false

end Stmt

/-- What a statement does to the values of variables and to the trace. -/
inductive Change (V : Type)
  | set (x : String) (v : V)
  | emit (factor : Factor V)

namespace Change

def apply : Change V → Store V × Effects V → Store V × Effects V
  | set x v, (σ, w) => (σ.set x v, w)
  | emit factor, (σ, w) => (σ, { w with trace := w.trace ++ [factor] })

def Of (s : Stmt) : Change V → Prop
  | set x _ => s.target? = some x
  | emit _ => s.isSample = true

theorem Of.frame {s : Stmt} {ch : Change V} (h : ch.Of s) {c : Store V × Effects V} {x : String}
    (hx : x ∉ s.target?) : (ch.apply c).1 x = c.1 x := by
  cases ch with
  | set y v =>
      have hne : x ≠ y := by
        rintro rfl
        exact hx h
      exact Store.set_of_ne c.1 hne v
  | emit factor => rfl

theorem apply_comm {s t : Stmt} {ch ch' : Change V} (hs : ch.Of s) (ht : ch'.Of t)
    (h : s.Independent t) (c : Store V × Effects V) :
    ch'.apply (ch.apply c) = ch.apply (ch'.apply c) := by
  obtain ⟨σ, w⟩ := c
  cases ch with
  | set x v =>
      cases ch' with
      | set y u =>
          have hxy : x ≠ y := by
            rintro rfl
            exact h.targets x hs ht
          simp only [apply, Prod.mk.injEq, and_true]
          funext z
          unfold Store.set
          by_cases hzx : z = x
          · simp [hzx, hxy]
          · simp [hzx]
      | emit factor => rfl
  | emit factor =>
      cases ch' with
      | set y u => rfl
      | emit factor' => cases (h.samples hs).symm.trans ht

end Change

namespace Stmt

variable {M : Meaning V} {p : Program} {call : CallMeaning V} {given : String → V}
  {σ σ' : Store V}

/-- The change that a statement makes when variables have the values `σ`. -/
def change (M : Meaning V) (given : String → V) (σ : Store V) : Stmt → Option (Change V)
  | decl _ x _ none => some (.set x (given x))
  | decl _ x _ (some e) => (e.value M σ).map (.set x)
  | assign x e => do
    let v ← e.value M σ
    let _ ← σ x
    return .set x v
  | sample x dist args => do
    let vs ← Expr.values M σ args
    let v ← σ x
    return .emit ⟨dist, v, vs⟩
  | _ => none

theorem exec_eq_change (hfuncs : p.funcs = []) (s : Stmt) (c : Store V × Effects V) :
    s.exec M p call given c = (s.change M given c.1).map fun ch ↦ ch.apply c := by
  obtain ⟨σ, w⟩ := c
  cases s with
  | decl type x data init =>
      cases init with
      | none => rfl
      | some e =>
          simp only [exec, change, Expr.eval_eq_value hfuncs]
          cases e.value M σ <;> rfl
  | assign x e =>
      simp only [exec, change, Expr.eval_eq_value hfuncs]
      cases e.value M σ with
      | none => rfl
      | some v => cases σ x <;> simp [Change.apply]
  | sample x dist args =>
      simp only [exec, change, Expr.evalAll_eq_values hfuncs]
      cases Expr.values M σ args with
      | none => rfl
      | some vs => cases σ x <;> simp [Change.apply]
  | _ => rfl

theorem change_of {s : Stmt} {ch : Change V} (h : s.change M given σ = some ch) : ch.Of s := by
  cases s with
  | decl type x data init =>
      cases init with
      | none =>
          cases h
          rfl
      | some e =>
          obtain ⟨v, -, rfl⟩ := Option.map_eq_some_iff.mp h
          rfl
  | assign x e =>
      simp only [change, Option.bind_eq_bind, Option.bind_eq_some_iff, Option.pure_def,
        Option.some.injEq] at h
      obtain ⟨v, -, u, -, rfl⟩ := h
      rfl
  | sample x dist args =>
      simp only [change, Option.bind_eq_bind, Option.bind_eq_some_iff, Option.pure_def,
        Option.some.injEq] at h
      obtain ⟨vs, -, v, -, rfl⟩ := h
      rfl
  | _ => cases h

theorem change_congr {s : Stmt} (h : ∀ x ∈ s.uses, σ' x = σ x) :
    s.change M given σ' = s.change M given σ := by
  cases s with
  | decl type x data init =>
      cases init with
      | none => rfl
      | some e =>
          have he : e.value M σ' = e.value M σ :=
            Expr.value_congr fun y hy ↦ h y (by simpa [uses, reads, Expr.readsAll] using hy)
          rw [change, change, he]
  | assign x e =>
      have he : e.value M σ' = e.value M σ :=
        Expr.value_congr fun y hy ↦ h y (List.mem_cons_of_mem _ hy)
      rw [change, change, he, h x (List.mem_cons_self ..)]
  | sample x dist args =>
      have hargs : Expr.values M σ' args = Expr.values M σ args :=
        Expr.values_congr fun y hy ↦ h y (List.mem_cons_of_mem _ hy)
      rw [change, change, hargs, h x (List.mem_cons_self ..)]
  | _ => rfl

/-- A statement that can run when some variables are declared, and declares a new one at most. -/
structure Runnable (declared : List String) (s : Stmt) : Prop where
  acts : s.target?.isSome = true ∨ s.isSample = true
  complete : s.complete = true
  uses : ∀ x ∈ s.uses, x ∈ declared
  fresh : ∀ x ∈ s.declName?, x ∉ declared

def RunnableFrom : (declared : List String) → List Stmt → Prop
  | _, [] => True
  | declared, s :: ss => s.Runnable declared ∧ RunnableFrom (declared ++ declNames [s]) ss

variable {declared : List String}

theorem Runnable.exists_change {s : Stmt} (h : s.Runnable declared) (M : Meaning V)
    (given : String → V) (hσ : ∀ x ∈ declared, ∃ v, σ x = some v) :
    ∃ ch, s.change M given σ = some ch := by
  obtain ⟨hacts, hcomplete, huses, -⟩ := h
  cases s with
  | decl type x data init =>
      cases init with
      | none => exact ⟨_, rfl⟩
      | some e =>
          obtain ⟨v, hv⟩ : ∃ v, e.value M σ = some v := by
            refine Expr.exists_value hcomplete fun y hy ↦ hσ y (huses y ?_)
            simpa [Stmt.uses, reads, Expr.readsAll] using hy
          exact ⟨.set x v, by rw [change, hv]; rfl⟩
  | assign x e =>
      obtain ⟨v, hv⟩ : ∃ v, e.value M σ = some v :=
        Expr.exists_value hcomplete fun y hy ↦ hσ y (huses y (List.mem_cons_of_mem _ hy))
      obtain ⟨u, hu⟩ := hσ x (huses x (List.mem_cons_self ..))
      exact ⟨.set x v, by rw [change, hv, hu]; rfl⟩
  | sample x dist args =>
      obtain ⟨vs, hvs⟩ : ∃ vs, Expr.values M σ args = some vs :=
        Expr.exists_values hcomplete fun y hy ↦ hσ y (huses y (List.mem_cons_of_mem _ hy))
      obtain ⟨v, hv⟩ := hσ x (huses x (List.mem_cons_self ..))
      exact ⟨.emit ⟨dist, v, vs⟩, by rw [change, hvs, hv]; rfl⟩
  | _ => simp [target?, isSample] at hacts

/-- A change leaves no variable without a value, and the declared one gets its first. -/
theorem defined_of_change {s : Stmt} {ch : Change V} (h : s.change M given σ = some ch)
    (hσ : ∀ x ∈ declared, ∃ v, σ x = some v) (w : Effects V) :
    ∀ x ∈ declared ++ declNames [s], ∃ v, (ch.apply (σ, w)).1 x = some v := by
  intro x hx
  have hof := change_of h
  by_cases htarget : s.target? = some x
  · cases ch with
    | set y v =>
        obtain rfl : y = x := Option.some.inj (hof.symm.trans htarget)
        exact ⟨v, Store.set_self ..⟩
    | emit factor =>
        cases s with
        | sample y dist args => cases htarget
        | _ => cases hof
  · rw [hof.frame htarget]
    rcases List.mem_append.mp hx with hx | hx
    · exact hσ x hx
    · cases s with
      | decl type y data init =>
          obtain rfl : x = y := List.mem_singleton.mp hx
          exact absurd rfl htarget
      | _ => cases hx

theorem RunnableFrom.notMem {ss : List Stmt} (h : RunnableFrom declared ss) {t : Stmt}
    (ht : t ∈ ss) {x : String} (hx : x ∈ t.declName?) : x ∉ declared := by
  induction ss generalizing declared with
  | nil => cases ht
  | cons s ss ih =>
      rcases List.mem_cons.mp ht with rfl | ht
      · exact h.1.fresh x hx
      · exact fun hmem ↦ ih h.2 ht (List.mem_append_left _ hmem)

end Stmt

end Stratify
