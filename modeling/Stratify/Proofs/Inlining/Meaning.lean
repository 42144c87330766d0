import Mathlib.Algebra.Module.Submodule.Lattice
import Mathlib.Data.List.Permutation
import Stratify.Proofs.Inlining.Elaboration
import Stratify.Proofs.Semantics.Basic
import Stratify.Proofs.Typing.Principal

/-!
# Inlining preserves meaning

The statements that an expression turns into only write to names that were free before, and the
expression that remains only reads names that are taken. So it keeps its value while further
statements run, until a statement of its own scope changes a variable. That is why calls can be
taken out of the middle of an expression.
-/

namespace Stratify

namespace Inlining

variable {g : CallGraph}

/-- A source program and a program without functions, with the values that each is given. -/
structure Arena (V : Type) where
  meaning : Meaning V
  source : Program
  given : Givens V
  target : Program
  no_funcs : target.funcs = []
  /-- What calls mean in the target, where there are none. -/
  call : CallMeaning V
  val : String → V

namespace Arena

variable {V : Type} (A : Arena V)

def evalSource (n : Nat) (σ : Store V) (e : Expr) (w : Effects V) : Option (V × Effects V) :=
  e.eval A.meaning A.source (nestedCalls A.meaning A.source A.given.inner n) σ w

def evalSourceAll (n : Nat) (σ : Store V) (es : List Expr) (w : Effects V) :
    Option (List V × Effects V) :=
  Expr.evalAll A.meaning A.source (nestedCalls A.meaning A.source A.given.inner n) σ es w

def runSource (n : Nat) (given : String → V) (ss : List Stmt) (c : Store V × Effects V) :
    Option (Store V × Effects V) :=
  Stmt.execAll A.meaning A.source (nestedCalls A.meaning A.source A.given.inner n) given ss c

/-- Runs target code, in which no call is ever entered. -/
def runTarget (ss : List Stmt) (τ : Store V) (trace : List (Factor V)) :
    Option (Store V × Effects V) :=
  Stmt.execAll A.meaning A.target A.call A.val ss (τ, ⟨0, trace⟩)

/-- The variables in scope have the same values on both sides. -/
def Matches (Γ : String → Prop) (r : String → String) (σ τ : Store V) : Prop :=
  ∀ x, Γ x → ∃ v, σ x = some v ∧ τ (r x) = some v

/-- The fresh variables are given what their origins are given. -/
def Honours (s : State) : Prop :=
  ∀ o ∈ s.origins, A.val o.1 = A.given.inner o.2.call o.2.name

/-- Both stores have the same values for all names that are taken. -/
def Same (s : State) (τ τ' : Store V) : Prop :=
  ∀ y ∈ s.names.taken, τ' y = τ y

/-- The expression has the value `v` as long as no taken name changes. -/
def Steady (s : State) (τ : Store V) (e : Expr) (v : V) : Prop :=
  ∀ τ', Same s τ τ' → ∀ w, e.eval A.meaning A.target A.call τ' w = some (v, w)

variable {A} {Γ : String → Prop} {r : String → String} {s s' : State} {σ τ τ' : Store V}

theorem Same.trans {τ'' : Store V} (h : Same s τ τ') (h' : Same s τ' τ'') : Same s τ τ'' :=
  fun y hy ↦ (h' y hy).trans (h y hy)

theorem Same.of_grows (h : Same s' τ τ') (hgrows : s.Grows s') : Same s τ τ' :=
  fun y hy ↦ h y (hgrows.taken y hy)

theorem Steady.later {e : Expr} {v : V} (h : A.Steady s τ e v) (hgrows : s.Grows s')
    (hsame : Same s τ τ') : A.Steady s' τ' e v :=
  fun _ h' ↦ h _ (hsame.trans (h'.of_grows hgrows))

theorem Honours.of_grows (h : A.Honours s') (hgrows : s.Grows s') : A.Honours s :=
  fun o ho ↦ h o (hgrows.origins o ho)

theorem Matches.of_same (h : Matches Γ r σ τ) (hΓ : ∀ x, Γ x → r x ∈ s.names.taken)
    (hsame : Same s τ τ') : Matches Γ r σ τ' := by
  intro x hx
  obtain ⟨v, hσ, hτ⟩ := h x hx
  exact ⟨v, hσ, (hsame _ (hΓ x hx)).trans hτ⟩

theorem target_func? (fn : String) : A.target.func? fn = none := by
  rw [Program.func?, A.no_funcs, Func.named?_nil]

theorem runTarget_append {ss ts : List Stmt} {trace trace' : List (Factor V)}
    (h : A.runTarget ss τ trace = some (τ', ⟨0, trace'⟩)) :
    A.runTarget (ss ++ ts) τ trace = A.runTarget ts τ' trace' := by
  rw [runTarget] at h
  rw [runTarget, Stmt.execAll_append, h]
  rfl

theorem evalAll_of_steady {es : List Expr} {vs : List V}
    (h : List.Forall₂ (A.Steady s τ) es vs) (hsame : Same s τ τ') (w : Effects V) :
    Expr.evalAll A.meaning A.target A.call τ' es w = some (vs, w) := by
  induction h with
  | nil => rfl
  | cons he hes ih =>
      simp only [Expr.evalAll, Option.bind_eq_bind, he τ' hsame w, Option.bind_some, ih,
        Option.pure_def]

/-! ### Expressions -/

/-- Running the statements of an inlined expression, and what the expression is worth then. -/
def ExprSim (A : Arena V) (prims : Primitives) (n : Nat) (r : String → String) (e : Expr)
    (s : State) (pre : List Stmt) (e' : Expr) (s' : State) : Prop :=
  ∀ (Γ : String → Prop) (σ τ : Store V) (w : Effects V),
    e.Scoped (A.source.globals prims) Γ → (∀ x, Γ x → r x ∈ s.names.taken) → Matches Γ r σ τ →
    w.calls = s.calls → A.Honours s' →
    ∃ v w' τ', A.evalSource n σ e w = some (v, w') ∧ w'.calls = s'.calls ∧
      A.runTarget pre τ w.trace = some (τ', ⟨0, w'.trace⟩) ∧ Same s τ τ' ∧ A.Steady s' τ' e' v

def ExprsSim (A : Arena V) (prims : Primitives) (n : Nat) (r : String → String) (es : List Expr)
    (s : State) (pre : List Stmt) (es' : List Expr) (s' : State) : Prop :=
  ∀ (Γ : String → Prop) (σ τ : Store V) (w : Effects V),
    Expr.ScopedAll (A.source.globals prims) Γ es → (∀ x, Γ x → r x ∈ s.names.taken) →
    Matches Γ r σ τ → w.calls = s.calls → A.Honours s' →
    ∃ vs w' τ', A.evalSourceAll n σ es w = some (vs, w') ∧ w'.calls = s'.calls ∧
      A.runTarget pre τ w.trace = some (τ', ⟨0, w'.trace⟩) ∧ Same s τ τ' ∧
      List.Forall₂ (A.Steady s' τ') es' vs

variable {prims : Primitives} {n : Nat}

theorem exprSim_lit {kind : LitKind} {value : String} :
    A.ExprSim prims n r (.lit kind value) s [] (.lit kind value) s := by
  intro Γ σ τ w _ _ _ hw _
  exact ⟨_, w, τ, rfl, hw, rfl, fun _ _ ↦ rfl, fun _ _ _ ↦ rfl⟩

theorem exprSim_var {x : String} : A.ExprSim prims n r (.var x) s [] (.var (r x)) s := by
  intro Γ σ τ w hscoped htaken hmatch hw _
  have hx : Γ x := hscoped.vars x (List.mem_singleton_self x)
  obtain ⟨v, hσ, hτ⟩ := hmatch x hx
  refine ⟨v, w, τ, ?_, hw, rfl, fun _ _ ↦ rfl, fun τ' hsame w ↦ ?_⟩
  · simp [evalSource, Expr.eval, hσ]
  · simp [Expr.eval, hsame _ (htaken x hx), hτ]

theorem exprSim_unary {op : Op} {x x' : Expr} {pre : List Stmt}
    (hx : A.ExprSim prims n r x s pre x' s') :
    A.ExprSim prims n r (.unary op x) s pre (.unary op x') s' := by
  intro Γ σ τ w hscoped htaken hmatch hw hval
  obtain ⟨v, w', τ', heval, hw', hrun, hsame, hsteady⟩ :=
    hx Γ σ τ w (Expr.scoped_unary.mp hscoped) htaken hmatch hw hval
  refine ⟨A.meaning.unary op v, w', τ', ?_, hw', hrun, hsame, fun τ'' h'' w ↦ ?_⟩
  · rw [evalSource] at heval
    simp [evalSource, Expr.eval, heval]
  · simp [Expr.eval, hsteady τ'' h'' w]

/-- The second expression finds the first one's variables as they were, and the first keeps its
value while the second one's statements run. -/
theorem exprSim_binary {op : Op} {x y x' y' : Expr} {preX preY : List Stmt} {s₁ : State}
    (hgrowsX : s.Grows s₁) (hgrowsY : s₁.Grows s') (hx : A.ExprSim prims n r x s preX x' s₁)
    (hy : A.ExprSim prims n r y s₁ preY y' s') :
    A.ExprSim prims n r (.binary op x y) s (preX ++ preY) (.binary op x' y') s' := by
  intro Γ σ τ w hscoped htaken hmatch hw hval
  obtain ⟨hscopedX, hscopedY⟩ := Expr.scoped_binary.mp hscoped
  obtain ⟨u, w₁, τ₁, hevalX, hw₁, hrunX, hsameX, hsteadyX⟩ :=
    hx Γ σ τ w hscopedX htaken hmatch hw (hval.of_grows hgrowsY)
  obtain ⟨v, w', τ', hevalY, hw', hrunY, hsameY, hsteadyY⟩ :=
    hy Γ σ τ₁ w₁ hscopedY (fun x hx ↦ hgrowsX.taken _ (htaken x hx))
      (hmatch.of_same htaken hsameX) hw₁ hval
  rw [evalSource] at hevalX hevalY
  refine ⟨A.meaning.binary op u v, w', τ', ?_, hw', ?_, ?_, fun τ'' h'' w ↦ ?_⟩
  · simp [evalSource, Expr.eval, hevalX, hevalY]
  · rw [runTarget_append hrunX, hrunY]
  · exact hsameX.trans (hsameY.of_grows hgrowsX)
  · simp [Expr.eval, hsteadyX.later hgrowsY hsameY τ'' h'' w, hsteadyY τ'' h'' w]

theorem exprSim_index {x x' : Expr} {is is' : List Expr} {preX preI : List Stmt} {s₁ : State}
    (hgrowsX : s.Grows s₁) (hgrowsI : s₁.Grows s') (hx : A.ExprSim prims n r x s preX x' s₁)
    (hi : A.ExprsSim prims n r is s₁ preI is' s') :
    A.ExprSim prims n r (.index x is) s (preX ++ preI) (.index x' is') s' := by
  intro Γ σ τ w hscoped htaken hmatch hw hval
  obtain ⟨hscopedX, hscopedI⟩ := Expr.scoped_index.mp hscoped
  obtain ⟨u, w₁, τ₁, hevalX, hw₁, hrunX, hsameX, hsteadyX⟩ :=
    hx Γ σ τ w hscopedX htaken hmatch hw (hval.of_grows hgrowsI)
  obtain ⟨vs, w', τ', hevalI, hw', hrunI, hsameI, hsteadyI⟩ :=
    hi Γ σ τ₁ w₁ hscopedI (fun x hx ↦ hgrowsX.taken _ (htaken x hx))
      (hmatch.of_same htaken hsameX) hw₁ hval
  rw [evalSource] at hevalX
  rw [evalSourceAll] at hevalI
  refine ⟨A.meaning.index u vs, w', τ', ?_, hw', ?_, ?_, fun τ'' h'' w ↦ ?_⟩
  · simp [evalSource, Expr.eval, hevalX, hevalI]
  · rw [runTarget_append hrunX, hrunI]
  · exact hsameX.trans (hsameI.of_grows hgrowsX)
  · simp [Expr.eval, hsteadyX.later hgrowsI hsameI τ'' h'' w, evalAll_of_steady hsteadyI h'' w]

theorem exprsSim_nil : A.ExprsSim prims n r [] s [] [] s := by
  intro Γ σ τ w _ _ _ hw _
  exact ⟨[], w, τ, rfl, hw, rfl, fun _ _ ↦ rfl, .nil⟩

theorem exprsSim_cons {e e' : Expr} {es es' : List Expr} {pre more : List Stmt} {s₁ : State}
    (hgrows : s.Grows s₁) (hgrows' : s₁.Grows s') (he : A.ExprSim prims n r e s pre e' s₁)
    (hes : A.ExprsSim prims n r es s₁ more es' s') :
    A.ExprsSim prims n r (e :: es) s (pre ++ more) (e' :: es') s' := by
  intro Γ σ τ w hscoped htaken hmatch hw hval
  obtain ⟨hscopedE, hscopedEs⟩ := Expr.scopedAll_cons.mp hscoped
  obtain ⟨v, w₁, τ₁, heval, hw₁, hrun, hsame, hsteady⟩ :=
    he Γ σ τ w hscopedE htaken hmatch hw (hval.of_grows hgrows')
  obtain ⟨vs, w', τ', hevals, hw', hruns, hsames, hsteadies⟩ :=
    hes Γ σ τ₁ w₁ hscopedEs (fun x hx ↦ hgrows.taken _ (htaken x hx))
      (hmatch.of_same htaken hsame) hw₁ hval
  rw [evalSource] at heval
  rw [evalSourceAll] at hevals
  refine ⟨v :: vs, w', τ', ?_, hw', ?_, hsame.trans (hsames.of_grows hgrows),
    .cons (hsteady.later hgrows' hsames) hsteadies⟩
  · simp [evalSourceAll, Expr.evalAll, heval, hevals]
  · rw [runTarget_append hrun, hruns]

theorem exprSim_prim {fn : String} {args args' : List Expr} {pre : List Stmt}
    (hfn : A.source.func? fn = none) (hargs : A.ExprsSim prims n r args s pre args' s') :
    A.ExprSim prims n r (.call fn args) s pre (.call fn args') s' := by
  intro Γ σ τ w hscoped htaken hmatch hw hval
  obtain ⟨vs, w', τ', heval, hw', hrun, hsame, hsteady⟩ :=
    hargs Γ σ τ w (Expr.scoped_call.mp hscoped).1 htaken hmatch hw hval
  rw [evalSourceAll] at heval
  refine ⟨A.meaning.call fn vs, w', τ', ?_, hw', hrun, hsame, fun τ'' h'' w ↦ ?_⟩
  · simp [evalSource, Expr.eval, heval, hfn]
  · simp [Expr.eval, evalAll_of_steady hsteady h'' w, target_func?]

/-! ### Statements -/

/-- A scope with the variables `all`, which get the values `given` if nothing else. -/
structure ScopeIn (A : Arena V) (r : String → String) (all : List String) (given : String → V)
    (s : State) : Prop extends Renames r all s where
  given : ∀ x ∈ all, A.val (r x) = given x

theorem ScopeIn.of_grows {all : List String} {given : String → V}
    (h : A.ScopeIn r all given s) (hgrows : s.Grows s') : A.ScopeIn r all given s' :=
  ⟨h.toRenames.of_grows hgrows, h.given⟩

/-- Only the variables of the scope change among the taken names. -/
def SameBut (all : List String) (r : String → String) (s : State) (τ τ' : Store V) : Prop :=
  ∀ y ∈ s.names.taken, y ∉ all.map r → τ' y = τ y

def StmtsSim (A : Arena V) (prims : Primitives) (n : Nat) (r : String → String) (ts : List Stmt)
    (s : State) (out : List Stmt) (s' : State) : Prop :=
  ∀ (fn : String) (ps : List String) (before : List Stmt) (all : List String) (given : String → V)
    (σ τ : Store V) (w : Effects V),
    Stmt.ScopedFrom (A.source.globals prims) fn ps before ts →
    (∀ x ∈ ps ++ Stmt.declNames (before ++ ts), x ∈ all) → A.ScopeIn r all given s →
    Matches (· ∈ ps ++ Stmt.declNames before) r σ τ → w.calls = s.calls → A.Honours s' →
    ∃ σ' w' τ', A.runSource n given ts (σ, w) = some (σ', w') ∧ w'.calls = s'.calls ∧
      A.runTarget out τ w.trace = some (τ', ⟨0, w'.trace⟩) ∧
      Matches (· ∈ ps ++ Stmt.declNames (before ++ ts)) r σ' τ' ∧ SameBut all r s τ τ'

theorem Matches.set {L : List String} {all : List String} {given : String → V} {x : String}
    (h : Matches (· ∈ L) r σ τ) (hscope : A.ScopeIn r all given s) (hL : ∀ y ∈ L, y ∈ all)
    (hx : x ∈ all) (v : V) {L' : List String} (hL' : ∀ y ∈ L', y ∈ L ∨ y = x) :
    Matches (· ∈ L') r (σ.set x v) (τ.set (r x) v) := by
  intro y hy
  by_cases hyx : y = x
  · subst hyx
    exact ⟨v, Store.set_self .., Store.set_self ..⟩
  · have hyL : y ∈ L := (hL' y hy).resolve_right hyx
    have hne : r y ≠ r x := fun heq ↦ hyx (hscope.inj y (hL y hyL) x hx heq)
    rw [Store.set_of_ne _ hyx, Store.set_of_ne _ hne]
    exact h y hyL

theorem SameBut.set {all : List String} {x : String} (h : Same s τ τ') (hx : x ∈ all) (v : V) :
    SameBut all r s τ (τ'.set (r x) v) := by
  intro y hy hne
  have hyx : y ≠ r x := fun heq ↦ hne (heq ▸ List.mem_map_of_mem hx)
  rw [Store.set_of_ne _ hyx]
  exact h y hy

theorem mem_declNames_decl {ps : List String} {before : List Stmt} {type x : String} {data : Bool}
    {init : Option Expr} :
    ∀ y ∈ ps ++ Stmt.declNames (before ++ [.decl type x data init]),
      y ∈ ps ++ Stmt.declNames before ∨ y = x := by
  intro y hy
  rw [Stmt.declNames_append, ← List.append_assoc, List.mem_append] at hy
  exact hy.imp_right fun hy ↦ List.mem_singleton.mp hy

theorem declared_mem {ps : List String} {before : List Stmt} {type x : String} {data : Bool}
    {init : Option Expr} : x ∈ ps ++ Stmt.declNames (before ++ [.decl type x data init]) :=
  List.mem_append_right _ (Stmt.mem_declNames_of_mem
    (List.mem_append_right before (List.mem_singleton_self (Stmt.decl type x data init))))

theorem stmtsSim_declare {type x : String} {data : Bool} :
    A.StmtsSim prims n r [.decl type x data none] s [.decl type (r x) data none] s := by
  intro fn ps before all given σ τ w _ hall hscope hmatch hw _
  have hx : x ∈ all := hall x declared_mem
  refine ⟨σ.set x (given x), w, τ.set (r x) (given x), rfl, hw, ?_, ?_, ?_⟩
  · rw [runTarget, ← hscope.given x hx]
    rfl
  · exact hmatch.set hscope (fun y hy ↦ hall y (Stmt.mem_declNames_concat hy)) hx _
      mem_declNames_decl
  · exact SameBut.set (fun _ _ ↦ rfl) hx _

theorem stmtsSim_define {type x : String} {data : Bool} {e e' : Expr} {pre : List Stmt}
    (he : A.ExprSim prims n r e s pre e' s') :
    A.StmtsSim prims n r [.decl type x data (some e)] s
      (pre ++ [.decl type (r x) data (some e')]) s' := by
  intro fn ps before all given σ τ w hscoped hall hscope hmatch hw hval
  have hx : x ∈ all := hall x declared_mem
  have hold (y : String) (hy : y ∈ ps ++ Stmt.declNames before) : y ∈ all :=
    hall y (Stmt.mem_declNames_concat hy)
  have hrange (y : String) (hy : y ∈ ps ++ Stmt.declNames before) := hscope.taken y (hold y hy)
  obtain ⟨v, w', τ', heval, hw', hrun, hsame, hsteady⟩ :=
    he _ σ τ w (hscoped.1.2.2 e rfl) hrange hmatch hw hval
  rw [evalSource] at heval
  refine ⟨σ.set x v, w', τ'.set (r x) v, ?_, hw', ?_, ?_, SameBut.set hsame hx v⟩
  · simp [runSource, Stmt.execAll, Stmt.exec, heval]
  · rw [runTarget_append hrun, runTarget]
    simp [Stmt.execAll, Stmt.exec, hsteady τ' (fun _ _ ↦ rfl)]
  · exact (hmatch.of_same hrange hsame).set hscope hold hx v mem_declNames_decl

theorem stmtsSim_assign {x : String} {e e' : Expr} {pre : List Stmt}
    (he : A.ExprSim prims n r e s pre e' s') :
    A.StmtsSim prims n r [.assign x e] s (pre ++ [.assign (r x) e']) s' := by
  intro fn ps before all given σ τ w hscoped hall hscope hmatch hw hval
  have hold (y : String) (hy : y ∈ ps ++ Stmt.declNames before) : y ∈ all :=
    hall y (Stmt.mem_declNames_concat hy)
  have hrange (y : String) (hy : y ∈ ps ++ Stmt.declNames before) := hscope.taken y (hold y hy)
  have hx : x ∈ ps ++ Stmt.declNames before := hscoped.1.2.1
  obtain ⟨v, w', τ', heval, hw', hrun, hsame, hsteady⟩ :=
    he _ σ τ w hscoped.1.2.2.2 hrange hmatch hw hval
  have hmatch' := hmatch.of_same hrange hsame
  obtain ⟨u, hσ, hτ⟩ := hmatch' x hx
  rw [evalSource] at heval
  refine ⟨σ.set x v, w', τ'.set (r x) v, ?_, hw', ?_, ?_, SameBut.set hsame (hold x hx) v⟩
  · simp [runSource, Stmt.execAll, Stmt.exec, heval, hσ]
  · rw [runTarget_append hrun, runTarget]
    simp [Stmt.execAll, Stmt.exec, hsteady τ' (fun _ _ ↦ rfl), hτ]
  · refine hmatch'.set hscope hold (hold x hx) v fun y hy ↦ Or.inl ?_
    simpa [Stmt.declNames_append, Stmt.declNames, Stmt.declName?] using hy

theorem stmtsSim_sample {x dist : String} {args args' : List Expr} {pre : List Stmt}
    (hargs : A.ExprsSim prims n r args s pre args' s') :
    A.StmtsSim prims n r [.sample x dist args] s (pre ++ [.sample (r x) dist args']) s' := by
  intro fn ps before all given σ τ w hscoped hall hscope hmatch hw hval
  have hrange (y : String) (hy : y ∈ ps ++ Stmt.declNames before) :=
    hscope.taken y (hall y (Stmt.mem_declNames_concat hy))
  have hx : x ∈ ps ++ Stmt.declNames before := hscoped.1.2.1
  obtain ⟨vs, w', τ', heval, hw', hrun, hsame, hsteady⟩ :=
    hargs _ σ τ w (Expr.scopedAll_iff.mpr hscoped.1.2.2.2) hrange hmatch hw hval
  have hmatch' := hmatch.of_same hrange hsame
  obtain ⟨u, hσ, hτ⟩ := hmatch' x hx
  rw [evalSourceAll] at heval
  refine ⟨σ, { w' with trace := w'.trace ++ [⟨dist, u, vs⟩] }, τ', ?_, hw', ?_, ?_,
    fun y hy _ ↦ hsame y hy⟩
  · simp [runSource, Stmt.execAll, Stmt.exec, heval, hσ]
  · rw [runTarget_append hrun, runTarget]
    simp [Stmt.execAll, Stmt.exec, evalAll_of_steady hsteady (fun _ _ ↦ rfl), hτ]
  · intro y hy
    exact hmatch' y (by simpa [Stmt.declNames_append, Stmt.declNames, Stmt.declName?] using hy)

theorem stmtsSim_nil : A.StmtsSim prims n r [] s [] s := by
  intro fn ps before all given σ τ w _ _ _ hmatch hw _
  exact ⟨σ, w, τ, rfl, hw, rfl, by simpa using hmatch, fun _ _ _ ↦ rfl⟩

theorem stmtsSim_cons {t : Stmt} {ts out more : List Stmt} {s₁ : State} (hgrows : s.Grows s₁)
    (hgrows' : s₁.Grows s') (ht : A.StmtsSim prims n r [t] s out s₁)
    (hts : A.StmtsSim prims n r ts s₁ more s') :
    A.StmtsSim prims n r (t :: ts) s (out ++ more) s' := by
  intro fn ps before all given σ τ w hscoped hall hscope hmatch hw hval
  rw [List.append_cons] at hall ⊢
  have hfirst (x : String) (hx : x ∈ ps ++ Stmt.declNames (before ++ [t])) : x ∈ all := by
    refine hall x ?_
    rw [Stmt.declNames_append, ← List.append_assoc]
    exact List.mem_append_left _ hx
  obtain ⟨σ₁, w₁, τ₁, hrunS, hw₁, hrunT, hmatch₁, hsame₁⟩ :=
    ht fn ps before all given σ τ w ⟨hscoped.1, trivial⟩ hfirst hscope hmatch hw
      (hval.of_grows hgrows')
  obtain ⟨σ', w', τ', hrunS', hw', hrunT', hmatch', hsame'⟩ :=
    hts fn ps (before ++ [t]) all given σ₁ τ₁ w₁ hscoped.2 hall (hscope.of_grows hgrows) hmatch₁
      hw₁ hval
  refine ⟨σ', w', τ', ?_, hw', ?_, hmatch', fun y hy hne ↦ ?_⟩
  · rw [runSource] at hrunS hrunS' ⊢
    rw [← List.singleton_append, Stmt.execAll_append, hrunS]
    exact hrunS'
  · rw [runTarget_append hrunT, hrunT']
  · rw [hsame' y (hgrows.taken y hy) hne, hsame₁ y hy hne]

/-! ### Calls -/

/-- The parameters of a copy get the values of the arguments, one after the other. Their names are
free, so that no argument can see it. -/
theorem run_inits {ps : List Param} {values : List Expr} {vs : List V}
    (hsteady : List.Forall₂ (A.Steady s τ) values vs) (hlen : values.length = ps.length)
    (hnodup : (ps.map Param.name).Nodup) (hfresh : ∀ x ∈ ps.map Param.name, r x ∉ s.names.taken)
    (hinj : ∀ x ∈ ps.map Param.name, ∀ y ∈ ps.map Param.name, r x = r y → x = y)
    (trace : List (Factor V)) :
    ∃ τ', A.runTarget ((ps.zip values).map fun pv ↦
        .decl pv.1.type (r pv.1.name) false (some pv.2)) τ trace = some (τ', ⟨0, trace⟩) ∧
      (∀ y ∉ (ps.map Param.name).map r, τ' y = τ y) ∧
      Matches (· ∈ ps.map Param.name) r (.ofList ((ps.map Param.name).zip vs)) τ' := by
  induction ps generalizing values vs τ with
  | nil =>
      have hvalues : values = [] := List.length_eq_zero_iff.mp hlen
      subst hvalues
      exact ⟨τ, rfl, fun _ _ ↦ rfl, by simp [Matches]⟩
  | cons q ps ih =>
      cases hsteady with
      | nil => cases hlen
      | @cons e v values vs he hes =>
        rw [List.map_cons] at hnodup hfresh hinj ⊢
        rw [List.forall_mem_cons] at hfresh
        have hsame : Same s τ (τ.set (r q.name) v) := by
          intro y hy
          have hne : y ≠ r q.name := fun heq ↦ hfresh.1 (heq ▸ hy)
          exact Store.set_of_ne _ hne v
        -- The rest of the parameters cannot overwrite the first one.
        have hapart : r q.name ∉ (ps.map Param.name).map r := by
          intro hmem
          obtain ⟨x, hx, heq⟩ := List.mem_map.mp hmem
          have hxq : x = q.name :=
            hinj x (List.mem_cons_of_mem _ hx) q.name (List.mem_cons_self ..) heq
          exact (List.nodup_cons.mp hnodup).1 (hxq ▸ hx)
        obtain ⟨τ', hrun, hkept, hmatch⟩ :=
          ih (hes.imp fun _ _ h ↦ h.later (.refl s) hsame) (Nat.succ.inj hlen)
            (List.nodup_cons.mp hnodup).2 hfresh.2
            (fun x hx y hy ↦ hinj x (List.mem_cons_of_mem _ hx) y (List.mem_cons_of_mem _ hy))
        refine ⟨τ', ?_, fun y hy ↦ ?_, fun x hx ↦ ?_⟩
        · rw [runTarget] at hrun ⊢
          simp only [List.zip_cons_cons, List.map_cons, Stmt.execAll, Stmt.exec,
            Option.bind_eq_bind, he τ (fun _ _ ↦ rfl), Option.bind_some, Option.pure_def, hrun]
        · rw [List.map_cons, List.mem_cons, not_or] at hy
          rw [hkept y hy.2, Store.set_of_ne _ hy.1]
        · by_cases hxq : x = q.name
          · subst hxq
            refine ⟨v, Store.set_self .., ?_⟩
            rw [hkept _ hapart, Store.set_self]
          · obtain ⟨u, hσ, hτ⟩ := hmatch x ((List.mem_cons.mp hx).resolve_left hxq)
            refine ⟨u, ?_, hτ⟩
            rw [List.zip_cons_cons, Store.ofList, Store.set_of_ne _ hxq, hσ]

theorem Honours.scopeIn {fn : String} {all : List String} {s₁ s₂ : State}
    (henters : Enters fn all r s₁ s₂) (hval : A.Honours s₂) :
    A.ScopeIn r all (A.given.inner (s₁.calls + 1)) s₂ where
  taken x hx := (henters.taken _).mpr (Or.inl (List.mem_map_of_mem hx))
  inj := henters.inj
  given x hx := by
    have hmem : (r x, (⟨fn, x, s₁.calls + 1⟩ : Origin)) ∈ s₂.origins := by
      rw [henters.origins]
      exact List.mem_append_right _ (List.mem_map.mpr ⟨x, hx, rfl⟩)
    exact hval _ hmem

/-- One call: the arguments, the parameters of the copy, its body and its result. The copy writes
to none of the names that were taken before. -/
theorem exprSim_user {f : Func} {fn : String} {r' : String → String} {args values : List Expr}
    {e result : Expr} {pre body post : List Stmt} {s₁ s₂ s₃ : State}
    (hfn : A.source.func? fn = some f) (hlen : args.length = f.params.length)
    (hresult : f.result = some e) (hnodup : f.paramNames.Nodup)
    (hscopedBody : Stmt.ScopedFrom (A.source.globals prims) f.name f.paramNames []
      (Stmt.flatten f.stmts))
    (hscopedResult : e.Scoped (A.source.globals prims) (· ∈ f.scope))
    (hgrowsArgs : s.Grows s₁) (henters : Enters f.name f.scope r' s₁ s₂) (hgrowsBody : s₂.Grows s₃)
    (hgrowsPost : s₃.Grows s') (hlenValues : values.length = args.length)
    (hargs : A.ExprsSim prims (n + 1) r args s pre values s₁)
    (hbody : A.StmtsSim prims n r' (Stmt.flatten f.stmts) s₂ body s₃)
    (hpost : A.ExprSim prims n r' e s₃ post result s') :
    A.ExprSim prims (n + 1) r (.call fn args) s (pre ++ (inits f r' values ++ body ++ post)) result
      s' := by
  intro Γ σ τ w hscoped htaken hmatch hw hval
  have hval₃ : A.Honours s₃ := hval.of_grows hgrowsPost
  have hval₂ : A.Honours s₂ := hval₃.of_grows hgrowsBody
  obtain ⟨vs, w₁, τ₁, hevalArgs, hw₁, hrunArgs, hsame₁, hsteady⟩ :=
    hargs Γ σ τ w (Expr.scoped_call.mp hscoped).1 htaken hmatch hw (hval₂.of_grows henters.grows)
  have hparam (x : String) (hx : x ∈ f.paramNames) : x ∈ f.scope := List.mem_append_left _ hx
  obtain ⟨τ₂, hrunInits, hkept, hmatch₂⟩ := run_inits hsteady (hlenValues.trans hlen) hnodup
    (fun x hx ↦ henters.fresh x (hparam x hx))
    (fun x hx y hy ↦ henters.inj x (hparam x hx) y (hparam y hy)) w₁.trace
  obtain ⟨σ₃, w₃, τ₃, hrunSource, hw₃, hrunBody, hmatch₃, hsame₃⟩ :=
    hbody f.name f.paramNames [] f.scope _ (.ofList (f.paramNames.zip vs)) τ₂
      ⟨w₁.calls + 1, w₁.trace⟩ hscopedBody (fun _ hx ↦ hx) (hval₂.scopeIn henters)
      (fun x hx ↦ hmatch₂ x (by rwa [Stmt.declNames, List.filterMap_nil, List.append_nil] at hx))
      (by rw [henters.calls, hw₁]) hval₃
  have hscope₃ := (hval₂.scopeIn henters).of_grows hgrowsBody
  obtain ⟨v, w', τ', hevalResult, hw', hrunPost, hsame', hsteady'⟩ :=
    hpost (· ∈ f.scope) σ₃ τ₃ w₃ hscopedResult hscope₃.taken hmatch₃ hw₃ hval
  refine ⟨v, w', τ', ?_, hw', ?_, ?_, hsteady'⟩
  · have hvs : vs.length = f.params.length := by rw [← hsteady.length_eq, hlenValues, hlen]
    rw [evalSourceAll] at hevalArgs
    rw [runSource, ← hw₁] at hrunSource
    rw [evalSource] at hevalResult
    simp only [evalSource, Expr.eval, hevalArgs, hfn, Option.bind_eq_bind, Option.bind_some]
    simp [nestedCalls, Func.enter, hvs, hrunSource, hresult, hevalResult]
  · rw [runTarget_append hrunArgs, List.append_assoc, inits, runTarget_append hrunInits,
      runTarget_append hrunBody, hrunPost]
  · have hfree (y : String) (hy : y ∈ s.names.taken) : y ∉ f.scope.map r' := by
      intro hmem
      obtain ⟨x, hx, rfl⟩ := List.mem_map.mp hmem
      exact henters.fresh x hx (hgrowsArgs.taken _ hy)
    intro y hy
    have hy₂ : y ∈ s₂.names.taken := henters.grows.taken y (hgrowsArgs.taken y hy)
    have hyParams : y ∉ f.paramNames.map r' := fun hmem ↦ hfree y hy (by
      rw [List.map_append]
      exact List.mem_append_left _ hmem)
    calc
      τ' y = τ₃ y := hsame' y (hgrowsBody.taken y hy₂)
      _ = τ₂ y := hsame₃ y hy₂ (hfree y hy)
      _ = τ₁ y := hkept y hyParams
      _ = τ y := hsame₁ y hy

end Arena

/-! ### Whole expressions and statements -/

section Simulation

variable {V : Type} {A : Arena V} {prims : Primitives}

mutual

theorem Inlines.exprSim (hg : Sound prims A.source g) :
    ∀ {room n : Nat} {r : String → String} {e e' : Expr} {pre : List Stmt} {s s' : State},
      Inlines g room r e s pre e' s' → room ≤ n → A.ExprSim prims n r e s pre e' s'
  | _, _, _, _, _, _, _, _, .lit, _ => Arena.exprSim_lit
  | _, _, _, _, _, _, _, _, .var, _ => Arena.exprSim_var
  | _, _, _, _, _, _, _, _, .unary hx, hn => Arena.exprSim_unary (hx.exprSim hg hn)
  | _, _, _, _, _, _, _, _, .binary hx hy, hn =>
      Arena.exprSim_binary hx.grows hy.grows (hx.exprSim hg hn) (hy.exprSim hg hn)
  | _, _, _, _, _, _, _, _, .index hx hi, hn =>
      Arena.exprSim_index hx.grows hi.grows (hx.exprSim hg hn) (hi.exprsSim hg hn)
  | _, _, _, _, _, _, _, _, .prim hfn hargs, hn =>
      Arena.exprSim_prim ((hg.func? _).trans hfn) (hargs.exprsSim hg hn)
  | _, 0, _, _, _, _, _, _, .user _ _ _ _ _ _ _, hn => (Nat.not_succ_le_zero _ hn).elim
  | _, _ + 1, _, _, _, _, _, _, .user hfn hlen hresult hargs henters hbody hpost, hn =>
      have hn' := Nat.le_of_succ_le_succ hn
      Arena.exprSim_user ((hg.func? _).trans hfn) hlen hresult (hg.params _ _ hfn)
        (hg.bodies _ _ hfn) (hg.results _ _ hfn _ hresult) hargs.grows henters hbody.grows
        hpost.grows hargs.length_eq (hargs.exprsSim hg hn) (hbody.stmtsSim hg hn')
        (hpost.exprSim hg hn')

theorem InlinesAll.exprsSim (hg : Sound prims A.source g) :
    ∀ {room n : Nat} {r : String → String} {es es' : List Expr} {pre : List Stmt} {s s' : State},
      InlinesAll g room r es s pre es' s' → room ≤ n → A.ExprsSim prims n r es s pre es' s'
  | _, _, _, _, _, _, _, _, .nil, _ => Arena.exprsSim_nil
  | _, _, _, _, _, _, _, _, .cons he hes, hn =>
      Arena.exprsSim_cons he.grows hes.grows (he.exprSim hg hn) (hes.exprsSim hg hn)

theorem InlinesStmt.stmtsSim (hg : Sound prims A.source g) :
    ∀ {room n : Nat} {r : String → String} {t : Stmt} {out : List Stmt} {s s' : State},
      InlinesStmt g room r t s out s' → room ≤ n → A.StmtsSim prims n r [t] s out s'
  | _, _, _, _, _, _, _, .declare, _ => Arena.stmtsSim_declare
  | _, _, _, _, _, _, _, .define he, hn => Arena.stmtsSim_define (he.exprSim hg hn)
  | _, _, _, _, _, _, _, .assign he, hn => Arena.stmtsSim_assign (he.exprSim hg hn)
  | _, _, _, _, _, _, _, .sample hargs, hn => Arena.stmtsSim_sample (hargs.exprsSim hg hn)

theorem InlinesStmts.stmtsSim (hg : Sound prims A.source g) :
    ∀ {room n : Nat} {r : String → String} {ts out : List Stmt} {s s' : State},
      InlinesStmts g room r ts s out s' → room ≤ n → A.StmtsSim prims n r ts s out s'
  | _, _, _, _, _, _, _, .nil, _ => Arena.stmtsSim_nil
  | _, _, _, _, _, _, _, .cons ht hts, hn =>
      Arena.stmtsSim_cons ht.grows hts.grows (ht.stmtsSim hg hn) (hts.stmtsSim hg hn)

end

end Simulation

end Inlining

/-! ### Whole programs -/

namespace Elaborated

variable {V : Type} {prims : Primitives} {p : Program} {l : Limits} {e : Elaborated}

/-- What the variables of an elaborated program are given: the fresh ones what their origins are
given, the others what they are given in the source. -/
def givens (e : Elaborated) (given : Givens V) : Givens V where
  top x :=
    match e.origins.find? fun o ↦ decide (o.1 = x) with
    | some (_, o) => given.inner o.call o.name
    | none => given.top x
  inner := given.inner

theorem givens_origin (hnodup : (e.origins.map Prod.fst).Nodup) (given : Givens V)
    {o : String × Origin} (ho : o ∈ e.origins) :
    (e.givens given).top o.1 = given.inner o.2.call o.2.name := by
  simp only [givens, Inlining.find?_origin hnodup ho]

theorem givens_other (given : Givens V) {x : String} (hx : ∀ o ∈ e.origins, o.1 ≠ x) :
    (e.givens given).top x = given.top x := by
  simp only [givens, Inlining.find?_not_origin hx]

def arena (M : Meaning V) (p : Program) (e : Elaborated) (given : Givens V) :
    Inlining.Arena V where
  meaning := M
  source := p
  given := given
  target := e.program
  no_funcs := rfl
  call := nestedCalls M e.program given.inner 0
  val := (e.givens given).top

/-- Elaboration preserves meaning. However many calls may be nested beyond the limit, the source
gives its variables the values that the elaborated program gives them, and leaves the same trace. -/
theorem run_elaborated (hcomplete : p.complete = true) (hnames : p.NamedByWords) {t : Typing}
    (hinfer : Typing.infer prims p [] = .ok t) (he : ofProgram l p = .ok e) (M : Meaning V)
    (given : Givens V) :
    ∃ τ trace, e.program.run M (e.givens given) 0 = some (τ, ⟨0, trace⟩) ∧
      ∀ n, l.depth.toNat ≤ n → ∃ σ calls, p.run M given n = some (σ, ⟨calls, trace⟩) ∧
        ∀ x ∈ Stmt.declNames (Stmt.flatten p.stmts), ∃ v, σ x = some v ∧ τ x = some v := by
  have hscoped : p.WellScoped prims :=
    Typing.wellScoped_of_infer_eq_ok hcomplete hnames.keysVisible hinfer
  obtain ⟨s, hout, horigins⟩ := inlined_of_eq_ok hscoped hcomplete he
  have helaborates : Inlining.Elaborates prims p e.stmts e.origins :=
    horigins ▸ Inlining.elaborates hscoped hout
  have hsim (n : Nat) (hn : l.depth.toNat ≤ n) :
      ∃ σ w τ, p.run M given n = some (σ, w) ∧
        e.program.run M (e.givens given) 0 = some (τ, ⟨0, w.trace⟩) ∧
        ∀ x ∈ Stmt.declNames (Stmt.flatten p.stmts), ∃ v, σ x = some v ∧ τ x = some v := by
    have hscope : (arena M p e given).ScopeIn id (Stmt.declNames (Stmt.flatten p.stmts)) given.top
        (Inlining.start l.sep p) :=
      ⟨Inlining.renames_start l.sep p, fun x hx ↦ givens_other given (helaborates.not_origin x hx)⟩
    have hval : (arena M p e given).Honours s :=
      fun o ho ↦ givens_origin helaborates.origins_nodup given (horigins ▸ ho)
    have hstmts : (arena M p e given).StmtsSim prims n id (Stmt.flatten p.stmts)
        (Inlining.start l.sep p) e.stmts s := hout.stmtsSim hscoped.sound hn
    obtain ⟨σ, w, τ, hsource, -, htarget, hmatch, -⟩ := hstmts "" [] [] _ given.top .empty .empty
      ⟨0, []⟩ (Stmt.scopedIn_iff.mp hscoped.stmts).2 (fun _ hx ↦ hx) hscope (fun _ hx ↦ by cases hx)
      rfl hval
    refine ⟨σ, w, τ, hsource, ?_, hmatch⟩
    change Stmt.execAll _ _ _ _ (Stmt.flatten e.stmts) _ = _
    rw [helaborates.flat]
    exact htarget
  obtain ⟨-, w, τ, -, htarget, -⟩ := hsim _ (Nat.le_refl _)
  refine ⟨τ, w.trace, htarget, fun n hn ↦ ?_⟩
  obtain ⟨σ, w', τ', hsource, htarget', hmatch⟩ := hsim n hn
  have heq := Option.some.inj (htarget.symm.trans htarget')
  simp only [Prod.mk.injEq, Effects.mk.injEq, true_and] at heq
  obtain ⟨rfl, htrace⟩ := heq
  refine ⟨σ, w'.calls, ?_, hmatch⟩
  rw [hsource, htrace]

theorem exists_ofProgram_shrinkage :
    ∃ t e, Typing.infer (.withExtra [] []) Program.shrinkage [] = .ok t ∧
      ofProgram ⟨64, 100000, "_"⟩ Program.shrinkage = .ok e := by
  have hinfer : (Typing.infer (.withExtra [] []) Program.shrinkage []).toBool = true := by
    decide +kernel
  have hok : (ofProgram ⟨64, 100000, "_"⟩ Program.shrinkage).toBool = true := by cbv
  cases ht : Typing.infer (.withExtra [] []) Program.shrinkage [] with
  | error d =>
      rw [ht] at hinfer
      cases hinfer
  | ok t =>
      cases he : ofProgram ⟨64, 100000, "_"⟩ Program.shrinkage with
      | error d =>
          rw [he] at hok
          cases hok
      | ok e => exact ⟨t, e, rfl, rfl⟩

theorem run_elaborated_shrinkage :
    ∃ e τ trace, ofProgram ⟨64, 100000, "_"⟩ Program.shrinkage = .ok e ∧
      e.program.run .written (e.givens .written) 0 = some (τ, ⟨0, trace⟩) ∧
      ∀ n, 64 ≤ n → ∃ σ calls,
        Program.shrinkage.run .written .written n = some (σ, ⟨calls, trace⟩) ∧
        ∀ x ∈ Stmt.declNames (Stmt.flatten Program.shrinkage.stmts),
          ∃ v, σ x = some v ∧ τ x = some v := by
  obtain ⟨t, e, ht, he⟩ := exists_ofProgram_shrinkage
  obtain ⟨τ, trace, htarget, hsource⟩ :=
    run_elaborated (by decide) (by decide) ht he .written .written
  exact ⟨e, τ, trace, he, htarget, hsource⟩

end Elaborated

end Stratify
