import Stratify.Proofs.Typing.Tracking

/-!
# Where random number generators may be called

If inference accepts a program without functions, a statement that calls a random number generator,
however deep in its expressions, gives a value to a generated quantity. So sample statements call
none. Every step of the generation keeps the constraints that are there, and a call to a generator
adds one that no other can take back, so it does not matter if the keys of two variables clash.
-/

namespace Stratify

namespace Call

/-- One of some calls is to a random number generator. -/
def anyRng (cs : List Call) : Bool :=
  cs.any fun c ↦ Primitives.isRng c.fn

@[simp] theorem anyRng_append (cs ds : List Call) :
    anyRng (cs ++ ds) = (anyRng cs || anyRng ds) :=
  List.any_append

@[simp] theorem anyRng_singleton (fn : String) (args : List Expr) :
    anyRng [⟨fn, args⟩] = Primitives.isRng fn :=
  Bool.or_false _

end Call

namespace Stmt

/-- If a statement calls a generator, it writes a variable of the highest level. -/
def Confines (ρ : String → Level) (s : Stmt) : Prop :=
  Call.anyRng s.calls = true → ∃ x, s.target? = some x ∧ ρ x = .genquant

end Stmt

namespace Draft

/-- Levels that satisfy a later draft satisfy an earlier one, and meet a condition. -/
def Forces (d d' : Draft) (C : (String → Level) → Prop) : Prop :=
  ∀ ρ, d'.system.SatisfiedBy ρ → d.system.SatisfiedBy ρ ∧ C ρ

variable {g : Globals} {fn : String} {d d' d₁ d₂ d₃ : Draft} {C C' : (String → Level) → Prop}

theorem Forces.refl (hC : ∀ ρ, C ρ) : d.Forces d C :=
  fun ρ hρ ↦ ⟨hρ, hC ρ⟩

theorem Forces.of_constraints_eq (h : d'.system.constraints = d.system.constraints)
    (hC : ∀ ρ, C ρ) : d.Forces d' C := by
  intro ρ hρ
  unfold LevelSystem.SatisfiedBy at hρ
  rw [h] at hρ
  exact ⟨hρ, hC ρ⟩

theorem Forces.trans (h₁ : d₁.Forces d₂ C) (h₂ : d₂.Forces d₃ C') :
    d₁.Forces d₃ fun ρ ↦ C ρ ∧ C' ρ := by
  intro ρ hρ
  obtain ⟨hρ₂, hC'⟩ := h₂ ρ hρ
  obtain ⟨hρ₁, hC⟩ := h₁ ρ hρ₂
  exact ⟨hρ₁, hC, hC'⟩

theorem Forces.imp (h : d.Forces d' C) (hC : ∀ ρ, C ρ → C' ρ) : d.Forces d' C' :=
  fun ρ hρ ↦ ⟨(h ρ hρ).1, hC ρ (h ρ hρ).2⟩

theorem forces_flow {lo hi : String} {rule : Rule} : d.Forces (d.flow lo hi rule)
    fun ρ ↦ (Term.named lo : Term Level).level ρ ≤ (Term.named hi : Term Level).level ρ :=
  fun _ hρ ↦ LevelSystem.satisfiedBy_add.mp hρ

theorem forces_atLeast {key : String} {l : Level} {rule : Rule} :
    d.Forces (d.atLeast key l rule) fun ρ ↦ l ≤ (Term.named key : Term Level).level ρ :=
  fun _ hρ ↦ LevelSystem.satisfiedBy_add.mp hρ

theorem forces_atMost {key : String} {l : Level} {rule : Rule} :
    d.Forces (d.atMost key l rule) fun ρ ↦ (Term.named key : Term Level).level ρ ≤ l :=
  fun _ hρ ↦ LevelSystem.satisfiedBy_add.mp hρ

/-! ### Expressions -/

mutual

theorem forces_of_reads_eq_ok (hfuncs : g.funcs = []) {whole : Expr} {key : String}
    (hkey : key ≠ "") {rule : Rule} :
    ∀ {e : Expr} {d d' : Draft}, reads g fn whole key rule e d = .ok d' →
      d.Forces d' fun ρ ↦ Call.anyRng e.calls = true → ρ key = .genquant
  | .hole, d, d', h => by
      cases h
      exact .refl fun ρ hrng ↦ (by cases hrng)
  | .lit .., d, d', h => by
      cases h
      exact .refl fun ρ hrng ↦ (by cases hrng)
  | .var name, d, d', h => by
      simp only [reads] at h
      split at h
      · cases h
      · cases h
        exact forces_flow.imp fun ρ _ hrng ↦ (by cases hrng)
  | .unary _ x, d, d', h => forces_of_reads_eq_ok hfuncs hkey (e := x) h
  | .binary _ x y, d, d', h => by
      obtain ⟨d₁, hx, hy⟩ := Fault.bind_eq_ok_iff.mp h
      refine ((forces_of_reads_eq_ok hfuncs hkey hx).trans
        (forces_of_reads_eq_ok hfuncs hkey hy)).imp fun ρ hρ hrng ↦ ?_
      rw [Expr.calls, Call.anyRng_append, Bool.or_eq_true] at hrng
      exact hrng.elim hρ.1 hρ.2
  | .index x indices, d, d', h => by
      obtain ⟨d₁, hx, hi⟩ := Fault.bind_eq_ok_iff.mp h
      refine ((forces_of_reads_eq_ok hfuncs hkey hx).trans
        (forces_of_readsAll_eq_ok hfuncs hkey hi)).imp fun ρ hρ hrng ↦ ?_
      rw [Expr.calls, Call.anyRng_append, Bool.or_eq_true] at hrng
      exact hrng.elim hρ.1 hρ.2
  | .call callee args, d, d', h => by
      simp only [reads, Globals.func?, hfuncs, Func.named?_nil] at h
      split at h
      · have hcallee : d.Forces (if Primitives.isRng callee then d.atLeast key .genquant .rng else d)
            fun ρ ↦ Primitives.isRng callee = true → ρ key = .genquant := by
          split
          · refine forces_atLeast.imp fun ρ hρ _ ↦ ?_
            rw [named_of_ne hkey] at hρ
            exact top_le_iff.mp hρ
          · next hnot => exact .refl fun ρ hrng ↦ absurd hrng hnot
        refine (hcallee.trans (forces_of_readsAll_eq_ok hfuncs hkey h)).imp fun ρ hρ hrng ↦ ?_
        rw [Expr.calls, Call.anyRng_append, Call.anyRng_singleton, Bool.or_eq_true] at hrng
        exact hrng.elim hρ.2 hρ.1
      · cases h

theorem forces_of_readsAll_eq_ok (hfuncs : g.funcs = []) {whole : Expr} {key : String}
    (hkey : key ≠ "") {rule : Rule} :
    ∀ {es : List Expr} {d d' : Draft}, readsAll g fn whole key rule es d = .ok d' →
      d.Forces d' fun ρ ↦ Call.anyRng (Expr.callsAll es) = true → ρ key = .genquant
  | [], d, d', h => by
      cases h
      exact .refl fun ρ hrng ↦ (by cases hrng)
  | e :: es, d, d', h => by
      obtain ⟨d₁, he, hes⟩ := Fault.bind_eq_ok_iff.mp h
      refine ((forces_of_reads_eq_ok hfuncs hkey he).trans
        (forces_of_readsAll_eq_ok hfuncs hkey hes)).imp fun ρ hρ hrng ↦ ?_
      rw [Expr.callsAll, Call.anyRng_append, Bool.or_eq_true] at hrng
      exact hrng.elim hρ.1 hρ.2

end

theorem forces_of_expr_eq_ok (hfuncs : g.funcs = []) {e : Expr} {rule : Rule} {key : String}
    (h : expr g fn e rule d = .ok (key, d')) :
    d.Forces d' fun ρ ↦ Call.anyRng e.calls = true →
      (Term.named key : Term Level).level ρ = .genquant := by
  obtain ⟨d₁, hadd, h⟩ := Fault.bind_eq_ok_iff.mp h
  obtain ⟨d₂, hreads, h⟩ := Fault.bind_eq_ok_iff.mp h
  cases h
  have hkey : d.nextKey ≠ "" := exprKey_ne_empty _
  rw [named_of_ne hkey]
  unfold addExpr at hadd
  split at hadd
  · cases hadd
  · cases hadd
    refine fun ρ hρ ↦ ?_
    obtain ⟨hρ₁, hrng⟩ := forces_of_reads_eq_ok hfuncs hkey hreads ρ hρ
    exact ⟨by simpa [LevelSystem.SatisfiedBy, LevelSystem.addExprVar, LevelSystem.setSource]
      using hρ₁, hrng⟩

/-- What has the highest level flows into no variable of a lower one. -/
theorem forces_flow_rng {key : String} {rng : Prop} {x : String} {rule : Rule}
    (h : d.Forces d' fun ρ ↦ rng → (Term.named key : Term Level).level ρ = .genquant) :
    d.Forces (d'.flow key x rule) fun ρ ↦ rng → ρ x = .genquant := by
  refine (h.trans forces_flow).imp fun ρ ⟨hlevel, hle⟩ hrng ↦ ?_
  rw [hlevel hrng] at hle
  unfold Term.named at hle
  split at hle
  · cases top_le_iff.mp hle
  · exact top_le_iff.mp hle

theorem forces_of_sampleArgs_eq_ok (hfuncs : g.funcs = []) {es : List Expr}
    (h : sampleArgs g fn es d = .ok d') :
    d.Forces d' fun _ ↦ Call.anyRng (Expr.callsAll es) = false := by
  induction es generalizing d with
  | nil =>
      cases h
      exact .refl fun _ ↦ rfl
  | cons e es ih =>
      obtain ⟨⟨key, d₁⟩, he, hes⟩ := Fault.bind_eq_ok_iff.mp h
      refine (((forces_of_expr_eq_ok hfuncs he).trans forces_atMost).trans (ih hes)).imp ?_
      rintro ρ ⟨⟨hlevel, hle⟩, hrest⟩
      rw [Expr.callsAll, Call.anyRng_append, hrest, Bool.or_false, ← Bool.not_eq_true]
      intro hrng
      rw [hlevel hrng] at hle
      exact absurd hle (by decide)

/-! ### Statements -/

theorem forces_of_declare_eq_ok {s : Stmt} {v : Var} (h : declare s v d = .ok d') :
    d.Forces d' fun _ ↦ True := by
  unfold declare at h
  split at h
  · cases h
  · cases h
    exact .of_constraints_eq (by simp [addVar, LevelSystem.setSource]) fun _ ↦ trivial

theorem forces_of_decl_eq_ok (hfuncs : g.funcs = []) {type x : String} {data : Bool}
    {init : Option Expr} (h : decl g "" type x data init d = .ok d') :
    d.Forces d' fun ρ ↦ (Stmt.decl type x data init).Confines ρ := by
  unfold decl at h
  split at h
  · cases h
  split at h
  · cases h
  cases init with
  | none => exact (forces_of_declare_eq_ok h).imp fun ρ _ hrng ↦ (by cases hrng)
  | some e =>
      obtain ⟨⟨key, d₁⟩, hexpr, h⟩ := Fault.bind_eq_ok_iff.mp h
      obtain ⟨d₂, hdeclare, h⟩ := Fault.bind_eq_ok_iff.mp h
      cases h
      have hdeclared := ((forces_of_expr_eq_ok hfuncs hexpr).trans
        (forces_of_declare_eq_ok hdeclare)).imp fun ρ hρ ↦ hρ.1
      exact (forces_flow_rng hdeclared).imp fun ρ hρ hrng ↦ ⟨x, rfl, hρ hrng⟩

theorem forces_of_assign_eq_ok (hfuncs : g.funcs = []) (hcoherent : Env.Coherent d.env)
    {x : String} {e : Expr} (h : Draft.assign g "" x e d = .ok d') :
    d.Forces d' fun ρ ↦ (Stmt.assign x e).Confines ρ := by
  unfold Draft.assign at h
  cases hv : d.find? "" x with
  | none => simp [hv] at h
  | some v =>
      simp only [hv] at h
      split at h
      · cases h
      obtain ⟨⟨key, d₁⟩, hexpr, h⟩ := Fault.bind_eq_ok_iff.mp h
      cases h
      have hkey : v.key = x := by
        rw [Var.key, hcoherent _ v hv]
        rfl
      rw [hkey]
      -- The draft of the expression differs from the marked one in nothing that has constraints.
      have hforces := forces_of_expr_eq_ok hfuncs hexpr
      have hmarked : d.Forces { d₁ with env := Env.markAssigned d₁.env v } fun ρ ↦
          Call.anyRng e.calls = true → (Term.named key : Term Level).level ρ = .genquant :=
        hforces
      exact (forces_flow_rng hmarked).imp fun ρ hρ hrng ↦ ⟨x, rfl, hρ hrng⟩

theorem forces_of_sample_eq_ok (hfuncs : g.funcs = []) {x dist : String} {args : List Expr}
    (h : Draft.sample g "" x dist args d = .ok d') :
    d.Forces d' fun ρ ↦ (Stmt.sample x dist args).Confines ρ := by
  unfold Draft.sample at h
  split at h
  · cases h
  split at h
  · refine (forces_atMost.trans (forces_of_sampleArgs_eq_ok hfuncs h)).imp fun ρ hρ hrng ↦ ?_
    cases hρ.2.symm.trans hrng
  · cases h

theorem Tracks.forces_of_stmts_eq_ok (hfuncs : g.funcs = []) {before ss : List Stmt}
    (hflat : ∀ s ∈ ss, s.isFlat = true) (h : d.Tracks before) (hok : stmts g "" ss d = .ok d') :
    d.Forces d' fun ρ ↦ ∀ s ∈ ss, s.Confines ρ := by
  induction ss generalizing before d with
  | nil =>
      cases hok
      exact .refl fun ρ s hs ↦ (by cases hs)
  | cons s ss ih =>
      rw [List.forall_mem_cons] at hflat
      obtain ⟨d₁, hs, hss⟩ := Fault.bind_eq_ok_iff.mp hok
      have hstep : d₁.Tracks (before ++ [s]) ∧ d.Forces d₁ fun ρ ↦ s.Confines ρ := by
        cases s with
        | decl type x data init =>
            exact ⟨(h.of_decl_eq_ok hfuncs hs).1, forces_of_decl_eq_ok hfuncs hs⟩
        | assign x e =>
            exact ⟨(h.of_assign_eq_ok hfuncs hs).1, forces_of_assign_eq_ok hfuncs h.coherent hs⟩
        | sample x dist args =>
            exact ⟨(h.of_sample_eq_ok hfuncs hs).1, forces_of_sample_eq_ok hfuncs hs⟩
        | block list => cases hflat.1
        | _ => cases hs
      exact (hstep.2.trans (ih hflat.2 hstep.1 hss)).imp fun ρ ↦ List.forall_mem_cons.mpr

/-- What the rules for a variable demand of its level. -/
def VarObeys (ρ : String → Level) (v : Var) : Prop :=
  (v.data = true → (Term.named v.key : Term Level).level ρ = .data) ∧
    (v.data = false → v.assigned = false → .model ≤ (Term.named v.key : Term Level).level ρ)

theorem forces_varRule (v : Var) : d.Forces (varRule d v) fun ρ ↦ VarObeys ρ v := by
  unfold varRule
  split
  · next hdata =>
      refine (forces_atLeast.trans forces_atMost).imp fun ρ hρ ↦ ⟨fun _ ↦ ?_, fun hnot ↦ ?_⟩
      · exact le_antisymm hρ.2 hρ.1
      · cases hdata.symm.trans hnot
  split
  · next hdata hassigned =>
      refine .refl fun ρ ↦ ⟨fun h ↦ absurd h hdata, fun _ hnot ↦ ?_⟩
      cases hassigned.symm.trans hnot
  · next hdata _ => exact forces_atLeast.imp fun ρ hρ ↦ ⟨fun h ↦ absurd h hdata, fun _ _ ↦ hρ⟩

theorem forces_varRules (fn : String) :
    d.Forces (d.varRules fn) fun ρ ↦ ∀ v ∈ Env.vars d.env fn, VarObeys ρ v := by
  have hrules (vs : List Var) (d : Draft) :
      d.Forces (vs.foldl varRule d) fun ρ ↦ ∀ v ∈ vs, VarObeys ρ v := by
    induction vs generalizing d with
    | nil => exact .refl fun _ _ hv ↦ (by cases hv)
    | cons v vs ih =>
        exact ((forces_varRule v).trans (ih _)).imp fun ρ hρ ↦ List.forall_mem_cons.mpr hρ
  exact hrules _ d

theorem forces_of_seed_eq_ok {seeds : Seeds} (h : seed seeds d = .ok d') :
    d.Forces d' fun _ ↦ True := by
  induction seeds generalizing d with
  | nil =>
      cases h
      exact .refl fun _ ↦ trivial
  | cons s seeds ih =>
      obtain ⟨x, c⟩ := s
      simp only [seed] at h
      split at h
      · cases h
      split at h
      · cases h
      exact (forces_atLeast.trans (ih h)).imp fun _ _ ↦ trivial

end Draft

namespace LevelSystem

/-- A solution consists of the picked levels, and has been checked: it satisfies the system even if
a constraint is about a variable that the system does not know. -/
theorem of_solve_eq_ok {s : LevelSystem Level} {sol : Solution} (h : s.solve = .ok sol) :
    sol = s.picked s.propagated ∧ s.SatisfiedBy sol.level := by
  cases hconst : Constraint.checkConstants s.constraints with
  | error fault => simp [solve, hconst, bind, Except.bind] at h
  | ok u =>
      cases hempty : s.firstEmpty? s.propagated with
      | some v =>
          simp [solve, hconst, hempty, bind, Except.bind, throw, throwThe,
            MonadExceptOf.throw] at h
      | none =>
          cases hcheck : checkSolution (s.picked s.propagated) s.constraints with
          | error fault => simp [solve, hconst, hempty, hcheck, bind, Except.bind] at h
          | ok u =>
              simp only [solve, hconst, hempty, hcheck, bind, Except.bind, pure, Except.pure,
                Except.ok.injEq] at h
              exact ⟨h.symm, h ▸ (checkSolution_ok_iff _ _).mp hcheck⟩

end LevelSystem

namespace Typing

variable {prims : Primitives} {p : Program} {seeds : Seeds} {t : Typing}

/-- In an accepted program without functions, only generated quantities are written by statements
that call a random number generator. -/
theorem confines_of_infer_eq_ok (hfuncs : p.funcs = []) (h : infer prims p seeds = .ok t) :
    ∀ s ∈ Stmt.flatten p.stmts, s.Confines t.levels.level := by
  obtain ⟨d, d', sol, hstmts, hseed, hsol, rfl⟩ := exists_draft_of_infer_eq_ok hfuncs h
  have hforces := ((Draft.tracks_empty.forces_of_stmts_eq_ok rfl (Stmt.isFlat_flatten p.stmts)
    hstmts).trans (Draft.forces_varRules "")).trans (Draft.forces_of_seed_eq_ok hseed)
  exact (hforces _ (LevelSystem.of_solve_eq_ok hsol).2).2.1.1

end Typing

end Stratify
