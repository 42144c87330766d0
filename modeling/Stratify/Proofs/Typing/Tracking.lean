import Stratify.Proofs.Semantics.Footprint
import Stratify.Proofs.Typing.Statements

/-!
# What inference has seen when it succeeds

Whatever the names of a program without functions are, inference only accepts it if its statements
have no holes and use only variables that are declared before them, and it then knows of every
variable whether some statement gives it a value. Nothing here depends on the levels, so it does
not matter if the keys of two of them clash.
-/

namespace Stratify

namespace Fault

/-- A computation in two steps succeeds if both do. -/
theorem bind_eq_ok_iff {α β : Type} {r : Except Fault α} {f : α → Except Fault β} {b : β} :
    (r >>= f) = .ok b ↔ ∃ a, r = .ok a ∧ f a = .ok b := by
  cases r with
  | error e => exact ⟨fun h ↦ (by cases h), fun ⟨a, ha, _⟩ ↦ (by cases ha)⟩
  | ok a =>
      constructor
      · exact fun h ↦ ⟨a, rfl, h⟩
      · rintro ⟨a', ha', h⟩
        cases ha'
        exact h

theorem mapError_eq_ok_iff {ε α : Type} {r : Except ε α} {f : ε → Fault} {a : α} :
    r.mapError f = .ok a ↔ r = .ok a := by
  cases r with
  | error e => exact ⟨fun h ↦ (by cases h), fun h ↦ (by cases h)⟩
  | ok b => rw [Except.mapError, Except.ok.injEq, Except.ok.injEq]

end Fault

namespace Stmt

/-- The variable that a statement gives the value of an expression. -/
def assignee? : Stmt → Option String
  | decl _ x _ (some _) => some x
  | assign x _ => some x
  | _ => none

end Stmt

namespace Draft

variable {g : Globals} {fn : String}

/-! ### Expressions -/

mutual

theorem of_reads_eq_ok (hfuncs : g.funcs = []) {whole : Expr} {key : String} {rule : Rule} :
    ∀ {e : Expr} {d d' : Draft}, reads g fn whole key rule e d = .ok d' →
      d'.env = d.env ∧ ∀ x ∈ e.reads Deps.noUser, d.InScope fn x
  | .hole, d, d', h => by
      cases h
      exact ⟨rfl, by simp [Expr.reads]⟩
  | .lit .., d, d', h => by
      cases h
      exact ⟨rfl, by simp [Expr.reads]⟩
  | .var name, d, d', h => by
      simp only [reads] at h
      cases hv : d.find? fn name with
      | none => simp [hv] at h
      | some v =>
          simp only [hv, Except.ok.injEq] at h
          subst h
          refine ⟨rfl, fun x hx ↦ ?_⟩
          rw [List.mem_singleton.mp hx]
          exact Option.isSome_iff_exists.mpr ⟨v, hv⟩
  | .unary _ x, d, d', h => of_reads_eq_ok hfuncs (e := x) h
  | .binary _ x y, d, d', h => by
      obtain ⟨d₁, hx, hy⟩ := Fault.bind_eq_ok_iff.mp h
      obtain ⟨henv, hin⟩ := of_reads_eq_ok hfuncs hx
      obtain ⟨henv', hin'⟩ := of_reads_eq_ok hfuncs hy
      rw [inScope_congr henv] at hin'
      exact ⟨henv'.trans henv, List.forall_mem_append.mpr ⟨hin, hin'⟩⟩
  | .index x indices, d, d', h => by
      obtain ⟨d₁, hx, hi⟩ := Fault.bind_eq_ok_iff.mp h
      obtain ⟨henv, hin⟩ := of_reads_eq_ok hfuncs hx
      obtain ⟨henv', hin'⟩ := of_readsAll_eq_ok hfuncs hi
      rw [inScope_congr henv] at hin'
      exact ⟨henv'.trans henv, List.forall_mem_append.mpr ⟨hin, hin'⟩⟩
  | .call callee args, d, d', h => by
      simp only [reads, Globals.func?, hfuncs, Func.named?_nil] at h
      split at h
      · have hrng : (if Primitives.isRng callee then d.atLeast key .genquant .rng else d).env =
            d.env := by
          split <;> rfl
        obtain ⟨henv, hin⟩ := of_readsAll_eq_ok hfuncs h
        rw [inScope_congr hrng] at hin
        exact ⟨henv.trans hrng, hin⟩
      · cases h

theorem of_readsAll_eq_ok (hfuncs : g.funcs = []) {whole : Expr} {key : String} {rule : Rule} :
    ∀ {es : List Expr} {d d' : Draft}, readsAll g fn whole key rule es d = .ok d' →
      d'.env = d.env ∧ ∀ x ∈ Expr.readsAll Deps.noUser es, d.InScope fn x
  | [], d, d', h => by
      cases h
      exact ⟨rfl, by simp [Expr.readsAll]⟩
  | e :: es, d, d', h => by
      obtain ⟨d₁, he, hes⟩ := Fault.bind_eq_ok_iff.mp h
      obtain ⟨henv, hin⟩ := of_reads_eq_ok hfuncs he
      obtain ⟨henv', hin'⟩ := of_readsAll_eq_ok hfuncs hes
      rw [inScope_congr henv] at hin'
      exact ⟨henv'.trans henv, List.forall_mem_append.mpr ⟨hin, hin'⟩⟩

end

theorem of_expr_eq_ok (hfuncs : g.funcs = []) {e : Expr} {rule : Rule} {d d' : Draft}
    {key : String} (h : expr g fn e rule d = .ok (key, d')) :
    d'.env = d.env ∧ e.complete = true ∧ ∀ x ∈ e.reads Deps.noUser, d.InScope fn x := by
  obtain ⟨d₁, hadd, h⟩ := Fault.bind_eq_ok_iff.mp h
  obtain ⟨d₂, hreads, h⟩ := Fault.bind_eq_ok_iff.mp h
  cases h
  unfold addExpr at hadd
  split at hadd
  · cases hadd
  · next t ht =>
      cases hadd
      obtain ⟨henv, hin⟩ := of_reads_eq_ok hfuncs hreads
      exact ⟨henv, Expr.complete_of_text ht, hin⟩

theorem of_sampleArgs_eq_ok (hfuncs : g.funcs = []) {es : List Expr} {d d' : Draft}
    (h : sampleArgs g fn es d = .ok d') :
    d'.env = d.env ∧ Expr.completeAll es = true ∧
      ∀ x ∈ Expr.readsAll Deps.noUser es, d.InScope fn x := by
  induction es generalizing d with
  | nil =>
      cases h
      exact ⟨rfl, rfl, by simp [Expr.readsAll]⟩
  | cons e es ih =>
      obtain ⟨⟨key, d₁⟩, he, hes⟩ := Fault.bind_eq_ok_iff.mp h
      obtain ⟨henv, hcomplete, hin⟩ := of_expr_eq_ok hfuncs he
      obtain ⟨henv', hcomplete', hin'⟩ := ih hes
      rw [inScope_atMost, inScope_congr henv] at hin'
      refine ⟨henv'.trans henv, ?_, List.forall_mem_append.mpr ⟨hin, hin'⟩⟩
      rw [Expr.completeAll, hcomplete, hcomplete', Bool.and_self]

/-! ### Statements -/

/-- The draft knows what some statements of the program have declared and assigned. -/
structure Tracks (before : List Stmt) (d : Draft) : Prop where
  coherent : Env.Coherent d.env
  inScope : ∀ x, d.InScope "" x ↔ x ∈ Stmt.declNames before
  assigned : ∀ s ∈ before, ∀ x ∈ s.assignee?, ∃ v, d.find? "" x = some v ∧ v.assigned = true

variable {before : List Stmt} {d d' : Draft}

theorem Tracks.of_env_eq (h : d.Tracks before) (henv : d'.env = d.env) : d'.Tracks before := by
  refine ⟨henv ▸ h.coherent, ?_, ?_⟩
  · rw [inScope_congr henv]
    exact h.inScope
  · unfold find?
    rw [henv]
    exact h.assigned

theorem Tracks.declare (h : d.Tracks before) {type x : String} {data : Bool}
    {init : Option Expr} (hdeclare : declare (.decl type x data init) ⟨⟨"", x⟩, type, data, false,
      init.isSome, .stmt (.decl type x data init)⟩ d = .ok d') :
    d'.Tracks (before ++ [.decl type x data init]) ∧ x ∉ Stmt.declNames before := by
  unfold Draft.declare at hdeclare
  split at hdeclare
  · cases hdeclare
  · next env henv =>
      cases hdeclare
      have hnone : d.find? "" x = none := Env.find?_of_declare? henv
      have hfresh : x ∉ Stmt.declNames before := by
        rw [← h.inScope, InScope, hnone]
        simp
      have hfind (y : String) : Env.find? env "" y = if y = x then some ⟨⟨"", x⟩, type, data,
          false, init.isSome, .stmt (.decl type x data init)⟩ else d.find? "" y := by
        rw [Env.find?_declare? henv]
        simp [find?]
      refine ⟨⟨Env.coherent_declare? h.coherent henv, fun y ↦ ?_, fun s hs y hy ↦ ?_⟩, hfresh⟩
      · change (Env.find? env "" y).isSome = true ↔ _
        rw [hfind, Stmt.declNames_append, List.mem_append, ← h.inScope]
        by_cases hyx : y = x
        · simp [hyx, Stmt.declNames, Stmt.declName?]
        · simp [hyx, Stmt.declNames, Stmt.declName?, InScope]
      · change ∃ v, Env.find? env "" y = some v ∧ _
        rw [hfind]
        rcases List.mem_append.mp hs with hs | hs
        · obtain ⟨v, hv, hassigned⟩ := h.assigned s hs y hy
          have hyx : y ≠ x := by
            rintro rfl
            cases hnone.symm.trans hv
          exact ⟨v, by rw [if_neg hyx, hv], hassigned⟩
        · rw [List.mem_singleton.mp hs] at hy
          cases init with
          | none => cases hy
          | some e =>
              obtain rfl : x = y := Option.some.inj hy
              exact ⟨_, if_pos rfl, rfl⟩

theorem Tracks.assign (h : d.Tracks before) {x : String} {e : Expr} {v : Var}
    (hv : d.find? "" x = some v) :
    Tracks (before ++ [.assign x e]) { d with env := Env.markAssigned d.env v } := by
  have hid : v.id = ⟨"", x⟩ := h.coherent _ v hv
  have hfind (y : String) : Env.find? (Env.markAssigned d.env v) "" y =
      if y = x then some { v with assigned := true } else d.find? "" y := by
    rw [Env.find?_markAssigned, hid]
    simp [find?]
  refine ⟨Env.coherent_markAssigned h.coherent v, fun y ↦ ?_, fun s hs y hy ↦ ?_⟩
  · change (Env.find? (Env.markAssigned d.env v) "" y).isSome = true ↔ _
    rw [hfind, Stmt.declNames_append, List.mem_append, ← h.inScope]
    by_cases hyx : y = x
    · simp [hyx, InScope, hv]
    · simp [hyx, Stmt.declNames, Stmt.declName?, InScope]
  · change ∃ v', Env.find? (Env.markAssigned d.env v) "" y = some v' ∧ _
    rw [hfind]
    by_cases hyx : y = x
    · exact ⟨_, if_pos hyx, rfl⟩
    · rw [if_neg hyx]
      rcases List.mem_append.mp hs with hs | hs
      · exact h.assigned s hs y hy
      · rw [List.mem_singleton.mp hs] at hy
        exact absurd (Option.some.inj hy).symm hyx

theorem Tracks.sample (h : d.Tracks before) {x dist : String} {args : List Expr} :
    d.Tracks (before ++ [.sample x dist args]) := by
  refine ⟨h.coherent, fun y ↦ ?_, fun s hs y hy ↦ ?_⟩
  · rw [h.inScope, Stmt.declNames_append]
    simp [Stmt.declNames, Stmt.declName?]
  · rcases List.mem_append.mp hs with hs | hs
    · exact h.assigned s hs y hy
    · rw [List.mem_singleton.mp hs] at hy
      cases hy

theorem Tracks.of_decl_eq_ok (hfuncs : g.funcs = []) (h : d.Tracks before) {type x : String}
    {data : Bool} {init : Option Expr} (hok : decl g "" type x data init d = .ok d') :
    d'.Tracks (before ++ [.decl type x data init]) ∧
      (Stmt.decl type x data init).Runnable (Stmt.declNames before) := by
  unfold decl at hok
  split at hok
  · cases hok
  split at hok
  · cases hok
  cases init with
  | none =>
      obtain ⟨htracks, hfresh⟩ := h.declare hok
      refine ⟨htracks, Or.inl rfl, rfl, by simp [Stmt.uses, Stmt.reads, Expr.readsAll], ?_⟩
      rintro _ ⟨⟩
      exact hfresh
  | some e =>
      obtain ⟨⟨key, d₁⟩, hexpr, hok⟩ := Fault.bind_eq_ok_iff.mp hok
      obtain ⟨d₂, hdeclare, hok⟩ := Fault.bind_eq_ok_iff.mp hok
      cases hok
      obtain ⟨henv, hcomplete, hin⟩ := of_expr_eq_ok hfuncs hexpr
      obtain ⟨htracks, hfresh⟩ := (h.of_env_eq henv).declare hdeclare
      refine ⟨htracks.of_env_eq rfl, Or.inl rfl, hcomplete, fun y hy ↦ ?_, ?_⟩
      · exact (h.inScope y).mp (hin y (by simpa [Stmt.uses, Stmt.reads, Expr.readsAll] using hy))
      · rintro _ ⟨⟩
        exact hfresh

theorem Tracks.of_assign_eq_ok (hfuncs : g.funcs = []) (h : d.Tracks before) {x : String}
    {e : Expr} (hok : Draft.assign g "" x e d = .ok d') :
    d'.Tracks (before ++ [.assign x e]) ∧
      (Stmt.assign x e).Runnable (Stmt.declNames before) := by
  unfold Draft.assign at hok
  cases hv : d.find? "" x with
  | none => simp [hv] at hok
  | some v =>
      simp only [hv] at hok
      split at hok
      · cases hok
      obtain ⟨⟨key, d₁⟩, hexpr, hok⟩ := Fault.bind_eq_ok_iff.mp hok
      cases hok
      obtain ⟨henv, hcomplete, hin⟩ := of_expr_eq_ok hfuncs hexpr
      have hv₁ : d₁.find? "" x = some v := by
        rw [find?, henv]
        exact hv
      refine ⟨((h.of_env_eq henv).assign hv₁).of_env_eq rfl, Or.inl rfl, hcomplete, ?_,
        fun _ hx ↦ (by cases hx)⟩
      refine List.forall_mem_cons.mpr ⟨?_, fun y hy ↦ (h.inScope y).mp (hin y hy)⟩
      exact (h.inScope x).mp (Option.isSome_iff_exists.mpr ⟨v, hv⟩)

theorem Tracks.of_sample_eq_ok (hfuncs : g.funcs = []) (h : d.Tracks before) {x dist : String}
    {args : List Expr} (hok : Draft.sample g "" x dist args d = .ok d') :
    d'.Tracks (before ++ [.sample x dist args]) ∧
      (Stmt.sample x dist args).Runnable (Stmt.declNames before) := by
  unfold Draft.sample at hok
  cases hv : d.find? "" x with
  | none => simp [hv] at hok
  | some v =>
      simp only [hv] at hok
      split at hok
      · obtain ⟨henv, hcomplete, hin⟩ := of_sampleArgs_eq_ok hfuncs hok
        rw [inScope_atMost] at hin
        refine ⟨h.sample.of_env_eq henv, Or.inr rfl, hcomplete, ?_, fun _ hx ↦ (by cases hx)⟩
        refine List.forall_mem_cons.mpr ⟨?_, fun y hy ↦ (h.inScope y).mp (hin y hy)⟩
        exact (h.inScope x).mp (Option.isSome_iff_exists.mpr ⟨v, hv⟩)
      · cases hok

theorem Tracks.of_stmts_eq_ok (hfuncs : g.funcs = []) {ss : List Stmt}
    (hflat : ∀ s ∈ ss, s.isFlat = true) (h : d.Tracks before) (hok : stmts g "" ss d = .ok d') :
    d'.Tracks (before ++ ss) ∧ Stmt.RunnableFrom (Stmt.declNames before) ss := by
  induction ss generalizing before d with
  | nil =>
      cases hok
      exact ⟨by rwa [List.append_nil], trivial⟩
  | cons s ss ih =>
      rw [List.forall_mem_cons] at hflat
      obtain ⟨d₁, hs, hss⟩ := Fault.bind_eq_ok_iff.mp hok
      have hstep : d₁.Tracks (before ++ [s]) ∧ s.Runnable (Stmt.declNames before) := by
        cases s with
        | decl type x data init => exact h.of_decl_eq_ok hfuncs hs
        | assign x e => exact h.of_assign_eq_ok hfuncs hs
        | sample x dist args => exact h.of_sample_eq_ok hfuncs hs
        | block list => cases hflat.1
        | _ => cases hs
      obtain ⟨htracks, hrest⟩ := ih hflat.2 hstep.1 hss
      rw [Stmt.declNames_append] at hrest
      exact ⟨by rwa [List.append_cons], hstep.2, hrest⟩

theorem env_seed {seeds : Seeds} (h : seed seeds d = .ok d') : d'.env = d.env := by
  induction seeds generalizing d with
  | nil =>
      cases h
      rfl
  | cons s seeds ih =>
      obtain ⟨x, c⟩ := s
      simp only [seed] at h
      split at h
      · cases h
      split at h
      · cases h
      rw [ih h]
      rfl

theorem env_varRules (fn : String) : (d.varRules fn).env = d.env := by
  have hrules (vs : List Var) (d : Draft) : (vs.foldl varRule d).env = d.env := by
    induction vs generalizing d with
    | nil => rfl
    | cons v vs ih =>
        rw [List.foldl_cons, ih]
        unfold varRule
        split
        · rfl
        split <;> rfl
  exact hrules _ d

theorem tracks_empty : empty.Tracks [] := by
  refine ⟨Env.coherent_empty, fun x ↦ ?_, fun _ hs ↦ (by cases hs)⟩
  simp [InScope, find?, empty, Env.find?, Stmt.declNames, OrderedMap.empty, OrderedMap.get?]

end Draft

namespace Typing

variable {prims : Primitives} {p : Program} {seeds : Seeds} {t : Typing}

/-- The steps of inference on a program without functions. -/
theorem exists_draft_of_infer_eq_ok (hfuncs : p.funcs = []) (h : infer prims p seeds = .ok t) :
    ∃ d d' sol, Draft.stmts ⟨prims, []⟩ "" (Stmt.flatten p.stmts) .empty = .ok d ∧
      Draft.seed seeds.sorted (d.varRules "") = .ok d' ∧
      d'.system.solve = .ok sol ∧ t = read p d' sol := by
  obtain ⟨d, hdraft, h⟩ := Fault.bind_eq_ok_iff.mp h
  obtain ⟨d', hseed, h⟩ := Fault.bind_eq_ok_iff.mp h
  obtain ⟨sol, hsol, h⟩ := Fault.bind_eq_ok_iff.mp h
  cases h
  simp only [Draft.ofProgram, hfuncs, Draft.checkFuncs, Draft.headers, Draft.bodies,
    List.foldl_nil] at hdraft
  obtain ⟨d₀, hstmts, hdraft⟩ : ∃ d₀, Draft.stmts ⟨prims, []⟩ "" p.stmts .empty = .ok d₀ ∧
      (pure (d₀.varRules "") : Except Fault Draft) = .ok d := Fault.bind_eq_ok_iff.mp hdraft
  cases hdraft
  rw [Draft.stmts_flatten] at hstmts
  exact ⟨d₀, d', sol, hstmts, hseed, Fault.mapError_eq_ok_iff.mp hsol, rfl⟩

/-- The statements of an accepted program without functions can run, and the variables that they
give the values of expressions count as assigned. -/
theorem tracks_of_infer_eq_ok (hfuncs : p.funcs = []) (h : infer prims p seeds = .ok t) :
    Stmt.RunnableFrom [] (Stmt.flatten p.stmts) ∧
      ∀ s ∈ Stmt.flatten p.stmts, ∀ x ∈ s.assignee?, t.assigned x = true := by
  obtain ⟨d, d', sol, hstmts, hseed, -, rfl⟩ := exists_draft_of_infer_eq_ok hfuncs h
  obtain ⟨htracks, hrunnable⟩ :=
    Draft.tracks_empty.of_stmts_eq_ok rfl (Stmt.isFlat_flatten p.stmts) hstmts
  refine ⟨hrunnable, fun s hs x hx ↦ ?_⟩
  have htracks' := (htracks.of_env_eq (Draft.env_varRules "")).of_env_eq (Draft.env_seed hseed)
  obtain ⟨v, hv, hassigned⟩ := htracks'.assigned s hs x hx
  rw [Draft.find?] at hv
  simpa only [assigned, find?, read, hv] using hassigned

end Typing

end Stratify
