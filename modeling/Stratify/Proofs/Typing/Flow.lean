import Mathlib.Order.MinMax
import Mathlib.Tactic.Tauto
import Stratify.Proofs.Typing.Judgement

/-!
# What expressions read

The scoping and the flows of an expression are those of its parts. They only depend on the levels
of the variables that it reads, also in the arguments of calls, and on the levels of the results
and parameters of functions.
-/

namespace Stratify

namespace Expr

variable {g : Globals} {A B : Assignment} {fn : String} {Γ : String → Prop}

/-! ### Scoping -/

theorem scoped_unary {op : Op} {x : Expr} : (unary op x).Scoped g Γ ↔ x.Scoped g Γ :=
  ⟨fun h ↦ ⟨h.vars, h.calls⟩, fun h ↦ ⟨h.vars, h.calls⟩⟩

structure ScopedAll (g : Globals) (Γ : String → Prop) (es : List Expr) : Prop where
  vars : ∀ x ∈ readsAll Deps.noUser es, Γ x
  calls : ∀ c ∈ callsAll es, g.Admits c

theorem scopedAll_nil : ScopedAll g Γ [] :=
  ⟨by simp [readsAll], by simp [callsAll]⟩

theorem scopedAll_cons {e : Expr} {es : List Expr} :
    ScopedAll g Γ (e :: es) ↔ e.Scoped g Γ ∧ ScopedAll g Γ es := by
  constructor
  · rintro ⟨hvars, hcalls⟩
    simp only [readsAll, callsAll, List.mem_append] at hvars hcalls
    exact ⟨⟨fun x hx ↦ hvars x (Or.inl hx), fun c hc ↦ hcalls c (Or.inl hc)⟩,
      ⟨fun x hx ↦ hvars x (Or.inr hx), fun c hc ↦ hcalls c (Or.inr hc)⟩⟩
  · rintro ⟨he, hes⟩
    constructor
    · simp only [readsAll, List.mem_append]
      exact fun x hx ↦ hx.elim (he.vars x) (hes.vars x)
    · simp only [callsAll, List.mem_append]
      exact fun c hc ↦ hc.elim (he.calls c) (hes.calls c)

theorem scopedAll_iff {es : List Expr} : ScopedAll g Γ es ↔ ∀ e ∈ es, e.Scoped g Γ := by
  induction es with
  | nil => simp [scopedAll_nil]
  | cons e es ih => rw [scopedAll_cons, ih, List.forall_mem_cons]

theorem scoped_binary {op : Op} {x y : Expr} :
    (binary op x y).Scoped g Γ ↔ x.Scoped g Γ ∧ y.Scoped g Γ := by
  have hlist : (binary op x y).Scoped g Γ ↔ ScopedAll g Γ [x, y] := by
    constructor <;> rintro ⟨hvars, hcalls⟩ <;>
      exact ⟨by simpa [reads, readsAll] using hvars, by simpa [calls, callsAll] using hcalls⟩
  rw [hlist, scopedAll_iff, List.forall_mem_cons, List.forall_mem_singleton]

theorem scoped_index {x : Expr} {indices : List Expr} :
    (index x indices).Scoped g Γ ↔ x.Scoped g Γ ∧ ScopedAll g Γ indices := by
  rw [← scopedAll_cons]
  constructor <;> rintro ⟨hvars, hcalls⟩ <;> exact ⟨hvars, hcalls⟩

theorem scoped_call {callee : String} {args : List Expr} :
    (call callee args).Scoped g Γ ↔ ScopedAll g Γ args ∧ g.Admits ⟨callee, args⟩ := by
  constructor
  · rintro ⟨hvars, hcalls⟩
    simp only [calls, List.mem_append, List.mem_singleton] at hcalls
    exact ⟨⟨hvars, fun c hc ↦ hcalls c (Or.inl hc)⟩, hcalls _ (Or.inr rfl)⟩
  · rintro ⟨hargs, hadmits⟩
    refine ⟨hargs.vars, ?_⟩
    simp only [calls, List.mem_append, List.mem_singleton]
    exact fun c hc ↦ hc.elim (hargs.calls c) fun heq ↦ heq ▸ hadmits

/-! ### Assignments that agree on what an expression reads -/

mutual

theorem levelIn_congr (hresult : ∀ f ∈ g.funcs, B (.result f.name) = A (.result f.name)) :
    ∀ {e : Expr}, (∀ x ∈ e.reads Deps.noUser, B (.var ⟨fn, x⟩) = A (.var ⟨fn, x⟩)) →
      e.levelIn g B fn = e.levelIn g A fn
  | hole, _ => rfl
  | lit .., _ => rfl
  | var x, h => h x (List.mem_singleton_self x)
  | unary _ x, h => levelIn_congr hresult (e := x) h
  | binary _ x y, h => by
      simp only [reads, List.mem_append] at h
      rw [levelIn, levelIn, levelIn_congr hresult fun z hz ↦ h z (Or.inl hz),
        levelIn_congr hresult fun z hz ↦ h z (Or.inr hz)]
  | index x indices, h => by
      simp only [reads, List.mem_append] at h
      rw [levelIn, levelIn, levelIn_congr hresult fun z hz ↦ h z (Or.inl hz),
        levelInAll_congr hresult fun z hz ↦ h z (Or.inr hz)]
  | call callee args, h => by
      rw [levelIn, levelIn, levelInAll_congr hresult h]
      split
      · next hsome =>
          obtain ⟨f, hf⟩ := Option.isSome_iff_exists.mp hsome
          obtain ⟨rfl, hmem⟩ := Func.of_named?_eq_some hf
          exact hresult f hmem
      · rfl

theorem levelInAll_congr (hresult : ∀ f ∈ g.funcs, B (.result f.name) = A (.result f.name)) :
    ∀ {es : List Expr}, (∀ x ∈ readsAll Deps.noUser es, B (.var ⟨fn, x⟩) = A (.var ⟨fn, x⟩)) →
      levelInAll g B fn es = levelInAll g A fn es
  | [], _ => rfl
  | e :: es, h => by
      simp only [readsAll, List.mem_append] at h
      rw [levelInAll, levelInAll, levelIn_congr hresult fun z hz ↦ h z (Or.inl hz),
        levelInAll_congr hresult fun z hz ↦ h z (Or.inr hz)]

end

theorem mem_readsAll {es : List Expr} {x : String} :
    x ∈ readsAll Deps.noUser es ↔ ∃ e ∈ es, x ∈ e.reads Deps.noUser := by
  induction es with
  | nil => simp [readsAll]
  | cons e es ih => simp [readsAll, ih]

mutual

/-- What the arguments of the calls read, the whole expression reads. -/
theorem reads_of_mem_calls :
    ∀ {e : Expr}, ∀ c ∈ e.calls, ∀ a ∈ c.args, ∀ x ∈ a.reads Deps.noUser,
      x ∈ e.reads Deps.noUser
  | hole, c, hc, a, ha, x, hx => by simp [calls] at hc
  | lit .., c, hc, a, ha, x, hx => by simp [calls] at hc
  | var _, c, hc, a, ha, x, hx => by simp [calls] at hc
  | unary _ y, c, hc, a, ha, x, hx => reads_of_mem_calls (e := y) c hc a ha x hx
  | binary _ y z, c, hc, a, ha, x, hx => by
      rw [reads, List.mem_append]
      rcases List.mem_append.mp hc with hc | hc
      · exact Or.inl (reads_of_mem_calls c hc a ha x hx)
      · exact Or.inr (reads_of_mem_calls c hc a ha x hx)
  | index y indices, c, hc, a, ha, x, hx => by
      rw [reads, List.mem_append]
      rcases List.mem_append.mp hc with hc | hc
      · exact Or.inl (reads_of_mem_calls c hc a ha x hx)
      · exact Or.inr (readsAll_of_mem_callsAll c hc a ha x hx)
  | call callee args, c, hc, a, ha, x, hx => by
      change x ∈ readsAll Deps.noUser args
      rcases List.mem_append.mp hc with hc | hc
      · exact readsAll_of_mem_callsAll c hc a ha x hx
      · rw [List.mem_singleton.mp hc] at ha
        exact mem_readsAll.mpr ⟨a, ha, hx⟩

theorem readsAll_of_mem_callsAll :
    ∀ {es : List Expr}, ∀ c ∈ callsAll es, ∀ a ∈ c.args, ∀ x ∈ a.reads Deps.noUser,
      x ∈ readsAll Deps.noUser es
  | [], c, hc, a, ha, x, hx => by simp [callsAll] at hc
  | e :: es, c, hc, a, ha, x, hx => by
      rw [readsAll, List.mem_append]
      rcases List.mem_append.mp hc with hc | hc
      · exact Or.inl (reads_of_mem_calls c hc a ha x hx)
      · exact Or.inr (readsAll_of_mem_callsAll c hc a ha x hx)

end

theorem passes_congr (hresult : ∀ f ∈ g.funcs, B (.result f.name) = A (.result f.name))
    (hparam : ∀ f ∈ g.funcs, ∀ p ∈ f.params, B (.var ⟨f.name, p.name⟩) = A (.var ⟨f.name, p.name⟩))
    {e : Expr} (h : ∀ x ∈ e.reads Deps.noUser, B (.var ⟨fn, x⟩) = A (.var ⟨fn, x⟩)) :
    e.Passes g B fn ↔ e.Passes g A fn := by
  refine forall₂_congr fun c hc ↦ forall₂_congr fun f hf ↦ forall₂_congr fun pa hpa ↦ ?_
  obtain ⟨p, a⟩ := pa
  obtain ⟨hp, ha⟩ := List.of_mem_zip hpa
  rw [levelIn_congr hresult fun x hx ↦ h x (reads_of_mem_calls c hc a ha x hx),
    hparam f (Func.of_named?_eq_some hf).2 p hp]

theorem flowsTo_congr (hresult : ∀ f ∈ g.funcs, B (.result f.name) = A (.result f.name))
    (hparam : ∀ f ∈ g.funcs, ∀ p ∈ f.params, B (.var ⟨f.name, p.name⟩) = A (.var ⟨f.name, p.name⟩))
    {e : Expr} (h : ∀ x ∈ e.reads Deps.noUser, B (.var ⟨fn, x⟩) = A (.var ⟨fn, x⟩)) {l : Level} :
    e.FlowsTo g B fn l ↔ e.FlowsTo g A fn l := by
  have hlevel : e.levelIn g B fn = e.levelIn g A fn := levelIn_congr hresult h
  have hpasses : e.Passes g B fn ↔ e.Passes g A fn := passes_congr hresult hparam h
  exact ⟨fun hB ↦ ⟨hlevel ▸ hB.level_le, hpasses.mp hB.passes⟩,
    fun hA ↦ ⟨hlevel.symm ▸ hA.level_le, hpasses.mpr hA.passes⟩⟩

/-! ### Levels of what is read -/

mutual

/-- Without user functions, an expression has at least the level of every variable in it. -/
theorem le_levelIn (hfuncs : g.funcs = []) {x : String} :
    ∀ {e : Expr}, x ∈ e.reads Deps.noUser → A (.var ⟨fn, x⟩) ≤ e.levelIn g A fn
  | hole, hx => by simp [reads] at hx
  | lit .., hx => by simp [reads] at hx
  | var y, hx => by
      rw [List.mem_singleton.mp hx]
      exact le_rfl
  | unary _ y, hx => le_levelIn hfuncs (e := y) hx
  | binary _ y z, hx => by
      rcases List.mem_append.mp hx with hx | hx
      · exact (le_levelIn hfuncs hx).trans (le_max_left _ _)
      · exact (le_levelIn hfuncs hx).trans (le_max_right _ _)
  | index y indices, hx => by
      rcases List.mem_append.mp hx with hx | hx
      · exact (le_levelIn hfuncs hx).trans (le_max_left _ _)
      · exact (le_levelInAll hfuncs hx).trans (le_max_right _ _)
  | call callee args, hx => by
      rw [levelIn, Globals.func?, hfuncs, Func.named?_nil, if_neg (by simp)]
      exact (le_levelInAll hfuncs hx).trans (le_max_right _ _)

theorem le_levelInAll (hfuncs : g.funcs = []) {x : String} :
    ∀ {es : List Expr}, x ∈ readsAll Deps.noUser es → A (.var ⟨fn, x⟩) ≤ levelInAll g A fn es
  | [], hx => by simp [readsAll] at hx
  | e :: es, hx => by
      rcases List.mem_append.mp hx with hx | hx
      · exact (le_levelIn hfuncs hx).trans (le_max_left _ _)
      · exact (le_levelInAll hfuncs hx).trans (le_max_right _ _)

end

theorem FlowsTo.le (hfuncs : g.funcs = []) {e : Expr} {l : Level} (h : e.FlowsTo g A fn l)
    {x : String} (hx : x ∈ e.reads Deps.noUser) : A (.var ⟨fn, x⟩) ≤ l :=
  (le_levelIn hfuncs hx).trans h.level_le

/-! ### Flows of the parts of an expression -/

/-- The values of several expressions may flow into something of the level `l`. -/
def AllFlowTo (g : Globals) (A : Assignment) (fn : String) (es : List Expr) (l : Level) : Prop :=
  ∀ e ∈ es, e.FlowsTo g A fn l

variable {l : Level}

theorem flowsTo_iff {e : Expr} :
    e.FlowsTo g A fn l ↔ e.levelIn g A fn ≤ l ∧ e.Passes g A fn :=
  ⟨fun h ↦ ⟨h.level_le, h.passes⟩, fun h ↦ ⟨h.1, h.2⟩⟩

theorem flowsTo_lit {kind : LitKind} {value : String} : (lit kind value).FlowsTo g A fn l :=
  ⟨Level.data_le l, by simp [Passes, calls]⟩

theorem flowsTo_var {x : String} : (var x).FlowsTo g A fn l ↔ A (.var ⟨fn, x⟩) ≤ l := by
  rw [flowsTo_iff]
  simp [Passes, calls, levelIn]

theorem flowsTo_unary {op : Op} {x : Expr} :
    (unary op x).FlowsTo g A fn l ↔ x.FlowsTo g A fn l :=
  ⟨fun h ↦ ⟨h.level_le, h.passes⟩, fun h ↦ ⟨h.level_le, h.passes⟩⟩

theorem flowsTo_binary {op : Op} {x y : Expr} :
    (binary op x y).FlowsTo g A fn l ↔ x.FlowsTo g A fn l ∧ y.FlowsTo g A fn l := by
  simp only [flowsTo_iff, levelIn, Passes, calls, List.mem_append, max_le_iff, or_imp, forall_and]
  tauto

theorem allFlowTo_iff {es : List Expr} : AllFlowTo g A fn es l ↔
    levelInAll g A fn es ≤ l ∧ ∀ c ∈ callsAll es, ∀ f, g.func? c.fn = some f →
      ∀ pa ∈ f.params.zip c.args, pa.2.levelIn g A fn ≤ A (.var ⟨f.name, pa.1.name⟩) := by
  induction es with
  | nil => simp [AllFlowTo, levelInAll, callsAll]
  | cons e es ih =>
      simp only [AllFlowTo, List.forall_mem_cons] at ih ⊢
      rw [ih, flowsTo_iff, levelInAll, max_le_iff]
      simp only [Passes, callsAll, List.mem_append, or_imp, forall_and]
      tauto

theorem flowsTo_index {x : Expr} {indices : List Expr} :
    (index x indices).FlowsTo g A fn l ↔ x.FlowsTo g A fn l ∧ AllFlowTo g A fn indices l := by
  rw [allFlowTo_iff]
  simp only [flowsTo_iff, levelIn, Passes, calls, List.mem_append, max_le_iff, or_imp, forall_and]
  tauto

theorem flowsTo_prim {callee : String} {args : List Expr} (h : g.func? callee = none) :
    (call callee args).FlowsTo g A fn l ↔
      Primitives.callLevel callee ≤ l ∧ AllFlowTo g A fn args l := by
  rw [allFlowTo_iff, flowsTo_iff]
  simp only [levelIn, Passes, calls, List.mem_append, List.mem_singleton, h, Option.isSome_none,
    Bool.false_eq_true, if_false, max_le_iff, or_imp, forall_and, forall_eq]
  simp [and_assoc]

/-- A user call only shows its result; each argument flows into its parameter. -/
theorem flowsTo_user {callee : String} {args : List Expr} {f : Func}
    (h : g.func? callee = some f) (hlen : args.length = f.params.length) :
    (call callee args).FlowsTo g A fn l ↔
      A (.result callee) ≤ l ∧ ∀ pa ∈ f.params.zip args,
        pa.2.FlowsTo g A fn (A (.var ⟨f.name, pa.1.name⟩)) := by
  have hcalls : (∀ c ∈ callsAll args, ∀ f, g.func? c.fn = some f → ∀ pa ∈ f.params.zip c.args,
      pa.2.levelIn g A fn ≤ A (.var ⟨f.name, pa.1.name⟩)) ↔
        ∀ pa ∈ f.params.zip args, pa.2.Passes g A fn := by
    have hall : AllFlowTo g A fn args .genquant ↔ ∀ a ∈ args, a.Passes g A fn := by
      simp [AllFlowTo, flowsTo_iff]
    rw [allFlowTo_iff] at hall
    simp only [Level.le_genquant, true_and] at hall
    rw [hall]
    constructor
    · intro hargs pa hpa
      exact hargs pa.2 (List.of_mem_zip hpa).2
    · intro hzip a ha
      have hmap : a ∈ (f.params.zip args).map Prod.snd := by
        rwa [List.map_snd_zip hlen.le]
      obtain ⟨pa, hpa, rfl⟩ := List.mem_map.mp hmap
      exact hzip pa hpa
  rw [flowsTo_iff]
  simp only [levelIn, Passes, calls, List.mem_append, List.mem_singleton, h, Option.isSome_some,
    if_true, or_imp, forall_and, forall_eq, Option.some.injEq, forall_eq', flowsTo_iff]
  rw [hcalls]
  tauto

end Expr

end Stratify
