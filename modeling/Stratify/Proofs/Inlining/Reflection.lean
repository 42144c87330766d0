import Stratify.Proofs.Inlining.Hygiene
import Stratify.Proofs.Inlining.Levels

/-!
# What the levels of an inlined program say of the source

The calls of a function share its levels, and inlining takes them apart, so the inlined program may
have levels that the source does not. But if fresh variables are no lower than their origins, a
variable of the source that is `data` in the inlined program can be made `data` in the source too:
what is left of an initialiser reads only `data`, and this can be followed back through all the
copies that it was inlined from. The best levels of the source make it `data` already.
-/

namespace Stratify

namespace Level

theorem le_data_iff {l : Level} : l ≤ .data ↔ l = .data :=
  le_bot_iff

theorem max_eq_data_iff {k l : Level} : max k l = .data ↔ k = .data ∧ l = .data :=
  sup_eq_bot_iff

end Level

/-! ### Lowering levels -/

namespace Expr

variable {g : Globals} {A B : Assignment} {fn : String}

mutual

theorem levelIn_mono (h : ∀ s, B s ≤ A s) : ∀ e : Expr, e.levelIn g B fn ≤ e.levelIn g A fn
  | hole => le_rfl
  | lit .. => le_rfl
  | var x => h (.var ⟨fn, x⟩)
  | unary _ x => levelIn_mono h x
  | binary _ x y => max_le_max (levelIn_mono h x) (levelIn_mono h y)
  | index x indices => max_le_max (levelIn_mono h x) (levelInAll_mono h indices)
  | call callee args => by
      rw [levelIn, levelIn]
      split
      · exact h (.result callee)
      · exact max_le_max le_rfl (levelInAll_mono h args)

theorem levelInAll_mono (h : ∀ s, B s ≤ A s) :
    ∀ es : List Expr, levelInAll g B fn es ≤ levelInAll g A fn es
  | [] => le_rfl
  | e :: es => max_le_max (levelIn_mono h e) (levelInAll_mono h es)

end

/-- Levels are lowered, but not those of parameters. -/
structure Lowers (g : Globals) (A B : Assignment) : Prop where
  le : ∀ s, B s ≤ A s
  params : ∀ f ∈ g.funcs, ∀ x, B (.var ⟨f.name, x⟩) = A (.var ⟨f.name, x⟩)

theorem FlowsTo.lower {e : Expr} {k l : Level} (h : e.FlowsTo g A fn k) (hAB : Lowers g A B)
    (hlevel : e.levelIn g B fn ≤ l) : e.FlowsTo g B fn l := by
  refine ⟨hlevel, fun c hc f hf pa hpa ↦ ?_⟩
  rw [hAB.params f (Func.of_named?_eq_some hf).2]
  exact (levelIn_mono hAB.le pa.2).trans (h.passes c hc f hf pa hpa)

theorem FlowsTo.lower_self {e : Expr} {l : Level} (h : e.FlowsTo g A fn l) (hAB : Lowers g A B) :
    e.FlowsTo g B fn l :=
  h.lower hAB ((levelIn_mono hAB.le e).trans h.level_le)

end Expr

namespace Stmt

variable {g : Globals} {A B : Assignment} {fn : String} {ss : List Stmt}

/-- A scope whose own variables keep their levels. -/
theorem FitIn.lower (h : FitIn g A fn ss) (hAB : Expr.Lowers g A B)
    (hvars : ∀ x, B (.var ⟨fn, x⟩) = A (.var ⟨fn, x⟩)) : FitIn g B fn ss where
  stmts s hs := by
    have hfits := h.stmts s hs
    cases s with
    | decl type x data init =>
        intro e he
        rw [hvars]
        exact (hfits e he).lower_self hAB
    | assign x e =>
        rw [Fits, hvars]
        exact hfits.lower_self hAB
    | sample x dist args =>
        rw [Fits, hvars]
        exact ⟨hfits.1, fun e he ↦ (hfits.2 e he).lower_self hAB⟩
    | _ => trivial
  data type x init hmem := (hvars x).trans (h.data type x init hmem)
  unassigned type x hmem hno := (hvars x).symm ▸ h.unassigned type x hmem hno

end Stmt

namespace Typing

variable {prims : Primitives} {p : Program} {t : Typing}

theorem eq_data_of_rank_le {l : Level}
    (h : Order.performance.rank l ≤ Order.performance.rank .data) : l = .data := by
  cases l with
  | data => rfl
  | model => exact absurd h (by decide)
  | genquant => exact absurd h (by decide)

/-- In the best levels, a result is `data` if the expression that gives it is. -/
theorem Describes.result_eq_data (h : t.Describes prims p []) (hscoped : p.WellScoped prims)
    {f : Func} (hf : f ∈ p.funcs) {e : Expr} (he : f.result = some e)
    (hlevel : e.levelIn (p.globals prims) (Draft.levels t.levels.level) f.name = .data) :
    Draft.levels t.levels.level (.result f.name) = .data := by
  have hA := h.fits
  generalize hA' : Draft.levels t.levels.level = A at hlevel hA
  have hAB : Expr.Lowers (p.globals prims) A (Function.update A (.result f.name) .data) := by
    refine ⟨fun s ↦ ?_, fun f' _ x ↦ Function.update_of_ne (by simp) _ _⟩
    by_cases hs : s = .result f.name
    · rw [hs, Function.update_self]
      exact Level.data_le _
    · rw [Function.update_of_ne hs]
  have hvars (fn x : String) : Function.update A (.result f.name) .data (.var ⟨fn, x⟩) =
      A (.var ⟨fn, x⟩) := Function.update_of_ne (by simp) _ _
  have hfits : p.Fits prims [] (Function.update A (.result f.name) .data) := by
    refine ⟨fun f' hf' ↦ (hA.bodies f' hf').lower hAB (hvars _), fun f' hf' e' he' ↦ ?_,
      hA.stmts.lower hAB (hvars _), fun _ _ hx ↦ (by cases hx)⟩
    by_cases hname : f'.name = f.name
    · obtain rfl : f' = f := List.inj_on_of_nodup_map hscoped.funcs_nodup hf' hf hname
      obtain rfl : e = e' := Option.some.inj (he.symm.trans he')
      rw [Function.update_self]
      refine (hA.results f' hf' e he').lower hAB ?_
      exact (Expr.levelIn_mono hAB.le e).trans hlevel.le
    · rw [Function.update_of_ne (by simpa using hname)]
      exact (hA.results f' hf' e' he').lower_self hAB
  have hbest := h.best _ hfits (.result f.name) (Program.result_mem_slots hf)
  rw [Function.update_self] at hbest
  rw [← hA']
  exact eq_data_of_rank_le hbest

end Typing

/-! ### Following `data` back -/

namespace Inlining

namespace Leveling

variable (L : Leveling)

/-- Fresh variables are no lower than their origins. -/
def Bounds (s : State) : Prop :=
  ∀ o ∈ s.origins, L.level (.var ⟨o.2.func, o.2.name⟩) ≤ L.target (.var ⟨"", o.1⟩)

/-- A variable of a scope is `data` if what it has become is. -/
def Reflects (fn : String) (Γ : String → Prop) (r : String → String) : Prop :=
  ∀ x, Γ x → L.target (.var ⟨"", r x⟩) = .data → L.level (.var ⟨fn, x⟩) = .data

/-- A result is `data` if the expression that gives it is. -/
def Settles : Prop :=
  ∀ f ∈ L.source.funcs, ∀ e, f.result = some e →
    e.levelIn (L.source.globals L.prims) L.level f.name = .data →
    L.level (.result f.name) = .data

variable {L} {s s' : State}

theorem Bounds.of_grows (h : L.Bounds s') (hgrows : s.Grows s') : L.Bounds s :=
  fun o ho ↦ h o (hgrows.origins o ho)

theorem Bounds.reflects {fn : String} {scope : List String} {r : String → String}
    (h : L.Bounds s') (henters : Enters fn scope r s s') : L.Reflects fn (· ∈ scope) r := by
  intro x hx hdata
  have hmem : (r x, ⟨fn, x, s.calls + 1⟩) ∈ s'.origins := by
    rw [henters.origins]
    exact List.mem_append_right _ (List.mem_map.mpr ⟨x, hx, rfl⟩)
  exact Level.le_data_iff.mp (hdata ▸ h _ hmem)

end Leveling

section

variable {L : Leveling} {g : CallGraph}

mutual

/-- An expression is `data` if what is left of it is. The statements of the copies do not matter:
only their results are left. -/
theorem Inlines.levelIn_eq_data (hg : Sound L.prims L.source g) (hsettles : L.Settles) :
    ∀ {room : Nat} {r : String → String} {e e' : Expr} {pre : List Stmt} {s s' : State},
      Inlines g room r e s pre e' s' → ∀ {fn : String} {Γ : String → Prop},
        e.Scoped (L.source.globals L.prims) Γ → L.Reflects fn Γ r → L.Bounds s' →
        e'.levelIn (bare L.prims) L.target "" = .data →
        e.levelIn (L.source.globals L.prims) L.level fn = .data
  | _, _, _, _, _, _, _, .lit, _, _, _, _, _, _ => rfl
  | _, _, _, _, _, _, _, .var, _, _, hscoped, hreflects, _, hdata =>
      hreflects _ (hscoped.vars _ (List.mem_singleton_self _)) hdata
  | _, _, _, _, _, _, _, .unary hx, _, _, hscoped, hreflects, hbounds, hdata =>
      hx.levelIn_eq_data hg hsettles (Expr.scoped_unary.mp hscoped) hreflects hbounds hdata
  | _, _, _, _, _, _, _, .binary hx hy, _, _, hscoped, hreflects, hbounds, hdata => by
      obtain ⟨hscopedX, hscopedY⟩ := Expr.scoped_binary.mp hscoped
      obtain ⟨hdataX, hdataY⟩ := Level.max_eq_data_iff.mp hdata
      exact Level.max_eq_data_iff.mpr
        ⟨hx.levelIn_eq_data hg hsettles hscopedX hreflects (hbounds.of_grows hy.grows) hdataX,
          hy.levelIn_eq_data hg hsettles hscopedY hreflects hbounds hdataY⟩
  | _, _, _, _, _, _, _, .index hx hi, _, _, hscoped, hreflects, hbounds, hdata => by
      obtain ⟨hscopedX, hscopedI⟩ := Expr.scoped_index.mp hscoped
      obtain ⟨hdataX, hdataI⟩ := Level.max_eq_data_iff.mp hdata
      exact Level.max_eq_data_iff.mpr
        ⟨hx.levelIn_eq_data hg hsettles hscopedX hreflects (hbounds.of_grows hi.grows) hdataX,
          hi.levelInAll_eq_data hg hsettles hscopedI hreflects hbounds hdataI⟩
  | _, _, .call callee _, _, _, _, _, .prim hfn hargs, _, _, hscoped, hreflects, hbounds,
      hdata => by
      have hprim : (L.source.globals L.prims).func? callee = none := (hg.func? callee).trans hfn
      have hbare : (bare L.prims).func? callee = none := rfl
      rw [Expr.levelIn, hbare] at hdata
      obtain ⟨hcall, hdataArgs⟩ := Level.max_eq_data_iff.mp hdata
      rw [Expr.levelIn, hprim]
      exact Level.max_eq_data_iff.mpr ⟨hcall, hargs.levelInAll_eq_data hg hsettles
        (Expr.scoped_call.mp hscoped).1 hreflects hbounds hdataArgs⟩
  | _, _, .call callee _, _, _, _, _, .user hfn _ hresult _ henters hbody hpost, _, _, _, _,
      hbounds, hdata => by
      have hfunc : (L.source.globals L.prims).func? callee = some _ := (hg.func? callee).trans hfn
      obtain ⟨hname, hmem⟩ := Func.of_named?_eq_some hfunc
      have hgrows := hbody.grows.trans hpost.grows
      rw [Expr.levelIn, hfunc, Option.isSome_some, if_pos rfl, ← hname]
      refine hsettles _ hmem _ hresult ?_
      exact hpost.levelIn_eq_data hg hsettles (hg.results _ _ hfn _ hresult)
        ((hbounds.of_grows hgrows).reflects henters) hbounds hdata

theorem InlinesAll.levelInAll_eq_data (hg : Sound L.prims L.source g) (hsettles : L.Settles) :
    ∀ {room : Nat} {r : String → String} {es es' : List Expr} {pre : List Stmt} {s s' : State},
      InlinesAll g room r es s pre es' s' → ∀ {fn : String} {Γ : String → Prop},
        Expr.ScopedAll (L.source.globals L.prims) Γ es → L.Reflects fn Γ r → L.Bounds s' →
        Expr.levelInAll (bare L.prims) L.target "" es' = .data →
        Expr.levelInAll (L.source.globals L.prims) L.level fn es = .data
  | _, _, _, _, _, _, _, .nil, _, _, _, _, _, _ => rfl
  | _, _, _, _, _, _, _, .cons he hes, _, _, hscoped, hreflects, hbounds, hdata => by
      obtain ⟨hscopedE, hscopedEs⟩ := Expr.scopedAll_cons.mp hscoped
      obtain ⟨hdataE, hdataEs⟩ := Level.max_eq_data_iff.mp hdata
      exact Level.max_eq_data_iff.mpr
        ⟨he.levelIn_eq_data hg hsettles hscopedE hreflects (hbounds.of_grows hes.grows) hdataE,
          hes.levelInAll_eq_data hg hsettles hscopedEs hreflects hbounds hdataEs⟩

end

end

/-! ### Which variables are assigned -/

section

variable {prims : Primitives} {p : Program} {g : CallGraph}

theorem assign_notMem_inits {f : Func} {r : String → String} {values : List Expr} {y : String}
    {v : Expr} : .assign y v ∉ inits f r values := by
  intro hmem
  obtain ⟨pv, -, heq⟩ := List.mem_map.mp hmem
  cases heq

mutual

/-- The statements of the calls in an expression only assign new variables. -/
theorem Inlines.assigned (hg : Sound prims p g) :
    ∀ {room : Nat} {r : String → String} {e e' : Expr} {pre : List Stmt} {s s' : State},
      Inlines g room r e s pre e' s' → ∀ {y : String} {v : Expr}, .assign y v ∈ pre →
        y ∉ s.names.taken
  | _, _, _, _, _, _, _, .lit, _, _, hmem => by cases hmem
  | _, _, _, _, _, _, _, .var, _, _, hmem => by cases hmem
  | _, _, _, _, _, _, _, .unary hx, _, _, hmem => hx.assigned hg hmem
  | _, _, _, _, _, _, _, .binary hx hy, _, _, hmem => by
      rcases List.mem_append.mp hmem with hmem | hmem
      · exact hx.assigned hg hmem
      · exact fun htaken ↦ hy.assigned hg hmem (hx.grows.taken _ htaken)
  | _, _, _, _, _, _, _, .index hx hi, _, _, hmem => by
      rcases List.mem_append.mp hmem with hmem | hmem
      · exact hx.assigned hg hmem
      · exact fun htaken ↦ hi.assigned hg hmem (hx.grows.taken _ htaken)
  | _, _, _, _, _, _, _, .prim _ hargs, _, _, hmem => hargs.assigned hg hmem
  | _, _, _, _, _, _, _, .user hfn _ _ hargs henters hbody hpost, y, v, hmem => by
      intro htaken
      have htaken₁ := hargs.grows.taken y htaken
      have htaken₂ := henters.grows.taken y htaken₁
      rcases List.mem_append.mp hmem with hmem | hmem
      · exact hargs.assigned hg hmem htaken
      rcases List.mem_append.mp hmem with hmem | hmem
      · rcases List.mem_append.mp hmem with hmem | hmem
        · exact assign_notMem_inits hmem
        · rcases hbody.assigned hg hmem with hfree | ⟨x, v', hx, rfl⟩
          · exact hfree htaken₂
          · have hscope := (hg.bodies _ _ hfn).mem_of_mem_occurring hx (List.mem_cons_self ..)
            exact henters.fresh x hscope htaken₁
      · exact hpost.assigned hg hmem (hbody.grows.taken y htaken₂)

theorem InlinesAll.assigned (hg : Sound prims p g) :
    ∀ {room : Nat} {r : String → String} {es es' : List Expr} {pre : List Stmt} {s s' : State},
      InlinesAll g room r es s pre es' s' → ∀ {y : String} {v : Expr}, .assign y v ∈ pre →
        y ∉ s.names.taken
  | _, _, _, _, _, _, _, .nil, _, _, hmem => by cases hmem
  | _, _, _, _, _, _, _, .cons he hes, _, _, hmem => by
      rcases List.mem_append.mp hmem with hmem | hmem
      · exact he.assigned hg hmem
      · exact fun htaken ↦ hes.assigned hg hmem (he.grows.taken _ htaken)

theorem InlinesStmt.assigned (hg : Sound prims p g) :
    ∀ {room : Nat} {r : String → String} {t : Stmt} {out : List Stmt} {s s' : State},
      InlinesStmt g room r t s out s' → ∀ {y : String} {v : Expr}, .assign y v ∈ out →
        y ∉ s.names.taken ∨ ∃ x v', t = .assign x v' ∧ y = r x
  | _, _, _, _, _, _, .declare, _, _, hmem => by cases List.mem_singleton.mp hmem
  | _, _, _, _, _, _, .define he, _, _, hmem => by
      rcases List.mem_append.mp hmem with hmem | hmem
      · exact Or.inl (he.assigned hg hmem)
      · cases List.mem_singleton.mp hmem
  | _, _, _, _, _, _, .assign he, _, _, hmem => by
      rcases List.mem_append.mp hmem with hmem | hmem
      · exact Or.inl (he.assigned hg hmem)
      · cases List.mem_singleton.mp hmem
        exact Or.inr ⟨_, _, rfl, rfl⟩
  | _, _, _, _, _, _, .sample hargs, _, _, hmem => by
      rcases List.mem_append.mp hmem with hmem | hmem
      · exact Or.inl (hargs.assigned hg hmem)
      · cases List.mem_singleton.mp hmem

/-- Apart from new variables, statements only assign what they assign in the source. -/
theorem InlinesStmts.assigned (hg : Sound prims p g) :
    ∀ {room : Nat} {r : String → String} {ts out : List Stmt} {s s' : State},
      InlinesStmts g room r ts s out s' → ∀ {y : String} {v : Expr}, .assign y v ∈ out →
        y ∉ s.names.taken ∨ ∃ x v', .assign x v' ∈ ts ∧ y = r x
  | _, _, _, _, _, _, .nil, _, _, hmem => by cases hmem
  | _, _, _, _, _, _, .cons ht hts, _, _, hmem => by
      rcases List.mem_append.mp hmem with hmem | hmem
      · refine (ht.assigned hg hmem).imp_right fun ⟨x, v', hx, hy⟩ ↦ ?_
        exact ⟨x, v', hx ▸ List.mem_cons_self .., hy⟩
      · rcases hts.assigned hg hmem with hfree | ⟨x, v', hx, hy⟩
        · exact Or.inl fun htaken ↦ hfree (ht.grows.taken _ htaken)
        · exact Or.inr ⟨x, v', List.mem_cons_of_mem _ hx, hy⟩

end

/-- What becomes of one of several statements is part of what becomes of them all. -/
theorem InlinesStmts.exists_of_mem {room : Nat} {r : String → String} {t : Stmt} :
    ∀ {ts out : List Stmt} {s s' : State}, InlinesStmts g room r ts s out s' → t ∈ ts →
      ∃ s₁ out₁ s₂, InlinesStmt g room r t s₁ out₁ s₂ ∧ (∀ u ∈ out₁, u ∈ out) ∧ s₂.Grows s'
  | _, _, _, _, .nil, hmem => by cases hmem
  | _, _, _, _, .cons ht hts, hmem => by
      rcases List.mem_cons.mp hmem with rfl | hmem
      · exact ⟨_, _, _, ht, fun u hu ↦ List.mem_append_left _ hu, hts.grows⟩
      · obtain ⟨s₁, out₁, s₂, ht', hsub, hgrows⟩ := hts.exists_of_mem hmem
        exact ⟨s₁, out₁, s₂, ht', fun u hu ↦ List.mem_append_right _ (hsub u hu), hgrows⟩

end

end Inlining

/-! ### Whole programs -/

namespace Assignment

/-- Levels of a source, made `data` where an inlined program has `data` at top level. -/
def reflected (A B : Assignment) : Assignment
  | .var id => if id.func = "" ∧ B (.var ⟨"", id.name⟩) = .data then .data else A (.var id)
  | .result fn => A (.result fn)

variable {A B : Assignment}

theorem reflected_le (s : Slot) : A.reflected B s ≤ A s := by
  cases s with
  | var id =>
      rw [reflected]
      split
      · exact Level.data_le _
      · exact le_rfl
  | result fn => exact le_rfl

theorem reflected_local {fn : String} (hfn : fn ≠ "") (x : String) :
    A.reflected B (.var ⟨fn, x⟩) = A (.var ⟨fn, x⟩) :=
  if_neg fun h ↦ hfn h.1

theorem reflected_data {x : String} (h : B (.var ⟨"", x⟩) = .data) :
    A.reflected B (.var ⟨"", x⟩) = .data :=
  if_pos ⟨rfl, h⟩

theorem reflected_other {x : String} (h : B (.var ⟨"", x⟩) ≠ .data) :
    A.reflected B (.var ⟨"", x⟩) = A (.var ⟨"", x⟩) :=
  if_neg fun h' ↦ h h'.2

end Assignment

namespace Elaborated

variable {prims : Primitives} {p : Program} {l : Limits} {e : Elaborated} {A B : Assignment}
  {seeds : Seeds}

/-- What the levels of two programs must be like so that `data` can be followed back. -/
structure Reflective (prims : Primitives) (p : Program) (A B : Assignment) : Prop where
  funcs : ∀ f ∈ p.funcs, f.name ≠ ""
  settles : Inlining.Leveling.Settles ⟨prims, p, A, B⟩

theorem Reflective.lowers (h : Reflective prims p A B) :
    Expr.Lowers (p.globals prims) A (A.reflected B) :=
  ⟨Assignment.reflected_le, fun f hf ↦ Assignment.reflected_local (h.funcs f hf)⟩

theorem Reflective.settles_reflected (h : Reflective prims p A B) :
    Inlining.Leveling.Settles ⟨prims, p, A.reflected B, B⟩ := by
  intro f hf v hv hdata
  have hresult : ∀ f ∈ (p.globals prims).funcs,
      A.reflected B (.result f.name) = A (.result f.name) := fun _ _ ↦ rfl
  have hlevel : v.levelIn (p.globals prims) (A.reflected B) f.name =
      v.levelIn (p.globals prims) A f.name :=
    Expr.levelIn_congr hresult fun x _ ↦ Assignment.reflected_local (h.funcs f hf) x
  exact h.settles f hf v hv (hlevel.symm.trans hdata)

/-- An initialiser or an assigned value, beside what is left of it. -/
theorem Reflective.flowsTo (h : Reflective prims p A B) {g : CallGraph}
    (hg : Inlining.Sound prims p g) {room : Nat} {v v' : Expr} {pre : List Stmt}
    {s s' : Inlining.State} (hv : Inlining.Inlines g room id v s pre v' s') {Γ : String → Prop}
    (hscoped : v.Scoped (p.globals prims) Γ)
    (hbounds : Inlining.Leveling.Bounds ⟨prims, p, A, B⟩ s') {x : String}
    (hflows : v.FlowsTo (p.globals prims) A "" (A (.var ⟨"", x⟩)))
    (hflows' : v'.FlowsTo (Inlining.bare prims) B "" (B (.var ⟨"", x⟩))) :
    v.FlowsTo (p.globals prims) (A.reflected B) "" (A.reflected B (.var ⟨"", x⟩)) := by
  by_cases hx : B (.var ⟨"", x⟩) = .data
  · rw [Assignment.reflected_data hx]
    refine hflows.lower h.lowers (Level.le_data_iff.mpr ?_)
    have hdata := Level.le_data_iff.mp (hx ▸ hflows'.level_le)
    exact hv.levelIn_eq_data (L := ⟨prims, p, A.reflected B, B⟩) hg h.settles_reflected hscoped
      (fun y _ hy ↦ Assignment.reflected_data hy)
      (fun o ho ↦ (Assignment.reflected_le _).trans (hbounds o ho)) hdata
  · rw [Assignment.reflected_other hx]
    exact hflows.lower_self h.lowers

/-- If fresh variables are no lower than their origins, the source can have `data` wherever the
inlined program has it. -/
theorem Inlined.fits_reflected (he : Inlined l p e) (hp : p.WellScoped prims)
    (h : Reflective prims p A B) (hA : p.Fits prims [] A) (hB : e.program.Fits prims seeds B)
    (hbounds : ∀ o ∈ e.origins, A (.var ⟨o.2.func, o.2.name⟩) ≤ B (.var ⟨"", o.1⟩)) :
    p.Fits prims [] (A.reflected B) := by
  have hflat := (he.elaborates hp).flat
  obtain ⟨s, hout, horigins⟩ := he
  have hfits : Stmt.FitIn (Inlining.bare prims) B "" e.stmts := hflat ▸ hB.stmts
  replace hbounds : Inlining.Leveling.Bounds ⟨prims, p, A, B⟩ s :=
    fun o ho ↦ hbounds o (horigins ▸ ho)
  refine ⟨fun f hf ↦ (hA.bodies f hf).lower h.lowers (Assignment.reflected_local (h.funcs f hf)),
    fun f hf v hv ↦ (hA.results f hf v hv).lower_self h.lowers, ⟨fun t ht ↦ ?_, ?_, ?_⟩,
    fun _ _ hx ↦ (by cases hx)⟩
  · obtain ⟨before, hscoped⟩ := hp.stmts.scopedAfter ht
    have hsource := hA.stmts.stmts t ht
    obtain ⟨s₁, out₁, s₂, ht', hsub, hgrows⟩ := hout.exists_of_mem ht
    have htarget (u : Stmt) (hu : u ∈ out₁) : u.Fits (Inlining.bare prims) B "" :=
      hfits.stmts u (hsub u hu)
    cases ht' with
    | declare => exact fun _ hv ↦ (by cases hv)
    | define hv =>
        rintro _ ⟨⟩
        exact h.flowsTo hp.sound hv (hscoped.2 _ rfl) (hbounds.of_grows hgrows) (hsource _ rfl)
          (htarget _ (List.mem_append_right _ (List.mem_singleton_self _)) _ rfl)
    | assign hv =>
        exact h.flowsTo hp.sound hv hscoped.2.2 (hbounds.of_grows hgrows) hsource
          (htarget _ (List.mem_append_right _ (List.mem_singleton_self _)))
    | sample hargs =>
        exact ⟨(Assignment.reflected_le _).trans hsource.1,
          fun v hv ↦ (hsource.2 v hv).lower_self h.lowers⟩
  · intro type x init hmem
    have hdata := hA.stmts.data type x init hmem
    exact Level.le_data_iff.mp ((Assignment.reflected_le _).trans hdata.le)
  · intro type x hmem hno
    have hmodel : .model ≤ B (.var ⟨"", x⟩) := by
      obtain ⟨s₁, out₁, s₂, ht', hsub, -⟩ := hout.exists_of_mem hmem
      cases ht'
      refine hfits.unassigned type x (hsub _ (List.mem_singleton_self _)) fun v hv ↦ ?_
      rcases hout.assigned hp.sound hv with hfree | ⟨y, v', hv', rfl⟩
      · exact hfree ((Inlining.renames_start l.sep p).taken x (Stmt.mem_declNames_of_mem hmem))
      · exact hno v' hv'
    rw [Assignment.reflected_other fun hdata ↦ absurd (hdata ▸ hmodel) (by decide)]
    exact hA.stmts.unassigned type x hmem hno

end Elaborated

end Stratify
