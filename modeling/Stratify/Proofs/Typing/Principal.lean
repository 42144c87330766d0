import Stratify.Proofs.Typing.Constraints

/-!
# Principal typings

Inference succeeds exactly if the program is well scoped and some assignment of levels fits it. The
levels it finds fit, and no fitting assignment gives any slot a level of better performance.
-/

namespace Stratify

namespace Seeds

theorem validFor_nil (p : Program) : ValidFor [] p :=
  fun _ h ↦ (by cases h)

theorem mem_sorted {seeds : Seeds} {s : String × LevelCode} : s ∈ seeds.sorted ↔ s ∈ seeds :=
  List.mem_mergeSort

theorem hold_sorted {seeds : Seeds} {A : Assignment} : seeds.sorted.Hold A ↔ seeds.Hold A := by
  simp only [Hold, mem_sorted]

theorem hold_cons {x : String} {c : LevelCode} {seeds : Seeds} {A : Assignment} {l : Level}
    (hl : c.level? = some l) :
    Hold ((x, c) :: seeds) A ↔ l ≤ A (.var ⟨"", x⟩) ∧ seeds.Hold A := by
  constructor
  · exact fun h ↦ ⟨h x c (List.mem_cons_self ..) l hl,
      fun y b hy ↦ h y b (List.mem_cons_of_mem _ hy)⟩
  · rintro ⟨hx, hrest⟩ y b hy m hm
    rcases List.mem_cons.mp hy with heq | hy
    · cases heq
      cases Option.some.inj (hl.symm.trans hm)
      exact hx
    · exact hrest y b hy m hm

end Seeds

namespace Draft

variable {d : Draft}

theorem seed_spec (hd : d.Good) {seeds : Seeds}
    (hseeds : ∀ s ∈ seeds, d.InScope "" s.1 ∧ s.2.level?.isSome = true) :
    ∃ d', seed seeds d = .ok d' ∧ d'.env = d.env ∧ d.Adds d' fun ρ ↦ seeds.Hold (levels ρ) := by
  induction seeds generalizing d with
  | nil => exact ⟨d, rfl, rfl, (Adds.refl hd).congr fun ρ ↦ by simp [Seeds.Hold]⟩
  | cons s seeds ih =>
      obtain ⟨x, c⟩ := s
      rw [List.forall_mem_cons] at hseeds
      obtain ⟨v, hv⟩ := Option.isSome_iff_exists.mp hseeds.1.1
      obtain ⟨l, hl⟩ := Option.isSome_iff_exists.mp hseeds.1.2
      obtain ⟨hid, hvisible, -⟩ := hd.vars _ v hv
      have hkey : v.key = VarId.key ⟨"", x⟩ := congrArg VarId.key hid
      have hlow := adds_atLeast hd hvisible.known l .signature
      obtain ⟨d', hok, henv, hadds⟩ := ih hlow.good hseeds.2
      refine ⟨d', ?_, henv, hlow.trans hadds ?_ fun ρ ↦ Seeds.hold_cons hl⟩
      · simp only [seed, hv, hl, hkey]
        exact hok
      · intro ρ ρ' hagree hhold y b hy m hm
        have hlevel : levels ρ' (.var ⟨"", y⟩) = levels ρ (.var ⟨"", y⟩) :=
          hagree.visible (hd.visible_of_inScope (hseeds.2 _ hy).1)
        rw [hlevel]
        exact hhold y b hy m hm

end Draft

namespace Program

variable {p : Program} {prims : Primitives} {seeds : Seeds}

/-- Whether levels fit only depends on those of the program's own slots. -/
theorem Fits.congr (hscoped : p.WellScoped prims) (hseeds : seeds.ValidFor p) {A B : Assignment}
    (h : ∀ s ∈ p.slots, B s = A s) (hA : p.Fits prims seeds A) : p.Fits prims seeds B := by
  have hresult : ∀ f ∈ p.funcs, B (.result f.name) = A (.result f.name) :=
    fun f hf ↦ h _ (result_mem_slots hf)
  have hparam : ∀ f ∈ p.funcs, ∀ q ∈ f.params,
      B (.var ⟨f.name, q.name⟩) = A (.var ⟨f.name, q.name⟩) :=
    fun f hf q hq ↦ h _ (local_mem_slots hf (List.mem_append_left _ (List.mem_map_of_mem hq)))
  refine ⟨fun f hf ↦ ?_, fun f hf e he ↦ ?_, ?_, fun x c hx l hl ↦ ?_⟩
  · exact (hA.bodies f hf).congr hresult hparam (hscoped.bodies f hf)
      fun x hx ↦ h _ (local_mem_slots hf hx)
  · obtain ⟨e', he', hscope⟩ := hscoped.results f hf
    cases Option.some.inj (he.symm.trans he')
    rw [hresult f hf]
    exact (Expr.flowsTo_congr hresult hparam fun x hx ↦
      h _ (local_mem_slots hf (hscope.vars x hx))).mpr (hA.results f hf e he)
  · exact hA.stmts.congr hresult hparam hscoped.stmts fun x hx ↦ h _ (var_mem_slots hx)
  · rw [h _ (var_mem_slots (hseeds _ hx).1)]
    exact hA.seeds x c hx l hl

/-- An assignment to slots as one to keys. -/
def keyed (p : Program) (A : Assignment) (key : String) : Level :=
  ((p.slots.find? fun s ↦ s.key == key).map A).getD .data

theorem Apart.levels_keyed (h : p.Apart) (A : Assignment) {s : Slot} (hs : s ∈ p.slots) :
    Draft.levels (p.keyed A) s = A s := by
  have hsome : (p.slots.find? fun t ↦ t.key == s.key).isSome = true :=
    List.find?_isSome.mpr ⟨s, hs, by simp⟩
  obtain ⟨t, ht⟩ := Option.isSome_iff_exists.mp hsome
  have heq : t = s :=
    h.injective t (List.mem_of_find?_eq_some ht) s hs (by simpa using List.find?_some ht)
  rw [Draft.levels, keyed, ht, heq]
  rfl

end Program

/-- What inference finds: the variables of every scope, and levels that fit and are the best. -/
structure Typing.Describes (t : Typing) (prims : Primitives) (p : Program) (seeds : Seeds) :
    Prop where
  coherent : Env.Coherent t.env
  stmts : Env.vars t.env "" = Stmt.scopeVars "" [] (Stmt.flatten p.stmts)
  bodies : ∀ f ∈ p.funcs, Env.vars t.env f.name =
    Stmt.scopeVars f.name f.params (Stmt.flatten f.stmts)
  signatures : t.signatures = p.funcs.map fun f ↦ Signature.read t.env t.levels f.name
  levels : ∀ s ∈ p.slots, t.levels.get? s.key = some (t.levels.level s.key)
  fits : p.Fits prims seeds (Draft.levels t.levels.level)
  best : ∀ A, p.Fits prims seeds A → ∀ s ∈ p.slots,
    Order.performance.rank (t.levels.level s.key) ≤ Order.performance.rank (A s)

/-- The best levels of two programs agree at two slots, if an assignment with the level of the one
slot fits the program of the other. -/
theorem Typing.Describes.level_eq_of_fits {t t' : Typing} {prims : Primitives} {p p' : Program}
    {seeds seeds' : Seeds} (h : t.Describes prims p seeds) (h' : t'.Describes prims p' seeds')
    {s s' : Slot} (hs : s ∈ p.slots) (hs' : s' ∈ p'.slots) {A A' : Assignment}
    (hA : p.Fits prims seeds A) (hA' : p'.Fits prims seeds' A')
    (hlevel : A s = t'.levels.level s'.key) (hlevel' : A' s' = t.levels.level s.key) :
    t'.levels.level s'.key = t.levels.level s.key := by
  have hle := h.best A hA s hs
  have hge := h'.best A' hA' s' hs'
  rw [hlevel] at hle
  rw [hlevel'] at hge
  exact Order.rank_injective _ (Nat.le_antisymm hge hle)

namespace Draft

variable {d : Draft}

theorem Drafts.has {prims : Primitives} {p : Program} (h : Drafts prims p d) {s : Slot}
    (hs : s ∈ p.slots) : d.system.has s.key = true := by
  have hvar {fn x : String} {params : List Param} {ss : List Stmt} (hat : d.At fn params ss)
      (hx : x ∈ params.map Param.name ++ Stmt.declNames ss) :
      d.system.has (VarId.key ⟨fn, x⟩) = true := by
    have hin : d.InScope fn x := (congrFun (hat.inScope h.adds.good) x).mpr hx
    obtain ⟨v, hv⟩ := Option.isSome_iff_exists.mp hin
    exact (h.adds.good.vars _ v hv).2.2
  rcases Program.mem_slots.mp hs with ⟨x, hx, rfl⟩ | ⟨f, hf, rfl | ⟨x, hx, rfl⟩⟩
  · exact hvar h.stmts hx
  · exact h.has_result f hf
  · exact hvar (h.bodies f hf) hx

end Draft

namespace Typing

variable {prims : Primitives} {p : Program} {seeds : Seeds}

theorem fits_iff_seeds {A : Assignment} :
    p.Fits prims seeds A ↔ p.Fits prims [] A ∧ seeds.sorted.Hold A := by
  rw [Seeds.hold_sorted]
  constructor
  · exact fun h ↦ ⟨⟨h.bodies, h.results, h.stmts, by simp [Seeds.Hold]⟩, h.seeds⟩
  · exact fun h ↦ ⟨h.1.bodies, h.1.results, h.1.stmts, h.2⟩

/-- Reading the levels of the best solution off a draft. -/
theorem read_describes {d : Draft} {sol : Solution} (hapart : p.Apart)
    (hscoped : p.WellScoped prims) (hseeds : seeds.ValidFor p)
    (hbodies : ∀ f ∈ p.funcs, d.At f.name f.params (Stmt.flatten f.stmts))
    (hstmts : d.At "" [] (Stmt.flatten p.stmts))
    (hhas : ∀ s ∈ p.slots, d.system.has s.key = true)
    (hadds : Draft.empty.Adds d fun ρ ↦ p.Fits prims seeds (Draft.levels ρ))
    (hsol : d.system.solve = .ok sol) : (read p d sol).Describes prims p seeds := by
  obtain ⟨hsat, hbest⟩ := LevelSystem.solve_ok_spec hadds.good.closed hsol
  refine ⟨hadds.good.coherent, hstmts.vars, fun f hf ↦ (hbodies f hf).vars, rfl,
    fun s hs ↦ (hbest _ (hhas s hs)).1, (hadds.sound _ hsat).2, fun A hA s hs ↦ ?_⟩
  have hkeyed : p.Fits prims seeds (Draft.levels (p.keyed A)) :=
    hA.congr hscoped hseeds fun s hs ↦ hapart.levels_keyed A hs
  obtain ⟨ρ, hagree, hρ⟩ := hadds.complete _ (fun c hc ↦ (by cases hc)) hkeyed
  have hlevel : ρ s.key = A s :=
    (hagree.visible (hapart.visible s hs)).trans (hapart.levels_keyed A hs)
  exact hlevel ▸ (hbest _ (hhas s hs)).2 ρ hρ

theorem infer_spec (hcomplete : p.complete = true) (hapart : p.Apart) (hseeds : seeds.ValidFor p) :
    Decides (p.WellScoped prims ∧ ∃ A, p.Fits prims seeds A)
      (fun t ↦ t.Describes prims p seeds) (infer prims p seeds) := by
  refine (Draft.ofProgram_spec prims hcomplete hapart.toKeysVisible).bind ?_
  intro hscoped d hd
  have hvalid : ∀ s ∈ seeds.sorted, d.InScope "" s.1 ∧ s.2.level?.isSome = true := by
    intro s hs
    obtain ⟨hdecl, hlevel⟩ := hseeds s (Seeds.mem_sorted.mp hs)
    exact ⟨(congrFun (hd.stmts.inScope hd.adds.good) s.1).mpr hdecl, hlevel⟩
  obtain ⟨d', hok, henv, hadds⟩ := Draft.seed_spec hd.adds.good hvalid
  have hall : Draft.empty.Adds d' fun ρ ↦ p.Fits prims seeds (Draft.levels ρ) := by
    refine hd.adds.trans hadds (fun ρ ρ' hagree hhold x c hx l hl ↦ ?_) fun ρ ↦ fits_iff_seeds
    have hvisible := hd.adds.good.visible_of_inScope (hvalid _ hx).1
    exact (hhold x c hx l hl).trans (hagree.visible hvisible).ge
  rw [hok]
  change Decides _ _ (d'.system.solve.mapError Fault.report >>= fun sol ↦ pure (read p d' sol))
  cases hsolve : d'.system.solve with
  | error e =>
      refine Decides.of_error ?_ rfl ?_
      · rintro ⟨A, hA⟩
        have hkeyed : p.Fits prims seeds (Draft.levels (p.keyed A)) :=
          hA.congr hscoped hseeds fun s hs ↦ hapart.levels_keyed A hs
        obtain ⟨ρ, -, hρ⟩ := hall.complete _ (fun c hc ↦ (by cases hc)) hkeyed
        obtain ⟨sol, hsol⟩ := (LevelSystem.solve_isOk_iff hall.good.closed).mpr ⟨ρ, hρ⟩
        rw [hsolve] at hsol
        cases hsol
      · rw [LevelSystem.solve_error_kind hall.good.closed hsolve]
        decide
  | ok sol =>
      have hdescribes : (read p d' sol).Describes prims p seeds :=
        read_describes hapart hscoped hseeds (fun f hf ↦ (hd.bodies f hf).of_env_eq henv)
          (hd.stmts.of_env_eq henv) (fun s hs ↦ hadds.has _ (hd.has hs)) hall hsolve
      exact Decides.of_ok ⟨_, hdescribes.fits⟩ rfl hdescribes

/-- Inference only accepts well-scoped programs, also if names are reserved. -/
theorem wellScoped_of_infer_eq_ok (hcomplete : p.complete = true) (hkeys : p.KeysVisible)
    {t : Typing} (h : infer prims p seeds = .ok t) : p.WellScoped prims :=
  (Draft.ofProgram_spec prims hcomplete hkeys).of_bind_eq_ok h

/-! ### Reading a typing -/

/-- The levels that a typing shows of a program. -/
structure Shows (t : Typing) (p : Program) (A : Assignment) : Prop where
  vars : ∀ x ∈ Stmt.declNames (Stmt.flatten p.stmts), t.level? x = some (A (.var ⟨"", x⟩))
  signatures : ∀ f ∈ p.funcs, t.signature? f.name = some {
    func := f.name
    params := f.paramNames.map fun x ↦ A (.var ⟨f.name, x⟩)
    vars := (f.paramNames ++ Stmt.declNames (Stmt.flatten f.stmts)).map fun x ↦
      (x, A (.var ⟨f.name, x⟩))
    result := A (.result f.name) }

theorem filter_param_scopeVars (fn : String) (params : List Param) (ss : List Stmt) :
    (Stmt.scopeVars fn params ss).filter Var.param =
      params.map fun q ↦ ⟨⟨fn, q.name⟩, q.type, false, true, true, .param q⟩ := by
  have hdecls : (ss.filterMap (Stmt.declVar? fn ss)).filter Var.param = [] := by
    rw [List.filter_eq_nil_iff]
    intro v hv
    obtain ⟨s, -, hvar⟩ := List.mem_filterMap.mp hv
    cases s with
    | decl type x data init =>
        cases hvar
        simp
    | _ => cases hvar
  rw [Stmt.scopeVars, List.filter_append, hdecls, List.append_nil, List.filter_eq_self]
  simp

theorem func_of_mem_scopeVars {fn : String} {params : List Param} {ss : List Stmt} {v : Var}
    (h : v ∈ Stmt.scopeVars fn params ss) : v.id.func = fn := by
  rcases List.mem_append.mp h with h | h
  · obtain ⟨q, -, rfl⟩ := List.mem_map.mp h
    rfl
  · obtain ⟨s, -, hvar⟩ := List.mem_filterMap.mp h
    cases s with
    | decl type x data init =>
        cases hvar
        rfl
    | _ => cases hvar

theorem Describes.shows {t : Typing} (h : t.Describes prims p seeds) :
    t.Shows p (Draft.levels t.levels.level) where
  vars x hx := by
    have hfind : (t.find? x).isSome = true := by
      rw [find?, Env.find?_isSome h.coherent, h.stmts, Stmt.names_scopeVars]
      exact hx
    obtain ⟨v, hv⟩ := Option.isSome_iff_exists.mp hfind
    rw [level?, hv]
    exact h.levels _ (Program.var_mem_slots hx)
  signatures f hf := by
    have hsome : (t.signature? f.name).isSome = true := by
      rw [signature?, h.signatures]
      refine List.find?_isSome.mpr ⟨_, List.mem_map_of_mem hf, ?_⟩
      simp [Signature.read]
    obtain ⟨sig, hsig⟩ := Option.isSome_iff_exists.mp hsome
    have hname : sig.func = f.name := by simpa using List.find?_some hsig
    have hmem : sig ∈ t.signatures := List.mem_of_find?_eq_some hsig
    rw [h.signatures] at hmem
    obtain ⟨f', -, rfl⟩ := List.mem_map.mp hmem
    replace hname : f'.name = f.name := hname
    rw [hsig, hname, Signature.read, h.bodies f hf, filter_param_scopeVars, List.map_map]
    congr 2
    · rw [Func.paramNames, List.map_map]
      rfl
    · rw [Func.paramNames, ← Stmt.names_scopeVars f.name f.params, List.map_map]
      refine List.map_congr_left fun v hv ↦ ?_
      simp only [Function.comp, Draft.levels, Slot.key, Var.key, ← func_of_mem_scopeVars hv]

/-- Inference succeeds exactly if the program is well scoped and has fitting levels. The typing it
gives shows fitting levels that are the best under the performance order, slot by slot. -/
theorem infer_principal (hcomplete : p.complete = true) (hnames : p.NamedByIdentifiers)
    (hseeds : seeds.ValidFor p) :
    ((∃ t, infer prims p seeds = .ok t) ↔ p.WellScoped prims ∧ ∃ A, p.Fits prims seeds A) ∧
      ∀ t, infer prims p seeds = .ok t → ∃ A, p.Fits prims seeds A ∧ t.Shows p A ∧
        ∀ B, p.Fits prims seeds B → ∀ s ∈ p.slots,
          Order.performance.rank (A s) ≤ Order.performance.rank (B s) := by
  have hspec : Decides _ _ (infer prims p seeds) := infer_spec hcomplete hnames.apart hseeds
  refine ⟨hspec.ok_iff, fun t ht ↦ ?_⟩
  have hdescribes := (hspec.of_eq_ok ht).2
  exact ⟨_, hdescribes.fits, hdescribes.shows, hdescribes.best⟩

end Typing

namespace Program

/-- A model whose functions are called more than once, one of them by the other. -/
def shrinkage : Program where
  funcs := [
    { name := "shifted"
      params := [⟨"real", "m"⟩, ⟨"real", "s"⟩]
      body := some [
        .decl "real" "e" false none,
        .sample "e" "normal" [.lit .int "0", .var "s"],
        .assign "m" (.binary .add (.var "m") (.var "e"))]
      result := some (.var "m") },
    { name := "twice"
      params := [⟨"real", "x"⟩]
      body := some [.decl "real" "y" false (some (.call "shifted" [.var "x", .lit .int "1"]))]
      result := some (.binary .add (.var "y")
        (.call "shifted" [.var "y", .call "exp" [.var "x"]])) }]
  stmts := [
    .decl "real" "obs" true none,
    .decl "real" "mu" false none,
    .sample "mu" "normal" [.lit .int "0", .lit .int "1"],
    .decl "real" "theta" false (some (.call "twice" [.var "mu"])),
    .sample "obs" "normal" [.var "theta", .lit .int "1"],
    .decl "real" "draw" false (some (.call "normal_rng" [.var "theta", .lit .int "1"]))]

end Program

namespace Typing

theorem infer_principal_shrinkage :
    ∃ t A, infer (.withExtra [] []) Program.shrinkage [("theta", ⟨1⟩)] = .ok t ∧
      Program.shrinkage.Fits (.withExtra [] []) [("theta", ⟨1⟩)] A ∧ t.Shows Program.shrinkage A ∧
        ∀ B, Program.shrinkage.Fits (.withExtra [] []) [("theta", ⟨1⟩)] B →
          ∀ s ∈ Program.shrinkage.slots,
            Order.performance.rank (A s) ≤ Order.performance.rank (B s) := by
  have hok : (infer (.withExtra [] []) Program.shrinkage [("theta", ⟨1⟩)]).toBool = true := by
    decide +kernel
  cases ht : infer (.withExtra [] []) Program.shrinkage [("theta", ⟨1⟩)] with
  | error e =>
      rw [ht] at hok
      cases hok
  | ok t =>
      obtain ⟨A, hA⟩ := (infer_principal (by decide) (by decide) (by decide)).2 t ht
      exact ⟨t, A, rfl, hA⟩

end Typing

end Stratify
