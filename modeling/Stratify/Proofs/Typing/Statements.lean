import Stratify.Proofs.Typing.Environment
import Stratify.Proofs.Typing.Generation

/-!
# The constraints of statements

Reading a statement succeeds exactly if the statement obeys the rules of its scope. It then adds
what the statement demands of the levels, and the environment has the variables of the scope up to
this statement. From that follows what the statements of a whole scope add.
-/

namespace Stratify

namespace Draft

variable {d d' : Draft} {g : Globals} {fn : String}

theorem Good.coherent (hd : d.Good) : Env.Coherent d.env :=
  fun id v hv ↦ (hd.vars id v hv).1

/-- Variables without constraints. -/
theorem adds_of_constraints_eq (hd : d.Good) (hexprs : d'.exprs = d.exprs)
    (hconstraints : d'.system.constraints = d.system.constraints)
    (hhas : ∀ key, d.system.has key = true → d'.system.has key = true)
    (hvars : ∀ id v, OrderedMap.get? d'.env id = some v →
      v.id = id ∧ Visible id.key ∧ d'.system.has id.key = true) :
    d.Adds d' fun _ ↦ True := by
  have hsat (ρ : String → Level) : d'.system.SatisfiedBy ρ ↔ d.system.SatisfiedBy ρ := by
    rw [LevelSystem.SatisfiedBy, LevelSystem.SatisfiedBy, hconstraints]
  refine ⟨⟨hd.closed.of_has hconstraints hhas, ?_, hvars⟩, hexprs.ge, hhas,
    fun ρ hρ ↦ ⟨(hsat ρ).mp hρ, trivial⟩, fun ρ hρ _ ↦ ⟨ρ, Agree.refl _ ρ, (hsat ρ).mpr hρ⟩⟩
  intro c hc key hkey
  obtain ⟨hne, hle⟩ := hd.known c (hconstraints ▸ hc) key hkey
  exact ⟨hne, fun n hn ↦ hexprs.symm ▸ hle n hn⟩

theorem has_addVar {key key' display : String} {source : Node} :
    (d.addVar key display source).system.has key' = true ↔
      d.system.has key' = true ∨ key' = key := by
  rw [addVar, LevelSystem.has_setSource, LevelSystem.has_addVar]

theorem constraints_addVar {key display : String} {source : Node} :
    (d.addVar key display source).system.constraints = d.system.constraints :=
  LevelSystem.constraints_addVar key display

/-- Putting a variable into the environment, together with its level. -/
theorem adds_declare? (hd : d.Good) {v : Var} {env : Env}
    (henv : Env.declare? d.env v = some env) (hkey : Visible v.key) (display : String)
    (source : Node) :
    d.Adds ({ d with env := env }.addVar v.key display source) fun _ ↦ True := by
  refine adds_of_constraints_eq hd rfl constraints_addVar
    (fun key h ↦ has_addVar.mpr (Or.inl h)) fun id w hw ↦ ?_
  have hid : w.id = id := Env.coherent_declare? hd.coherent henv id w hw
  unfold Env.declare? at henv
  split at henv
  · cases henv
  · cases henv
    replace hw : OrderedMap.get? (OrderedMap.insert d.env v.id v) id = some w := hw
    rw [OrderedMap.get?_insert] at hw
    split at hw
    · next heq => exact ⟨hid, heq ▸ hkey, has_addVar.mpr (Or.inr (heq ▸ rfl))⟩
    · obtain ⟨-, hvisible, hhas⟩ := hd.vars id w hw
      exact ⟨hid, hvisible, has_addVar.mpr (Or.inl hhas)⟩

theorem declare_spec (hd : d.Good) (s : Stmt) {v : Var} (hkey : Visible v.key) :
    Decides (¬ d.InScope v.id.func v.id.name)
      (fun d' ↦ Env.declare? d.env v = some d'.env ∧ d.Adds d' fun _ ↦ True) (declare s v d) := by
  unfold declare
  cases henv : Env.declare? d.env v with
  | none =>
      exact Decides.of_error (not_not_intro (Env.declare?_eq_none.mp henv)) rfl
        (by simp [Issue.kind])
  | some env =>
      have hnone : ¬ d.InScope v.id.func v.id.name := by
        rw [InScope, find?, Env.find?_of_declare? henv]
        simp
      exact Decides.of_ok hnone rfl ⟨rfl, adds_declare? hd henv hkey ..⟩

theorem adds_markAssigned (hd : d.Good) {id : VarId} {v : Var}
    (hv : OrderedMap.get? d.env id = some v) :
    d.Adds { d with env := Env.markAssigned d.env v } fun _ ↦ True := by
  refine adds_of_constraints_eq hd rfl rfl (fun _ h ↦ h) fun id' w hw ↦ ?_
  have hid := Env.coherent_markAssigned hd.coherent v id' w hw
  replace hw : OrderedMap.get? (Env.markAssigned d.env v) id' = some w := hw
  rw [Env.markAssigned, OrderedMap.get?_insert] at hw
  split at hw
  · next heq =>
      obtain ⟨hvid, hvisible, hhas⟩ := hd.vars id v hv
      rw [heq, hvid]
      cases hw
      exact ⟨hvid, hvisible, hhas⟩
  · obtain ⟨-, hvisible, hhas⟩ := hd.vars id' w hw
    exact ⟨hid, hvisible, hhas⟩

/-- What is read of a new level variable before more variables come in. -/
theorem Reads.adds_flow {e : Expr} {d₁ d₂ : Draft} {key : String} (hreads : Reads g fn e d d₁)
    (hadds : d₁.Adds d₂ fun _ ↦ True) (hkey : Visible key) (rule : Rule) :
    d.Adds (d₂.flow (exprKey (d.exprs + 1)) key rule) fun ρ ↦
      e.FlowsTo g (levels ρ) fn (ρ key) := by
  have hknown : d₂.Known (exprKey (d.exprs + 1)) :=
    known_exprKey (hreads.exprs_lt.trans_le hadds.exprs_le)
  have hflow := Draft.adds_flow hadds.good hknown hkey.known rule
  refine hreads.below _ _ (settled_of_visible hkey _) (hadds.trans hflow ?_ fun ρ ↦ by simp)
  intro ρ ρ' hagree hle
  rw [hagree.known (known_exprKey hreads.exprs_lt), hagree.visible hkey]
  exact hle

/-! ### One statement -/

/-- The draft knows the variables of a scope up to some statement. -/
structure At (fn : String) (params : List Param) (before : List Stmt) (d : Draft) : Prop where
  vars : Env.vars d.env fn = Stmt.scopeVars fn params before
  declared : ∀ x e, .assign x e ∈ before → x ∈ params.map Param.name ++ Stmt.declNames before

/-- The statement leaves other scopes alone. -/
def Elsewhere (fn : String) (d d' : Draft) : Prop :=
  ∀ gn, gn ≠ fn → Env.vars d'.env gn = Env.vars d.env gn

variable {params : List Param} {before : List Stmt}

theorem At.inScope (hd : d.Good) (hat : d.At fn params before) :
    d.InScope fn = (· ∈ params.map Param.name ++ Stmt.declNames before) := by
  funext x
  rw [← Stmt.names_scopeVars fn, ← hat.vars]
  exact propext (Env.find?_isSome hd.coherent)

theorem At.data_iff (hd : d.Good) (hat : d.At fn params before) {x : String} {v : Var}
    (hv : d.find? fn x = some v) :
    v.data = true ↔ ∃ type init, .decl type x true init ∈ before := by
  constructor
  · intro hdata
    obtain ⟨hmem, rfl⟩ := (Env.find?_eq_some hd.coherent).mp hv
    rw [hat.vars, Stmt.scopeVars, List.mem_append] at hmem
    rcases hmem with hparam | hdecl
    · obtain ⟨p, -, rfl⟩ := List.mem_map.mp hparam
      cases hdata
    · obtain ⟨s, hs, hvar⟩ := List.mem_filterMap.mp hdecl
      cases s with
      | decl type y data init =>
          cases hvar
          exact ⟨type, init, hdata ▸ hs⟩
      | _ => cases hvar
  · rintro ⟨type, init, hs⟩
    have hmem : ⟨⟨fn, x⟩, type, true, false, init.isSome || before.any (Stmt.assigns x),
        .stmt (.decl type x true init)⟩ ∈ Env.vars d.env fn := by
      rw [hat.vars, Stmt.scopeVars, List.mem_append]
      exact Or.inr (List.mem_filterMap.mpr ⟨_, hs, rfl⟩)
    have hfind := (Env.find?_eq_some (x := x) hd.coherent).mpr ⟨hmem, rfl⟩
    cases Option.some.inj (hfind.symm.trans hv)
    rfl

theorem At.declared_concat (hat : d.At fn params before) (s : Stmt) {x : String} {e : Expr}
    (h : .assign x e ∈ before) :
    x ∈ params.map Param.name ++ Stmt.declNames (before ++ [s]) :=
  Stmt.mem_declNames_concat (hat.declared x e h)

theorem At.decl (hat : d.At fn params before) {type x : String} {data : Bool} {init : Option Expr}
    (hfresh : x ∉ params.map Param.name ++ Stmt.declNames before)
    (henv : Env.declare? d.env ⟨⟨fn, x⟩, type, data, false, init.isSome,
      .stmt (.decl type x data init)⟩ = some d'.env) :
    d'.At fn params (before ++ [.decl type x data init]) ∧ d.Elsewhere fn d' := by
  refine ⟨⟨?_, fun y e hy ↦ ?_⟩, fun gn hgn ↦ ?_⟩
  · rw [Env.vars_declare? henv, hat.vars, Stmt.scopeVars_append_decl]
    · rw [if_pos rfl]
    · exact fun e he ↦ hfresh (hat.declared x e he)
  · rcases List.mem_append.mp hy with hy | hy
    · exact hat.declared_concat _ hy
    · cases List.mem_singleton.mp hy
  · rw [Env.vars_declare? henv, if_neg (fun h ↦ hgn h.symm), List.append_nil]

theorem At.assign (hd : d.Good) (hat : d.At fn params before) {x : String} {e : Expr} {v : Var}
    (hv : d.find? fn x = some v) :
    At fn params (before ++ [.assign x e]) { d with env := Env.markAssigned d.env v } ∧
      d.Elsewhere fn { d with env := Env.markAssigned d.env v } := by
  have hid : v.id = ⟨fn, x⟩ := hd.coherent _ _ hv
  have hvars (gn : String) : Env.vars (Env.markAssigned d.env v) gn =
      (Env.vars d.env gn).map (Env.markedIf ⟨fn, x⟩) := by
    rw [Env.vars_markAssigned hd.coherent (hid ▸ hv), hid]
  refine ⟨⟨?_, fun y e' hy ↦ ?_⟩, fun gn hgn ↦ ?_⟩
  · rw [hvars, hat.vars, Stmt.scopeVars_append_assign]
  · rcases List.mem_append.mp hy with hy | hy
    · exact hat.declared_concat _ hy
    · cases List.mem_singleton.mp hy
      refine Stmt.mem_declNames_concat ?_
      have hin : d.InScope fn x := Option.isSome_iff_exists.mpr ⟨v, hv⟩
      rwa [hat.inScope hd] at hin
  · rw [hvars]
    refine (List.map_congr_left fun w hw ↦ if_neg fun heq ↦ hgn ?_).trans (List.map_id _)
    rw [← ((Env.mem_vars hd.coherent).mp hw).2, heq]

theorem At.sample (hat : d.At fn params before) {x dist : String} {args : List Expr}
    (henv : d'.env = d.env) :
    d'.At fn params (before ++ [.sample x dist args]) ∧ d.Elsewhere fn d' := by
  refine ⟨⟨?_, fun y e hy ↦ ?_⟩, fun gn _ ↦ by rw [henv]⟩
  · rw [henv, hat.vars, Stmt.scopeVars_append_sample]
  · rcases List.mem_append.mp hy with hy | hy
    · exact hat.declared_concat _ hy
    · cases List.mem_singleton.mp hy

/-- Reading one statement after some others of its scope. -/
def StmtSpec (g : Globals) (fn : String) (params : List Param) (before : List Stmt) (s : Stmt)
    (d : Draft) (r : Except Fault Draft) : Prop :=
  Decides ((∀ x ∈ s.declName?, x ∉ params.map Param.name ++ Stmt.declNames before) ∧
      s.ScopedAfter g fn (params.map Param.name) before)
    (fun d' ↦ (d'.At fn params (before ++ [s]) ∧ d.Elsewhere fn d') ∧
      d.Adds d' fun ρ ↦ s.Fits g (levels ρ) fn) r

theorem At.of_env_eq (hat : d.At fn params before) (henv : d'.env = d.env) :
    d'.At fn params before :=
  ⟨henv ▸ hat.vars, hat.declared⟩

theorem Elsewhere.of_env_eq {d₁ d₂ : Draft} (h : d₁.Elsewhere fn d₂) (henv : d₁.env = d.env) :
    d.Elsewhere fn d₂ :=
  fun gn hgn ↦ henv ▸ h gn hgn

theorem declare_decl_spec (hd : d.Good) (hat : d.At fn params before) {type x : String}
    {data : Bool} {init : Option Expr} (hkey : Visible (VarId.key ⟨fn, x⟩)) :
    Decides (x ∉ params.map Param.name ++ Stmt.declNames before)
      (fun d' ↦ (d'.At fn params (before ++ [.decl type x data init]) ∧ d.Elsewhere fn d') ∧
        d.Adds d' fun _ ↦ True)
      (declare (.decl type x data init) ⟨⟨fn, x⟩, type, data, false, init.isSome,
        .stmt (.decl type x data init)⟩ d) := by
  have hscope : d.InScope fn = _ := hat.inScope hd
  have hspec := declare_spec hd (.decl type x data init)
    (v := ⟨⟨fn, x⟩, type, data, false, init.isSome, .stmt (.decl type x data init)⟩) hkey
  simp only [hscope] at hspec
  refine hspec.congr Iff.rfl ?_
  rintro hfresh d' ⟨henv, hadds⟩
  exact ⟨hat.decl hfresh henv, hadds⟩

/-- The initialiser is read in the scope without its variable. -/
theorem decl_init_spec (hg : CalleesVisible g) (hd : d.Good) (hat : d.At fn params before)
    {type x : String} {data : Bool} {e : Expr} (he : e.complete = true)
    (hkey : Visible (VarId.key ⟨fn, x⟩)) :
    Decides (e.Scoped g (· ∈ params.map Param.name ++ Stmt.declNames before) ∧
        x ∉ params.map Param.name ++ Stmt.declNames before)
      (fun d' ↦ (d'.At fn params (before ++ [.decl type x data (some e)]) ∧ d.Elsewhere fn d') ∧
        d.Adds d' fun ρ ↦ e.FlowsTo g (levels ρ) fn (ρ (VarId.key ⟨fn, x⟩)))
      (expr g fn e .assignment d >>= fun r ↦
        declare (.decl type x data (some e)) ⟨⟨fn, x⟩, type, data, false, true,
          .stmt (.decl type x data (some e))⟩ r.2 >>= fun d' ↦
            pure (d'.flow r.1 (VarId.key ⟨fn, x⟩) .assignment)) := by
  have hexpr : Decides _ _ (expr g fn e .assignment d) := expr_spec hg hd he .assignment
  rw [hat.inScope hd] at hexpr
  refine hexpr.bind ?_
  rintro hscoped ⟨key, d₁⟩ ⟨hkey', hreads⟩
  dsimp only at hkey' hreads ⊢
  refine (declare_decl_spec hreads.good (hat.of_env_eq hreads.env) hkey).bind_ok ?_
  rintro - d₂ ⟨⟨hat₂, helse⟩, hadds⟩
  refine ⟨_, rfl, ⟨hat₂.of_env_eq rfl, helse.of_env_eq hreads.env⟩, ?_⟩
  rw [hkey']
  exact hreads.adds_flow hadds hkey .assignment

theorem decl_spec (hg : CalleesVisible g) (hd : d.Good) (hat : d.At fn params before)
    {type x : String} {data : Bool} {init : Option Expr} (hinit : Stmt.completeInit init = true)
    (hkey : Visible (VarId.key ⟨fn, x⟩)) :
    StmtSpec g fn params before (.decl type x data init) d (decl g fn type x data init d) := by
  unfold StmtSpec
  simp only [Stmt.declName?, Option.mem_def, Option.some.injEq, forall_eq', Stmt.ScopedAfter, decl,
    Stmt.Fits]
  split
  · next h =>
      rw [Bool.and_eq_true] at h
      refine Decides.of_error (fun hok ↦ ?_) rfl (by simp [Issue.kind])
      rw [(hok.2.1 h.1).1] at h
      cases h.2
  · next hinit' =>
      split
      · next h =>
          rw [Bool.and_eq_true] at h
          refine Decides.of_error (fun hok ↦ ?_) rfl (by simp [Issue.kind])
          simp [(hok.2.1 h.1).2] at h
      · next hfn =>
          have hdata : data = true → init = none ∧ fn = "" := by
            intro h
            simpa [h] using And.intro hinit' hfn
          cases init with
          | none =>
              refine (declare_decl_spec hd hat hkey).congr ?_ fun _ d' h ↦
                ⟨h.1, h.2.congr fun ρ ↦ by simp⟩
              exact ⟨fun h ↦ ⟨h, hdata, by simp⟩, fun h ↦ h.1⟩
          | some e =>
              refine (decl_init_spec hg hd hat hinit hkey).congr ?_ fun _ d' h ↦
                ⟨h.1, h.2.congr fun ρ ↦ by simp; rfl⟩
              exact ⟨fun h ↦ ⟨h.2, hdata, by simpa using h.1⟩, fun h ↦ ⟨h.2.2 e rfl, h.1⟩⟩

theorem assign_spec (hg : CalleesVisible g) (hd : d.Good) (hat : d.At fn params before)
    {x : String} {e : Expr} (he : e.complete = true) :
    StmtSpec g fn params before (.assign x e) d (assign g fn x e d) := by
  have hscope : d.InScope fn = _ := hat.inScope hd
  unfold StmtSpec
  simp only [Stmt.declName?, Stmt.ScopedAfter, assign, Stmt.Fits]
  cases hv : d.find? fn x with
  | none =>
      refine Decides.of_error (fun hok ↦ ?_) rfl (by simp [Issue.kind])
      have hin := hok.2.1
      rw [show (x ∈ _) = _ from (congrFun hscope x).symm] at hin
      simp [InScope, hv] at hin
  | some v =>
      have hin : d.InScope fn x := Option.isSome_iff_exists.mpr ⟨v, hv⟩
      rw [hscope] at hin
      dsimp only
      split
      · next hdata =>
          refine Decides.of_error (fun hok ↦ ?_) rfl (by simp [Issue.kind])
          obtain ⟨type, init, hdecl⟩ := (hat.data_iff hd hv).mp hdata
          exact hok.2.2.1 type init hdecl
      · next hdata =>
          have hnone : ∀ type init, .decl type x true init ∉ before :=
            fun type init h ↦ hdata ((hat.data_iff hd hv).mpr ⟨type, init, h⟩)
          have hexpr : Decides _ _ (expr g fn e .assignment d) := expr_spec hg hd he .assignment
          rw [hscope] at hexpr
          refine (hexpr.bind_ok ?_).congr ?_ fun _ _ h ↦ h
          · rintro - ⟨key, d₁⟩ ⟨hkey, hreads⟩
            dsimp only at hkey hreads ⊢
            obtain ⟨hid, hvisible, -⟩ := hd.vars _ v hv
            have hvisible' : Visible v.key := by
              rw [Var.key, hid]
              exact hvisible
            have hv₁ : OrderedMap.get? d₁.env ⟨fn, x⟩ = some v := hreads.env ▸ hv
            obtain ⟨hat', helse⟩ := (hat.of_env_eq hreads.env).assign hreads.good hv₁
            refine ⟨_, rfl, ⟨hat'.of_env_eq rfl, helse.of_env_eq hreads.env⟩, ?_⟩
            rw [hkey]
            have hmarked := adds_markAssigned hreads.good hv₁
            refine (hreads.adds_flow hmarked hvisible' .assignment).congr fun ρ ↦ ?_
            rw [Var.key, hid]
            rfl
          · exact ⟨fun h ↦ ⟨by simp, hin, hnone, h⟩, fun h ↦ h.2.2.2⟩

theorem sampleArgs_spec (hg : CalleesVisible g) {es : List Expr} (hes : Expr.completeAll es = true)
    (hd : d.Good) :
    Decides (Expr.ScopedAll g (d.InScope fn) es)
      (fun d' ↦ d'.env = d.env ∧ d.Adds d' fun ρ ↦ Expr.AllFlowTo g (levels ρ) fn es .model)
      (sampleArgs g fn es d) := by
  induction es generalizing d with
  | nil =>
      refine Decides.of_ok Expr.scopedAll_nil rfl ⟨rfl, (Adds.refl hd).congr fun ρ ↦ ?_⟩
      simp [Expr.AllFlowTo]
  | cons e es ih =>
      simp only [Expr.completeAll, Bool.and_eq_true] at hes
      rw [Expr.scopedAll_cons, sampleArgs]
      refine (expr_spec hg hd hes.1 .sample).bind ?_
      rintro - ⟨key, d₁⟩ ⟨hkey, hreads⟩
      dsimp only at hkey hreads ⊢
      rw [hkey]
      have hadds := hreads.below _ (fun _ ↦ .model) (fun _ _ _ ↦ rfl)
        (adds_atMost hreads.good (known_exprKey hreads.exprs_lt) .model .sample)
      have hrest := ih hes.2 hadds.good
      rw [inScope_atMost, inScope_congr hreads.env] at hrest
      refine hrest.congr Iff.rfl ?_
      rintro hok d₂ ⟨henv, hadds₂⟩
      refine ⟨henv.trans hreads.env, hadds.trans hadds₂ ?_ fun ρ ↦ List.forall_mem_cons⟩
      intro ρ ρ' hagree hall a ha
      exact (flowsTo_agree hg hd hagree (Expr.scopedAll_iff.mp hok a ha)).mpr (hall a ha)

theorem sample_spec (hg : CalleesVisible g) (hd : d.Good) (hat : d.At fn params before)
    {x dist : String} {args : List Expr} (hargs : Expr.completeAll args = true) :
    StmtSpec g fn params before (.sample x dist args) d (sample g fn x dist args d) := by
  have hscope : d.InScope fn = _ := hat.inScope hd
  unfold StmtSpec
  simp only [Stmt.declName?, Stmt.ScopedAfter, sample, Stmt.Fits, ← Expr.scopedAll_iff]
  cases hv : d.find? fn x with
  | none =>
      refine Decides.of_error (fun hok ↦ ?_) rfl (by simp [Issue.kind])
      have hin := hok.2.1
      rw [show (x ∈ _) = _ from (congrFun hscope x).symm] at hin
      simp [InScope, hv] at hin
  | some v =>
      have hin : d.InScope fn x := Option.isSome_iff_exists.mpr ⟨v, hv⟩
      rw [hscope] at hin
      dsimp only
      split
      · next hdist =>
          obtain ⟨hid, hvisible, -⟩ := hd.vars _ v hv
          have hkey : v.key = VarId.key ⟨fn, x⟩ := congrArg VarId.key hid
          rw [hkey]
          have hmodel := adds_atMost hd hvisible.known .model .sample
          have hrest : Decides _ _ (sampleArgs g fn args _) := sampleArgs_spec hg hargs hmodel.good
          rw [inScope_atMost, hscope] at hrest
          refine hrest.congr ?_ ?_
          · exact ⟨fun h ↦ ⟨by simp, hin, hdist, h⟩, fun h ↦ h.2.2.2⟩
          · rintro hok d₂ ⟨henv, hadds⟩
            refine ⟨hat.sample henv, hmodel.trans hadds ?_ fun ρ ↦ Iff.rfl⟩
            intro ρ ρ' hagree hall a ha
            rw [← hscope, Expr.scopedAll_iff] at hok
            exact (flowsTo_agree hg hd hagree (hok a ha)).mpr (hall a ha)
      · next hdist =>
          exact Decides.of_error (fun hok ↦ hdist hok.2.2.1) rfl (by simp [Issue.kind])

/-! ### The statements of a scope -/

theorem stmts_append (ss ts : List Stmt) (d : Draft) :
    stmts g fn (ss ++ ts) d = stmts g fn ss d >>= stmts g fn ts := by
  induction ss generalizing d with
  | nil => rfl
  | cons s ss ih => simp only [List.cons_append, stmts, ih, bind_assoc]

mutual

/-- Blocks only group statements. -/
theorem stmt_eq_stmts_flat : ∀ (s : Stmt) (d : Draft), stmt g fn s d = stmts g fn s.flat d
  | .hole, _ => rfl
  | .decl .., d => (bind_pure (stmt g fn _ d)).symm
  | .assign .., d => (bind_pure (stmt g fn _ d)).symm
  | .sample .., d => (bind_pure (stmt g fn _ d)).symm
  | .block list, d => stmts_flatten list d
  | .func .., _ => rfl

theorem stmts_flatten : ∀ (ss : List Stmt) (d : Draft),
    stmts g fn ss d = stmts g fn (Stmt.flatten ss) d
  | [], _ => rfl
  | s :: ss, d => by
      rw [stmts, Stmt.flatten, stmts_append, stmt_eq_stmts_flat s d]
      congr 1
      funext d'
      exact stmts_flatten ss d'

end

theorem stmt_spec (hg : CalleesVisible g) (hd : d.Good) (hat : d.At fn params before) {s : Stmt}
    (hflat : s.isFlat = true) (hcomplete : s.complete = true)
    (hkey : ∀ x ∈ s.declName?, Visible (VarId.key ⟨fn, x⟩)) :
    StmtSpec g fn params before s d (stmt g fn s d) := by
  cases s with
  | hole => cases hcomplete
  | decl type x data init => exact decl_spec hg hd hat hcomplete (hkey x rfl)
  | assign x e => exact assign_spec hg hd hat hcomplete
  | sample x dist args => exact sample_spec hg hd hat hcomplete
  | block list => cases hflat
  | func name ps body result =>
      exact Decides.of_error (fun hok ↦ hok.2) rfl (by simp [Issue.kind])

/-- The levels of further expressions do not matter for what a statement demands. -/
theorem fits_agree (hg : CalleesVisible g) {ps : List String} {s : Stmt}
    (hs : s.ScopedAfter g fn ps before)
    (hkey : ∀ x ∈ ps ++ Stmt.declNames (before ++ [s]), Visible (VarId.key ⟨fn, x⟩))
    {n : Nat} {ρ ρ' : String → Level} (h : Agree n ρ ρ') :
    s.Fits g (levels ρ') fn ↔ s.Fits g (levels ρ) fn :=
  Stmt.fits_congr (fun f hf ↦ h.visible (hg f hf).1)
    (fun f hf p hp ↦ h.visible ((hg f hf).2 p hp)) hs fun x hx ↦ h.visible (hkey x hx)

theorem forall_fits_agree (hg : CalleesVisible g) {ps : List String} {ss : List Stmt}
    (hss : Stmt.ScopedFrom g fn ps before ss)
    (hkey : ∀ x ∈ ps ++ Stmt.declNames (before ++ ss), Visible (VarId.key ⟨fn, x⟩))
    {n : Nat} {ρ ρ' : String → Level} (h : Agree n ρ ρ') :
    (∀ s ∈ ss, s.Fits g (levels ρ') fn) ↔ ∀ s ∈ ss, s.Fits g (levels ρ) fn := by
  refine forall₂_congr fun s hs ↦ ?_
  obtain ⟨front, after, rfl⟩ := List.append_of_mem hs
  refine fits_agree hg hss.scopedAfter (fun x hx ↦ hkey x ?_) h
  have heq : before ++ (front ++ s :: after) = before ++ front ++ [s] ++ after := by simp
  rw [heq, Stmt.declNames_append, ← List.append_assoc]
  exact List.mem_append_left _ hx

theorem stmts_spec (hg : CalleesVisible g) {ss : List Stmt}
    (hss : ∀ s ∈ ss, s.isFlat = true ∧ s.complete = true) (hd : d.Good)
    (hat : d.At fn params before)
    (hkey : ∀ x ∈ params.map Param.name ++ Stmt.declNames (before ++ ss),
      Visible (VarId.key ⟨fn, x⟩)) :
    Decides (Stmt.ScopedFrom g fn (params.map Param.name) before ss)
      (fun d' ↦ (d'.At fn params (before ++ ss) ∧ d.Elsewhere fn d') ∧
        d.Adds d' fun ρ ↦ ∀ s ∈ ss, s.Fits g (levels ρ) fn)
      (stmts g fn ss d) := by
  induction ss generalizing before d with
  | nil =>
      refine Decides.of_ok trivial rfl ⟨⟨?_, fun gn _ ↦ rfl⟩, (Adds.refl hd).congr fun ρ ↦ by simp⟩
      rwa [List.append_nil]
  | cons s ss ih =>
      rw [List.forall_mem_cons] at hss
      rw [List.append_cons] at hkey ⊢
      have hnew : ∀ x ∈ s.declName?, Visible (VarId.key ⟨fn, x⟩) := by
        intro x hx
        refine hkey x (List.mem_append_right _ (List.mem_filterMap.mpr ⟨s, by simp, hx⟩))
      refine (stmt_spec hg hd hat hss.1.1 hss.1.2 hnew).bind ?_
      rintro - d₁ ⟨⟨hat₁, helse₁⟩, hadds₁⟩
      refine (ih hss.2 hadds₁.good hat₁ hkey).congr Iff.rfl ?_
      rintro hok d₂ ⟨⟨hat₂, helse₂⟩, hadds₂⟩
      refine ⟨⟨hat₂, fun gn hgn ↦ (helse₂ gn hgn).trans (helse₁ gn hgn)⟩,
        hadds₁.trans hadds₂ ?_ fun ρ ↦ List.forall_mem_cons⟩
      exact fun ρ ρ' hagree ↦ (forall_fits_agree hg hok hkey hagree).mpr

end Draft

end Stratify
