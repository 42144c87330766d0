import Stratify.Proofs.Typing.Statements

/-!
# The constraints of programs

The constraints of a program can be generated exactly if the program is well scoped. They then say
that the levels of its slots fit the program, and nothing else.
-/

namespace Stratify

namespace Draft

variable {d d' : Draft} {g : Globals} {fn : String}

/-! ### Function headers -/

theorem checkFuncs_spec (prims : Primitives) (seen : List String) (fs : List Func) :
    Decides ((fs.map Func.name).Nodup ∧ ∀ f ∈ fs, f.name ∉ seen ∧
        (prims.isFunc f.name = false ∧ prims.isDist f.name = false) ∧ f.result.isSome = true)
      (fun _ ↦ True) (checkFuncs prims seen fs) := by
  induction fs generalizing seen with
  | nil => exact Decides.of_ok (by simp) rfl trivial
  | cons f fs ih =>
      unfold checkFuncs
      split
      · next h =>
          exact Decides.of_error (fun hok ↦ (hok.2 f (List.mem_cons_self ..)).1 h) rfl
            (by simp [Issue.kind])
      · next hseen =>
          split
          · next h =>
              refine Decides.of_error (fun hok ↦ ?_) rfl (by simp [Issue.kind])
              obtain ⟨-, ⟨hfunc, hdist⟩, -⟩ := hok.2 f (List.mem_cons_self ..)
              simp [hfunc, hdist] at h
          · next hprim =>
              split
              · next h =>
                  refine Decides.of_error (fun hok ↦ ?_) rfl (by simp [Issue.kind])
                  obtain ⟨-, -, hresult⟩ := hok.2 f (List.mem_cons_self ..)
                  rw [Option.isNone_iff_eq_none] at h
                  simp [h] at hresult
              · next hresult =>
                  refine (ih (f.name :: seen)).congr ?_ fun _ _ h ↦ h
                  simp only [Bool.or_eq_true, not_or, Bool.not_eq_true] at hprim
                  rw [Bool.not_eq_true, Option.isNone_eq_false_iff] at hresult
                  simp only [List.map_cons, List.nodup_cons, List.mem_map, not_exists, not_and,
                    List.mem_cons, not_or, forall_eq_or_imp, hseen, hprim, hresult]
                  simp only [not_false_eq_true, true_and, forall_and]
                  tauto

theorem At.param {f : Func} {front : List Param} {p : Param} {env : Env}
    (hat : d.At f.name front [])
    (henv : Env.declare? d.env ⟨⟨f.name, p.name⟩, p.type, false, true, true, .param p⟩ = some env) :
    At f.name (front ++ [p]) [] { d with env := env } ∧
      d.Elsewhere f.name { d with env := env } := by
  refine ⟨⟨?_, by simp⟩, fun gn hgn ↦ ?_⟩
  · change Env.vars env f.name = _
    rw [Env.vars_declare? henv, hat.vars, if_pos rfl]
    simp [Stmt.scopeVars]
  · change Env.vars env gn = _
    rw [Env.vars_declare? henv, if_neg (fun h ↦ hgn h.symm), List.append_nil]

theorem params_spec {f : Func} {front ps : List Param} (hd : d.Good)
    (hat : d.At f.name front []) (hnodup : (front.map Param.name).Nodup)
    (hkey : ∀ p ∈ ps, Visible (VarId.key ⟨f.name, p.name⟩)) :
    Decides ((front ++ ps).map Param.name).Nodup
      (fun d' ↦ (d'.At f.name (front ++ ps) [] ∧ d.Elsewhere f.name d') ∧ d.Adds d' fun _ ↦ True)
      (params f ps d) := by
  induction ps generalizing front d with
  | nil =>
      rw [List.append_nil]
      exact Decides.of_ok hnodup rfl ⟨⟨hat, fun _ _ ↦ rfl⟩, Adds.refl hd⟩
  | cons p ps ih =>
      rw [List.forall_mem_cons] at hkey
      rw [List.append_cons]
      have hconcat : ((front ++ [p]).map Param.name).Nodup ↔ ¬ d.InScope f.name p.name := by
        rw [hat.inScope hd, List.map_append, List.nodup_append]
        simp only [List.map_cons, List.map_nil, List.mem_singleton, ne_eq, forall_eq,
          Stmt.declNames, List.filterMap_nil, List.append_nil]
        exact ⟨fun h hmem ↦ h.2.2 _ hmem rfl,
          fun h ↦ ⟨hnodup, List.nodup_singleton _, fun a ha hap ↦ h (hap ▸ ha)⟩⟩
      cases henv : Env.declare? d.env ⟨⟨f.name, p.name⟩, p.type, false, true, true, .param p⟩ with
      | none =>
          simp only [params, henv]
          refine Decides.of_error (fun hok ↦ ?_) rfl (by simp [Issue.kind])
          rw [List.map_append] at hok
          exact hconcat.mp (List.nodup_append.mp hok).1 (Env.declare?_eq_none.mp henv)
      | some env =>
          simp only [params, henv]
          have hfresh : ¬ d.InScope f.name p.name := by
            rw [InScope, find?, Env.find?_of_declare? henv]
            simp
          have hadds := adds_declare? hd henv hkey.1 (p.name ++ " (parameter of " ++ f.name ++ ")")
            (.param p)
          obtain ⟨hat₁, helse₁⟩ := hat.param henv
          refine (ih hadds.good (hat₁.of_env_eq rfl) (hconcat.mpr hfresh) hkey.2).congr Iff.rfl ?_
          rintro - d₂ ⟨⟨hat₂, helse₂⟩, hadds₂⟩
          exact ⟨⟨hat₂, fun gn hgn ↦ (helse₂ gn hgn).trans (helse₁ gn hgn)⟩,
            hadds.trans hadds₂ (fun _ _ _ h ↦ h) fun ρ ↦ by simp⟩

/-- What the draft must know of a function before its body is read. -/
structure Announces (d : Draft) (f : Func) : Prop where
  at_start : d.At f.name f.params []
  has_result : d.system.has (VarId.resultKey f.name) = true

theorem header_spec {f : Func} (hd : d.Good) (hempty : Env.vars d.env f.name = [])
    (hkey : ∀ p ∈ f.params, Visible (VarId.key ⟨f.name, p.name⟩)) :
    Decides f.paramNames.Nodup
      (fun d' ↦ (d'.Announces f ∧ d.Elsewhere f.name d') ∧ d.Adds d' fun _ ↦ True)
      (header f d) := by
  have hat : d.At f.name [] [] := ⟨hempty, by simp⟩
  refine (params_spec hd hat List.nodup_nil hkey).bind_ok ?_
  rintro - d₁ ⟨⟨hat₁, helse⟩, hadds⟩
  have hadds₁ : d₁.Adds (d₁.addVar (VarId.resultKey f.name) ("return value of " ++ f.name)
      (.stmt f.toStmt)) fun _ ↦ True := by
    refine adds_of_constraints_eq hadds.good rfl constraints_addVar
      (fun key h ↦ has_addVar.mpr (Or.inl h)) fun id v hv ↦ ?_
    obtain ⟨hid, hvisible, hhas⟩ := hadds.good.vars id v hv
    exact ⟨hid, hvisible, has_addVar.mpr (Or.inl hhas)⟩
  refine ⟨_, rfl, ⟨⟨hat₁.of_env_eq rfl, has_addVar.mpr (Or.inr rfl)⟩, helse⟩, ?_⟩
  exact hadds.trans hadds₁ (fun _ _ _ h ↦ h) fun ρ ↦ by simp

/-- Scopes with other names than some functions are left alone. -/
def ElsewhereAll (fs : List Func) (d d' : Draft) : Prop :=
  ∀ gn, gn ∉ fs.map Func.name → Env.vars d'.env gn = Env.vars d.env gn

theorem ElsewhereAll.cons {f : Func} {fs : List Func} {d₁ d₂ : Draft} (h₁ : d.Elsewhere f.name d₁)
    (h₂ : ElsewhereAll fs d₁ d₂) : ElsewhereAll (f :: fs) d d₂ := by
  intro gn hgn
  simp only [List.map_cons, List.mem_cons, not_or] at hgn
  rw [h₂ gn hgn.2, h₁ gn hgn.1]

theorem Announces.elsewhere {f : Func} (h : d.Announces f)
    (hvars : Env.vars d'.env f.name = Env.vars d.env f.name)
    (hhas : ∀ key, d.system.has key = true → d'.system.has key = true) : d'.Announces f :=
  ⟨⟨hvars ▸ h.at_start.vars, h.at_start.declared⟩, hhas _ h.has_result⟩

theorem headers_spec {fs : List Func} (hd : d.Good) (hnodup : (fs.map Func.name).Nodup)
    (hempty : ∀ f ∈ fs, Env.vars d.env f.name = [])
    (hkey : ∀ f ∈ fs, ∀ p ∈ f.params, Visible (VarId.key ⟨f.name, p.name⟩)) :
    Decides (∀ f ∈ fs, f.paramNames.Nodup)
      (fun d' ↦ ((∀ f ∈ fs, d'.Announces f) ∧ ElsewhereAll fs d d') ∧ d.Adds d' fun _ ↦ True)
      (headers fs d) := by
  induction fs generalizing d with
  | nil => exact Decides.of_ok (by simp) rfl ⟨⟨by simp, fun _ _ ↦ rfl⟩, Adds.refl hd⟩
  | cons f fs ih =>
      rw [List.map_cons, List.nodup_cons] at hnodup
      rw [List.forall_mem_cons] at hempty hkey ⊢
      have hne (f' : Func) (hf' : f' ∈ fs) : f'.name ≠ f.name :=
        fun heq ↦ hnodup.1 (heq ▸ List.mem_map_of_mem hf')
      refine (header_spec hd hempty.1 hkey.1).bind ?_
      rintro - d₁ ⟨⟨hann, helse⟩, hadds⟩
      refine (ih hadds.good hnodup.2 ?_ hkey.2).congr Iff.rfl ?_
      · exact fun f' hf' ↦ (helse _ (hne f' hf')).trans (hempty.2 f' hf')
      · rintro - d₂ ⟨⟨hann₂, helse₂⟩, hadds₂⟩
        refine ⟨⟨List.forall_mem_cons.mpr ⟨?_, hann₂⟩, helse₂.cons helse⟩, ?_⟩
        · exact hann.elsewhere (helse₂ _ hnodup.1) hadds₂.has
        · exact hadds.trans hadds₂ (fun _ _ _ h ↦ h) fun ρ ↦ by simp

/-! ### Function bodies -/

/-- A body and a result that obey the rules. -/
def BodyScoped (g : Globals) (f : Func) : Prop :=
  Stmt.ScopedFrom g f.name f.paramNames [] (Stmt.flatten f.stmts) ∧
    ∀ e ∈ f.result, e.Scoped g (· ∈ f.paramNames ++ Stmt.declNames (Stmt.flatten f.stmts))

/-- What a body and a result demand of the levels. -/
def BodyFits (g : Globals) (A : Assignment) (f : Func) : Prop :=
  (∀ s ∈ Stmt.flatten f.stmts, s.Fits g A f.name) ∧
    ∀ e ∈ f.result, e.FlowsTo g A f.name (A (.result f.name))

/-- All the keys of a function. -/
structure FuncVisible (f : Func) : Prop where
  result : Visible (VarId.resultKey f.name)
  vars : ∀ x ∈ f.paramNames ++ Stmt.declNames (Stmt.flatten f.stmts),
    Visible (VarId.key ⟨f.name, x⟩)

theorem bodyFits_agree (hg : CalleesVisible g) {f : Func} (hf : BodyScoped g f)
    (hkey : FuncVisible f) {n : Nat} {ρ ρ' : String → Level} (h : Agree n ρ ρ') :
    BodyFits g (levels ρ') f ↔ BodyFits g (levels ρ) f := by
  refine and_congr (forall_fits_agree hg hf.1 hkey.vars h) (forall₂_congr fun e he ↦ ?_)
  have hresult : levels ρ' (.result f.name) = levels ρ (.result f.name) := h.visible hkey.result
  rw [hresult, flowsTo_agree_of_visible hg hkey.vars h (hf.2 e he)]

theorem body_spec (hg : CalleesVisible g) {f : Func} (hd : d.Good) (hat : d.At f.name f.params [])
    (hcomplete : f.complete = true) (hresult : f.result.isSome = true) (hkey : FuncVisible f) :
    Decides (BodyScoped g f)
      (fun d' ↦ (d'.At f.name f.params (Stmt.flatten f.stmts) ∧ d.Elsewhere f.name d') ∧
        d.Adds d' fun ρ ↦ BodyFits g (levels ρ) f)
      (body g f d) := by
  obtain ⟨e, he⟩ := Option.isSome_iff_exists.mp hresult
  have hstmts : ∀ s ∈ Stmt.flatten f.stmts, s.isFlat = true ∧ s.complete = true := fun s hs ↦
    ⟨Stmt.isFlat_flatten _ s hs, Stmt.complete_flatten (Func.complete_stmts hcomplete) s hs⟩
  simp only [BodyScoped, BodyFits, body, he, Option.getD_some, stmts_flatten f.stmts,
    Option.mem_def, Option.some.injEq, forall_eq']
  refine (stmts_spec hg hstmts hd hat hkey.vars).bind ?_
  rintro hscoped d₁ ⟨⟨hat₁, helse⟩, hadds⟩
  rw [List.nil_append] at hat₁
  have hexpr : Decides _ _ (expr g f.name e .result d₁) :=
    expr_spec hg hadds.good (Func.complete_result hcomplete he) .result
  rw [hat₁.inScope hadds.good] at hexpr
  refine hexpr.bind_ok ?_
  rintro he' ⟨key, d₂⟩ ⟨hkey₂, hreads⟩
  dsimp only at hkey₂ hreads ⊢
  refine ⟨_, rfl, ⟨hat₁.of_env_eq hreads.env, fun gn hgn ↦ ?_⟩, ?_⟩
  · exact (congrArg (Env.vars · gn) hreads.env).trans (helse gn hgn)
  · rw [hkey₂]
    have hflow := hreads.adds_flow (Adds.refl hreads.good) hkey.result .result
    refine hadds.trans hflow ?_ fun ρ ↦ Iff.rfl
    intro ρ ρ' hagree hflow
    rw [hagree.visible hkey.result]
    exact (flowsTo_agree_of_visible hg hkey.vars hagree he').mpr hflow

theorem bodies_spec (hg : CalleesVisible g) {fs : List Func} (hd : d.Good)
    (hnodup : (fs.map Func.name).Nodup) (hat : ∀ f ∈ fs, d.At f.name f.params [])
    (hfs : ∀ f ∈ fs, f.complete = true ∧ f.result.isSome = true) (hkey : ∀ f ∈ fs, FuncVisible f) :
    Decides (∀ f ∈ fs, BodyScoped g f)
      (fun d' ↦ ((∀ f ∈ fs, d'.At f.name f.params (Stmt.flatten f.stmts)) ∧ ElsewhereAll fs d d') ∧
        d.Adds d' fun ρ ↦ ∀ f ∈ fs, BodyFits g (levels ρ) f)
      (bodies g fs d) := by
  induction fs generalizing d with
  | nil =>
      refine Decides.of_ok (by simp) rfl ⟨⟨by simp, fun _ _ ↦ rfl⟩, ?_⟩
      exact (Adds.refl hd).congr fun ρ ↦ by simp
  | cons f fs ih =>
      rw [List.map_cons, List.nodup_cons] at hnodup
      rw [List.forall_mem_cons] at hat hfs hkey ⊢
      have hne (f' : Func) (hf' : f' ∈ fs) : f'.name ≠ f.name :=
        fun heq ↦ hnodup.1 (heq ▸ List.mem_map_of_mem hf')
      refine (body_spec hg hd hat.1 hfs.1.1 hfs.1.2 hkey.1).bind ?_
      rintro - d₁ ⟨⟨hat₁, helse⟩, hadds⟩
      refine (ih hadds.good hnodup.2 ?_ hfs.2 hkey.2).congr Iff.rfl ?_
      · exact fun f' hf' ↦
          ⟨(helse _ (hne f' hf')).trans (hat.2 f' hf').vars, (hat.2 f' hf').declared⟩
      · rintro hok d₂ ⟨⟨hat₂, helse₂⟩, hadds₂⟩
        refine ⟨⟨List.forall_mem_cons.mpr ⟨?_, hat₂⟩, helse₂.cons helse⟩,
          hadds.trans hadds₂ ?_ fun ρ ↦ List.forall_mem_cons⟩
        · exact ⟨(helse₂ _ hnodup.1).trans hat₁.vars, hat₁.declared⟩
        · exact fun ρ ρ' hagree hall f' hf' ↦
            (bodyFits_agree hg (hok f' hf') (hkey.2 f' hf') hagree).mpr (hall f' hf')

/-! ### Rules for variables -/

/-- Data variables are of level `data`, and what nothing assigns is at least a parameter of the
model. -/
def VarFits (A : Assignment) (v : Var) : Prop :=
  (v.data = true → A (.var v.id) = .data) ∧
    (v.data = false → v.assigned = false → .model ≤ A (.var v.id))

theorem varFits_agree {v : Var} (hkey : Visible v.key) {n : Nat} {ρ ρ' : String → Level}
    (h : Agree n ρ ρ') : VarFits (levels ρ') v ↔ VarFits (levels ρ) v := by
  have hlevel : levels ρ' (.var v.id) = levels ρ (.var v.id) := h.visible hkey
  rw [VarFits, VarFits, hlevel]

theorem Good.visible_of_mem_vars (hd : d.Good) {v : Var} (hv : v ∈ Env.vars d.env fn) :
    Visible v.key :=
  (hd.vars _ v ((Env.mem_vars hd.coherent).mp hv).1).2.1

theorem adds_varRule (hd : d.Good) {v : Var} (hkey : Visible v.key) :
    d.Adds (d.varRule v) (fun ρ ↦ VarFits (levels ρ) v) ∧ (d.varRule v).env = d.env := by
  unfold varRule
  cases hdata : v.data with
  | true =>
      refine ⟨?_, rfl⟩
      have hlow := adds_atLeast hd hkey.known .data .data
      have hhigh := adds_atMost hlow.good hkey.known .data .data
      refine hlow.trans hhigh ?_ fun ρ ↦ ?_
      · exact fun ρ ρ' hagree hle ↦ (hagree.visible hkey).symm ▸ hle
      · simp only [VarFits, hdata, forall_const, Bool.true_eq_false, false_implies, and_true]
        exact ⟨fun h ↦ ⟨Level.data_le _, h.le⟩, fun h ↦ le_antisymm h.2 h.1⟩
  | false =>
      cases hassigned : v.assigned with
      | true => exact ⟨(Adds.refl hd).congr fun ρ ↦ by simp [VarFits, hdata, hassigned], rfl⟩
      | false =>
          refine ⟨(adds_atLeast hd hkey.known .model .unassigned).congr fun ρ ↦ ?_, rfl⟩
          simp only [VarFits, hdata, hassigned, forall_const, Bool.false_eq_true, false_implies,
            true_and]
          rfl

theorem adds_foldl_varRule (hd : d.Good) {vs : List Var} (hkey : ∀ v ∈ vs, Visible v.key) :
    d.Adds (vs.foldl varRule d) (fun ρ ↦ ∀ v ∈ vs, VarFits (levels ρ) v) ∧
      (vs.foldl varRule d).env = d.env := by
  induction vs generalizing d with
  | nil => exact ⟨(Adds.refl hd).congr fun ρ ↦ by simp, rfl⟩
  | cons v vs ih =>
      rw [List.forall_mem_cons] at hkey
      obtain ⟨hadds, henv⟩ := adds_varRule hd hkey.1
      obtain ⟨hadds₂, henv₂⟩ := ih hadds.good hkey.2
      refine ⟨hadds.trans hadds₂ ?_ fun ρ ↦ List.forall_mem_cons, henv₂.trans henv⟩
      exact fun ρ ρ' hagree hall w hw ↦ (varFits_agree (hkey.2 w hw) hagree).mpr (hall w hw)

theorem adds_varRules (hd : d.Good) (fn : String) :
    d.Adds (d.varRules fn) (fun ρ ↦ ∀ v ∈ Env.vars d.env fn, VarFits (levels ρ) v) ∧
      (d.varRules fn).env = d.env :=
  adds_foldl_varRule hd fun _ hv ↦ hd.visible_of_mem_vars hv

theorem adds_foldl_varRules (hd : d.Good) (names : List String) :
    d.Adds (names.foldl varRules d)
        (fun ρ ↦ ∀ fn ∈ names, ∀ v ∈ Env.vars d.env fn, VarFits (levels ρ) v) ∧
      (names.foldl varRules d).env = d.env := by
  induction names generalizing d with
  | nil => exact ⟨(Adds.refl hd).congr fun ρ ↦ by simp, rfl⟩
  | cons fn names ih =>
      obtain ⟨hadds, henv⟩ := adds_varRules hd fn
      obtain ⟨hadds₂, henv₂⟩ := ih hadds.good
      rw [henv] at hadds₂
      refine ⟨hadds.trans hadds₂ ?_ fun ρ ↦ List.forall_mem_cons, henv₂.trans henv⟩
      exact fun ρ ρ' hagree hall gn hgn v hv ↦
        (varFits_agree (hd.visible_of_mem_vars hv) hagree).mpr (hall gn hgn v hv)

theorem fitIn_iff {A : Assignment} (params : List Param) {ss : List Stmt} :
    Stmt.FitIn g A fn ss ↔
      (∀ s ∈ ss, s.Fits g A fn) ∧ ∀ v ∈ Stmt.scopeVars fn params ss, VarFits A v := by
  constructor
  · intro h
    refine ⟨h.stmts, fun v hv ↦ ?_⟩
    rw [Stmt.scopeVars, List.mem_append] at hv
    rcases hv with hv | hv
    · obtain ⟨p, -, rfl⟩ := List.mem_map.mp hv
      exact ⟨fun hdata ↦ (by cases hdata), fun _ hassigned ↦ (by cases hassigned)⟩
    · obtain ⟨s, hs, hvar⟩ := List.mem_filterMap.mp hv
      cases s with
      | decl type x data init =>
          cases hvar
          refine ⟨fun hdata ↦ h.data type x init (hdata ▸ hs), fun hdata hassigned ↦ ?_⟩
          simp only [Bool.or_eq_false_iff, Option.isSome_eq_false_iff, Option.isNone_iff_eq_none,
            List.any_eq_false] at hassigned
          refine h.unassigned type x (hdata ▸ hassigned.1 ▸ hs) fun e he ↦ ?_
          exact hassigned.2 _ he (by simp [Stmt.assigns])
      | _ => cases hvar
  · rintro ⟨hstmts, hvars⟩
    have hvar {type x : String} {data : Bool} {init : Option Expr}
        (hs : .decl type x data init ∈ ss) :
        VarFits A ⟨⟨fn, x⟩, type, data, false, init.isSome || ss.any (Stmt.assigns x),
          .stmt (.decl type x data init)⟩ :=
      hvars _ (List.mem_append_right _ (List.mem_filterMap.mpr ⟨_, hs, rfl⟩))
    refine ⟨hstmts, fun type x init hs ↦ (hvar hs).1 rfl, fun type x hs hnone ↦ ?_⟩
    refine (hvar hs).2 rfl ?_
    rw [Option.isSome_none, Bool.false_or, List.any_eq_false]
    intro s hs' hassigns
    cases s with
    | assign y e =>
        simp only [Stmt.assigns, beq_iff_eq] at hassigns
        exact hnone e (hassigns ▸ hs')
    | _ => cases hassigns

/-! ### Programs -/

/-- The draft of a whole program. -/
structure Drafts (prims : Primitives) (p : Program) (d : Draft) : Prop where
  bodies : ∀ f ∈ p.funcs, d.At f.name f.params (Stmt.flatten f.stmts)
  stmts : d.At "" [] (Stmt.flatten p.stmts)
  has_result : ∀ f ∈ p.funcs, d.system.has (VarId.resultKey f.name) = true
  adds : empty.Adds d fun ρ ↦ p.Fits prims [] (levels ρ)

theorem good_empty : empty.Good where
  closed := fun _ hc ↦ (by cases hc)
  known := fun _ hc ↦ (by cases hc)
  vars := fun _ _ hv ↦ (by cases hv)

end Draft

namespace Program

variable {p : Program}

theorem KeysVisible.funcVisible (h : p.KeysVisible) {f : Func} (hf : f ∈ p.funcs) :
    Draft.FuncVisible f where
  result := h.visible (.result f.name) (result_mem_slots hf)
  vars x hx := h.visible (.var ⟨f.name, x⟩) (local_mem_slots hf hx)

theorem KeysVisible.calleesVisible (h : p.KeysVisible) (prims : Primitives) :
    Draft.CalleesVisible (p.globals prims) := by
  intro f hf
  have hvisible := h.funcVisible hf
  refine ⟨hvisible.result, fun q hq ↦ hvisible.vars q.name (List.mem_append_left _ ?_)⟩
  exact List.mem_map_of_mem hq

theorem KeysVisible.stmtsVisible (h : p.KeysVisible) {x : String}
    (hx : x ∈ Stmt.declNames (Stmt.flatten p.stmts)) : Draft.Visible (VarId.key ⟨"", x⟩) :=
  h.visible (.var ⟨"", x⟩) (var_mem_slots hx)

theorem wellScoped_iff {prims : Primitives} : p.WellScoped prims ↔
    ((p.funcs.map Func.name).Nodup ∧ ∀ f ∈ p.funcs, f.name ∉ [] ∧
      (prims.isFunc f.name = false ∧ prims.isDist f.name = false) ∧ f.result.isSome = true) ∧
    (∀ f ∈ p.funcs, f.paramNames.Nodup) ∧
    (∀ f ∈ p.funcs, Draft.BodyScoped (p.globals prims) f) ∧
    Stmt.ScopedFrom (p.globals prims) "" [] [] (Stmt.flatten p.stmts) := by
  constructor
  · intro h
    refine ⟨⟨h.funcs_nodup, fun f hf ↦ ⟨by simp, h.not_primitive f hf, ?_⟩⟩, fun f hf ↦ ?_,
      fun f hf ↦ ⟨?_, ?_⟩, ?_⟩
    · obtain ⟨e, he, -⟩ := h.results f hf
      rw [he, Option.isSome_some]
    · exact (Stmt.scopedIn_iff.mp (h.bodies f hf)).1
    · exact (Stmt.scopedIn_iff.mp (h.bodies f hf)).2
    · obtain ⟨e, he, hscoped⟩ := h.results f hf
      intro e' he'
      cases Option.some.inj (he.symm.trans he')
      exact hscoped
    · exact (Stmt.scopedIn_iff.mp h.stmts).2
  · rintro ⟨⟨hnodup, hfuncs⟩, hparams, hbodies, hstmts⟩
    refine ⟨hnodup, fun f hf ↦ (hfuncs f hf).2.1, fun f hf ↦ ?_, fun f hf ↦ ?_, ?_⟩
    · exact Stmt.scopedIn_iff.mpr ⟨hparams f hf, (hbodies f hf).1⟩
    · obtain ⟨e, he⟩ := Option.isSome_iff_exists.mp (hfuncs f hf).2.2
      exact ⟨e, he, (hbodies f hf).2 e he⟩
    · exact Stmt.scopedIn_iff.mpr ⟨List.nodup_nil, hstmts⟩

/-- The rules for variables come after those for statements. -/
theorem fits_nil_iff {prims : Primitives} {A : Assignment} : p.Fits prims [] A ↔
    ((∀ f ∈ p.funcs, Draft.BodyFits (p.globals prims) A f) ∧
      ∀ s ∈ Stmt.flatten p.stmts, s.Fits (p.globals prims) A "") ∧
    (∀ v ∈ Stmt.scopeVars "" [] (Stmt.flatten p.stmts), Draft.VarFits A v) ∧
    ∀ f ∈ p.funcs, ∀ v ∈ Stmt.scopeVars f.name f.params (Stmt.flatten f.stmts),
      Draft.VarFits A v := by
  constructor
  · intro h
    have hstmts := (Draft.fitIn_iff []).mp h.stmts
    have hbodies (f : Func) (hf : f ∈ p.funcs) := (Draft.fitIn_iff f.params).mp (h.bodies f hf)
    exact ⟨⟨fun f hf ↦ ⟨(hbodies f hf).1, fun e he ↦ h.results f hf e he⟩, hstmts.1⟩, hstmts.2,
      fun f hf ↦ (hbodies f hf).2⟩
  · rintro ⟨⟨hbodies, hstmts⟩, hvars, hlocals⟩
    exact ⟨fun f hf ↦ (Draft.fitIn_iff f.params).mpr ⟨(hbodies f hf).1, hlocals f hf⟩,
      fun f hf e he ↦ (hbodies f hf).2 e he, (Draft.fitIn_iff []).mpr ⟨hstmts, hvars⟩,
      by simp [Seeds.Hold]⟩

end Program

namespace Draft

/-- The constraints of a well-scoped program say that its levels fit. -/
theorem ofProgram_spec (prims : Primitives) {p : Program} (hcomplete : p.complete = true)
    (hkeys : p.KeysVisible) :
    Decides (p.WellScoped prims) (Drafts prims p) (ofProgram prims p) := by
  have hg := hkeys.calleesVisible prims
  have hkey (f : Func) (hf : f ∈ p.funcs) := hkeys.funcVisible hf
  have hflat : ∀ s ∈ Stmt.flatten p.stmts, s.isFlat = true ∧ s.complete = true := fun s hs ↦
    ⟨Stmt.isFlat_flatten _ s hs, Stmt.complete_flatten (Program.complete_stmts hcomplete) s hs⟩
  have hne : "" ∉ p.funcs.map Func.name := fun h ↦ by
    obtain ⟨f, hf, hname⟩ := List.mem_map.mp h
    exact hkeys.func_ne f hf hname
  rw [Program.wellScoped_iff]
  refine (checkFuncs_spec prims [] p.funcs).bind ?_
  rintro ⟨hnodup, hfuncs⟩ - -
  refine (headers_spec good_empty hnodup (fun _ _ ↦ rfl) fun f hf ↦ (hg f hf).2).bind ?_
  rintro - d₀ ⟨⟨hann, helse₀⟩, hadds₀⟩
  refine (bodies_spec hg hadds₀.good hnodup (fun f hf ↦ (hann f hf).at_start)
    (fun f hf ↦ ⟨Program.complete_func hcomplete hf, (hfuncs f hf).2.2⟩) hkey).bind ?_
  rintro hbodies d₁ ⟨⟨hat₁, helse₁⟩, hadds₁⟩
  have hat_top : d₁.At "" [] [] := by
    refine ⟨?_, by simp⟩
    rw [helse₁ "" hne, helse₀ "" hne]
    rfl
  rw [stmts_flatten]
  refine (stmts_spec hg hflat hadds₁.good hat_top fun x hx ↦ hkeys.stmtsVisible ?_).bind_ok ?_
  · simpa using hx
  rintro hstmts d₂ ⟨⟨hat₂, helse₂⟩, hadds₂⟩
  have hat_bodies (f : Func) (hf : f ∈ p.funcs) : d₂.At f.name f.params (Stmt.flatten f.stmts) :=
    ⟨(helse₂ _ (hkeys.func_ne f hf)).trans (hat₁ f hf).vars, (hat₁ f hf).declared⟩
  obtain ⟨hadds₃, henv₃⟩ := adds_foldl_varRules hadds₂.good ("" :: p.funcs.map Func.name)
  rw [List.foldl_cons, List.foldl_map] at hadds₃ henv₃
  refine ⟨_, rfl, fun f hf ↦ (hat_bodies f hf).of_env_eq henv₃, hat₂.of_env_eq henv₃, ?_, ?_⟩
  · exact fun f hf ↦ hadds₃.has _ (hadds₂.has _ (hadds₁.has _ (hann f hf).has_result))
  · have hvars (ρ : String → Level) :
        (∀ fn ∈ "" :: p.funcs.map Func.name, ∀ v ∈ Env.vars d₂.env fn, VarFits (levels ρ) v) ↔
          (∀ v ∈ Stmt.scopeVars "" [] (Stmt.flatten p.stmts), VarFits (levels ρ) v) ∧
            ∀ f ∈ p.funcs, ∀ v ∈ Stmt.scopeVars f.name f.params (Stmt.flatten f.stmts),
              VarFits (levels ρ) v := by
      rw [List.forall_mem_cons, hat₂.vars, List.nil_append, List.forall_mem_map]
      exact and_congr_right fun _ ↦ forall₂_congr fun f hf ↦ by rw [(hat_bodies f hf).vars]
    have hbodies₁ := hadds₀.trans hadds₁ (fun ρ ρ' hagree hall f hf ↦
      (bodyFits_agree hg (hbodies f hf) (hkey f hf) hagree).mpr (hall f hf)) fun ρ ↦
        (iff_of_eq (true_and _)).symm
    have hstmts₂ := hbodies₁.trans hadds₂ (fun ρ ρ' hagree ↦ (forall_fits_agree hg hstmts
      (fun x hx ↦ hkeys.stmtsVisible (by simpa using hx)) hagree).mpr) fun ρ ↦ Iff.rfl
    refine hstmts₂.trans hadds₃ ?_ fun ρ ↦ ?_
    · exact fun ρ ρ' hagree hall fn hfn v hv ↦
        (varFits_agree (hadds₂.good.visible_of_mem_vars hv) hagree).mpr (hall fn hfn v hv)
    · rw [Program.fits_nil_iff, hvars]

end Draft

end Stratify
