import Stratify.Proofs.Constraint.Stability
import Stratify.Proofs.Typing.Formation
import Stratify.Proofs.Typing.Randomness

/-!
# What inference knows of declared variables

If inference accepts a program without functions, then a variable that is given from outside has
the level `data`, and no statement gives it a value; any other variable that no statement gives a
value is at least of level `model`. The names of the program do not matter. Even an empty one does
no harm: its variable is in no constraint, since its key stands for the constant `data`, and so the
variable gets that level.
-/

namespace Stratify

namespace Draft

variable {g : Globals} {d d' : Draft} {before : List Stmt}

/-- The draft knows the variable that a statement has declared, and if it is given from outside. -/
def Records (d : Draft) : Stmt → Prop
  | .decl _ x data init => ∃ v, d.find? "" x = some v ∧ v.data = data ∧
    (data = true → v.assigned = false ∧ init = none)
  | _ => True

theorem records_of_decl {type x : String} {data : Bool} {init : Option Expr} {v : Var}
    (hv : d.find? "" x = some v) (hdata : v.data = data)
    (hgiven : data = true → v.assigned = false ∧ init = none) :
    d.Records (.decl type x data init) :=
  ⟨v, hv, hdata, hgiven⟩

/-- What is known of a variable stays known while its entry stays the same. -/
theorem Records.of_find?_eq {s : Stmt} (h : d.Records s)
    (hfind : ∀ x ∈ s.declName?, d'.find? "" x = d.find? "" x) : d'.Records s := by
  cases s with
  | decl type x data init =>
      obtain ⟨v, hv, hv'⟩ := h
      exact ⟨v, (hfind x rfl).trans hv, hv'⟩
  | _ => trivial

theorem Records.of_env_eq {s : Stmt} (h : d.Records s) (henv : d'.env = d.env) : d'.Records s :=
  h.of_find?_eq fun x _ ↦ by rw [find?, find?, henv]

theorem records_of_declare_eq_ok (h : d.Tracks before) (hrecords : ∀ s ∈ before, d.Records s)
    {type x : String} {data : Bool} {init : Option Expr} (hdata : data = true → init = none)
    (hok : declare (.decl type x data init) ⟨⟨"", x⟩, type, data, false, init.isSome,
      .stmt (.decl type x data init)⟩ d = .ok d') :
    ∀ s ∈ before ++ [.decl type x data init], d'.Records s := by
  have hfresh := (h.declare hok).2
  unfold Draft.declare at hok
  split at hok
  · cases hok
  next env henv =>
    cases hok
    refine List.forall_mem_append.mpr ⟨fun s hs ↦ (hrecords s hs).of_find?_eq fun y hy ↦ ?_, ?_⟩
    · have hyx : y ≠ x := by
        rintro rfl
        exact hfresh (List.mem_filterMap.mpr ⟨s, hs, hy⟩)
      refine (Env.find?_declare? henv).trans (if_neg fun hid ↦ hyx ?_)
      exact congrArg VarId.name hid
    · rw [List.forall_mem_singleton]
      refine ⟨_, (Env.find?_declare? henv).trans (if_pos rfl), rfl, fun htrue ↦ ?_⟩
      rw [hdata htrue]
      exact ⟨rfl, rfl⟩

theorem records_of_decl_eq_ok (hfuncs : g.funcs = []) (h : d.Tracks before)
    (hrecords : ∀ s ∈ before, d.Records s) {type x : String} {data : Bool} {init : Option Expr}
    (hok : decl g "" type x data init d = .ok d') :
    ∀ s ∈ before ++ [.decl type x data init], d'.Records s := by
  unfold decl at hok
  split at hok
  · cases hok
  next hinit =>
    have hdata : data = true → init = none := by
      rintro rfl
      simpa using hinit
    split at hok
    · cases hok
    cases init with
    | none => exact records_of_declare_eq_ok h hrecords hdata hok
    | some e =>
        obtain ⟨⟨key, d₁⟩, hexpr, hok⟩ := Fault.bind_eq_ok_iff.mp hok
        obtain ⟨d₂, hdeclare, hok⟩ := Fault.bind_eq_ok_iff.mp hok
        cases hok
        have henv := (of_expr_eq_ok hfuncs hexpr).1
        have hdeclared := records_of_declare_eq_ok (h.of_env_eq henv)
          (fun s hs ↦ (hrecords s hs).of_env_eq henv) hdata hdeclare
        exact fun s hs ↦ (hdeclared s hs).of_env_eq rfl

theorem records_of_assign_eq_ok (hfuncs : g.funcs = []) (hcoherent : Env.Coherent d.env)
    (hrecords : ∀ s ∈ before, d.Records s) {x : String} {e : Expr}
    (hok : Draft.assign g "" x e d = .ok d') : ∀ s ∈ before ++ [.assign x e], d'.Records s := by
  unfold Draft.assign at hok
  cases hv : d.find? "" x with
  | none => simp [hv] at hok
  | some v =>
      simp only [hv] at hok
      split at hok
      · cases hok
      next hnot =>
        obtain ⟨⟨key, d₁⟩, hexpr, hok⟩ := Fault.bind_eq_ok_iff.mp hok
        cases hok
        have henv := (of_expr_eq_ok hfuncs hexpr).1
        have hid : v.id = ⟨"", x⟩ := hcoherent _ v hv
        have hfind (y : String) : Env.find? (Env.markAssigned d₁.env v) "" y =
            if y = x then some { v with assigned := true } else d.find? "" y := by
          rw [Env.find?_markAssigned, hid, henv]
          simp [find?]
        refine List.forall_mem_append.mpr ⟨fun s hs ↦ ?_, fun s hs ↦ ?_⟩
        · have hold := hrecords s hs
          cases s with
          | decl type y data init =>
              by_cases hyx : y = x
              · subst hyx
                obtain ⟨w, hw, hdata, -⟩ := hold
                obtain rfl : v = w := Option.some.inj (hv.symm.trans hw)
                refine records_of_decl ((hfind y).trans (if_pos rfl)) hdata fun htrue ↦ ?_
                exact absurd (hdata.trans htrue) hnot
              · obtain ⟨w, hw, hw'⟩ := hold
                exact ⟨w, ((hfind y).trans (if_neg hyx)).trans hw, hw'⟩
          | _ => trivial
        · rw [List.mem_singleton.mp hs]
          trivial

theorem records_of_sample_eq_ok (hfuncs : g.funcs = []) (hrecords : ∀ s ∈ before, d.Records s)
    {x dist : String} {args : List Expr} (hok : Draft.sample g "" x dist args d = .ok d') :
    ∀ s ∈ before ++ [.sample x dist args], d'.Records s := by
  unfold Draft.sample at hok
  split at hok
  · cases hok
  split at hok
  · have henv := (of_sampleArgs_eq_ok hfuncs hok).1
    refine List.forall_mem_append.mpr ⟨fun s hs ↦ (hrecords s hs).of_env_eq henv, fun s hs ↦ ?_⟩
    rw [List.mem_singleton.mp hs]
    trivial
  · cases hok

theorem Tracks.records_of_stmts_eq_ok (hfuncs : g.funcs = []) {ss : List Stmt}
    (hflat : ∀ s ∈ ss, s.isFlat = true) (h : d.Tracks before)
    (hrecords : ∀ s ∈ before, d.Records s) (hok : stmts g "" ss d = .ok d') :
    ∀ s ∈ before ++ ss, d'.Records s := by
  induction ss generalizing before d with
  | nil =>
      cases hok
      simpa using hrecords
  | cons s ss ih =>
      rw [List.forall_mem_cons] at hflat
      obtain ⟨d₁, hs, hss⟩ := Fault.bind_eq_ok_iff.mp hok
      have hstep : d₁.Tracks (before ++ [s]) ∧ ∀ u ∈ before ++ [s], d₁.Records u := by
        cases s with
        | decl type x data init =>
            exact ⟨(h.of_decl_eq_ok hfuncs hs).1, records_of_decl_eq_ok hfuncs h hrecords hs⟩
        | assign x e =>
            exact ⟨(h.of_assign_eq_ok hfuncs hs).1,
              records_of_assign_eq_ok hfuncs h.coherent hrecords hs⟩
        | sample x dist args =>
            exact ⟨(h.of_sample_eq_ok hfuncs hs).1, records_of_sample_eq_ok hfuncs hrecords hs⟩
        | block list => cases hflat.1
        | _ => cases hs
      rw [List.append_cons]
      exact ih hflat.2 hstep.1 hstep.2 hss

end Draft

namespace Typing

variable {prims : Primitives} {p : Program} {seeds : Seeds} {t : Typing}

/-- What a declaration tells of the level of its variable. -/
structure Declares (t : Typing) (x : String) (data : Bool) (init : Option Expr) : Prop where
  given : data = true → t.levels.level x = .data ∧ t.assigned x = false ∧ init = none
  unassigned : data = false → t.assigned x = false → .model ≤ t.levels.level x

/-- In an accepted program without functions, the variables given from outside are `data` and
nothing assigns them, and the other variables that nothing assigns are not `data`. -/
theorem declares_of_infer_eq_ok (hfuncs : p.funcs = []) (h : infer prims p seeds = .ok t)
    {type x : String} {data : Bool} {init : Option Expr}
    (hdecl : .decl type x data init ∈ Stmt.flatten p.stmts) : t.Declares x data init := by
  obtain ⟨d, d', sol, hstmts, hseed, hsol, rfl⟩ := exists_draft_of_infer_eq_ok hfuncs h
  have hflat := Stmt.isFlat_flatten p.stmts
  obtain ⟨htracks, -⟩ := Draft.tracks_empty.of_stmts_eq_ok rfl hflat hstmts
  obtain ⟨v, hv, hdata, hgiven⟩ := Draft.tracks_empty.records_of_stmts_eq_ok rfl hflat
    (fun _ hs ↦ (by cases hs)) hstmts _ hdecl
  have hkey : v.key = x := by
    rw [Var.key, htracks.coherent _ v hv]
    rfl
  have hassigned : (read p d' sol).assigned x = v.assigned := by
    have henv : d'.env = d.env := (Draft.env_seed hseed).trans (Draft.env_varRules "")
    rw [Draft.find?, ← henv] at hv
    simp only [assigned, find?, read, hv]
  have hforces := (Draft.forces_varRules "").trans (Draft.forces_of_seed_eq_ok hseed)
  have hobeys := (hforces _ (LevelSystem.of_solve_eq_ok hsol).2).2.1 v
    ((Env.find?_eq_some htracks.coherent).mp hv).1
  rw [Draft.VarObeys, hkey, hdata] at hobeys
  by_cases hx : x = ""
  · have hempty : sol.level x = .data := by
      have hgrows := (((Draft.grown_stmts _ _).of_eq_ok hstmts).trans (d.grows_varRules "")).trans
        ((Draft.grown_seed _ _).of_eq_ok hseed)
      have hproper := (hgrows.formed Draft.formed_empty).proper
      rw [hx]
      exact LevelSystem.level_eq_data_of_solve_eq_ok hproper.closed hproper.named hsol
    refine ⟨fun htrue ↦ ⟨hempty, hassigned.trans (hgiven htrue).1, (hgiven htrue).2⟩, ?_⟩
    intro hfalse hnot
    have hle : (Term.named "" : Term Level).level sol.level ≥ .model :=
      hx ▸ hobeys.2 hfalse (hassigned.symm.trans hnot)
    exact absurd (show Level.model ≤ .data from hle) (by decide)
  · rw [Draft.named_of_ne hx] at hobeys
    refine ⟨fun htrue ↦ ⟨hobeys.1 htrue, hassigned.trans (hgiven htrue).1, (hgiven htrue).2⟩, ?_⟩
    exact fun hfalse hnot ↦ hobeys.2 hfalse (hassigned.symm.trans hnot)

end Typing

end Stratify
