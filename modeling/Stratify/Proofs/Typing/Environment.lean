import Mathlib.Data.List.Nodup
import Stratify.Proofs.Typing.Flow

/-!
# The variables of a scope

Reading the statements of a scope fills the environment in the order of the declarations. The
variables of a scope are its parameters and the variables that its statements declare, and a
variable counts as assigned if its declaration or a statement of the scope gives it a value.
-/

namespace Stratify

namespace OrderedMap

variable {α β : Type} [DecidableEq α]

theorem mem_entries_of_get? {m : OrderedMap α β} {k : α} {v : β} (h : m.get? k = some v) :
    (k, v) ∈ m.entries := by
  obtain ⟨⟨k', v'⟩, hfind, rfl⟩ := Option.map_eq_some_iff.mp h
  have hk : k' = k := by simpa using List.find?_some hfind
  exact hk ▸ List.mem_of_find?_eq_some hfind

theorem get?_of_mem_entries {m : OrderedMap α β} {k : α} {v : β} (h : (k, v) ∈ m.entries) :
    m.get? k = some v := by
  have hsome : (m.entries.find? fun e ↦ decide (e.1 = k)).isSome = true :=
    List.find?_isSome.mpr ⟨(k, v), h, by simp⟩
  obtain ⟨⟨k', v'⟩, hfind⟩ := Option.isSome_iff_exists.mp hsome
  have hk : k' = k := by simpa using List.find?_some hfind
  have heq : (k', v') = (k, v) :=
    List.inj_on_of_nodup_map m.nodup (List.mem_of_find?_eq_some hfind) h hk
  rw [get?, hfind, heq]
  rfl

/-- A key that is not yet there goes to the end. -/
theorem values_insert_of_get?_eq_none {m : OrderedMap α β} {k : α} (h : m.get? k = none) (v : β) :
    (m.insert k v).values = m.values ++ [v] := by
  have hnotMem : k ∉ m.entries.map Prod.fst := by
    intro hmem
    obtain ⟨⟨k', v'⟩, he, rfl⟩ := List.mem_map.mp hmem
    rw [get?_of_mem_entries he] at h
    cases h
  simp [insert, hnotMem, values]

theorem overwrite_eq_map {k : α} {v : β} {entries : List (α × β)}
    (hnodup : (entries.map Prod.fst).Nodup) :
    overwrite k v entries = entries.map fun e ↦ if e.1 = k then (k, v) else e := by
  induction entries with
  | nil => rfl
  | cons e es ih =>
      obtain ⟨hnotMem, hnodup⟩ := List.nodup_cons.mp hnodup
      rw [overwrite, List.map_cons, ih hnodup]
      split
      · next hk =>
          have hrest : (es.map fun e ↦ if e.1 = k then (k, v) else e) = es.map id := by
            refine List.map_congr_left fun e' he' ↦ if_neg fun hk' ↦ hnotMem ?_
            exact List.mem_map.mpr ⟨e', he', hk'.trans hk.symm⟩
          rw [hrest, List.map_id]
      · rfl

end OrderedMap

namespace Env

variable {env : Env} {fn : String}

/-- Every variable is found by its own name. -/
def Coherent (env : Env) : Prop :=
  ∀ id v, OrderedMap.get? env id = some v → v.id = id

theorem coherent_empty : Coherent OrderedMap.empty :=
  fun _ _ h ↦ (by cases h)

theorem mem_vars (h : Coherent env) {v : Var} :
    v ∈ vars env fn ↔ OrderedMap.get? env v.id = some v ∧ v.id.func = fn := by
  rw [vars, List.mem_filter, decide_eq_true_iff]
  refine and_congr_left fun _ ↦ ⟨fun hv ↦ ?_, fun hv ↦ ?_⟩
  · obtain ⟨⟨id, v'⟩, he, rfl⟩ := List.mem_map.mp hv
    have hget := OrderedMap.get?_of_mem_entries he
    exact (h id v' hget).symm ▸ hget
  · exact List.mem_map.mpr ⟨(v.id, v), OrderedMap.mem_entries_of_get? hv, rfl⟩

theorem find?_eq_some (h : Coherent env) {x : String} {v : Var} :
    find? env fn x = some v ↔ v ∈ vars env fn ∧ v.id.name = x := by
  constructor
  · intro hv
    have hid : v.id = ⟨fn, x⟩ := h _ v hv
    exact ⟨(mem_vars h).mpr ⟨hid ▸ hv, by rw [hid]⟩, by rw [hid]⟩
  · rintro ⟨hv, rfl⟩
    obtain ⟨hget, rfl⟩ := (mem_vars h).mp hv
    exact hget

theorem find?_isSome (h : Coherent env) {x : String} :
    (find? env fn x).isSome = true ↔ x ∈ (vars env fn).map fun v ↦ v.id.name := by
  simp only [Option.isSome_iff_exists, find?_eq_some h, List.mem_map]

theorem find?_of_declare? {env' : Env} {v : Var} (h : declare? env v = some env') :
    find? env v.id.func v.id.name = none := by
  unfold declare? at h
  split at h
  · cases h
  · next hnone => exact Option.not_isSome_iff_eq_none.mp hnone

theorem vars_declare? {env' : Env} {v : Var} (h : declare? env v = some env') :
    vars env' fn = vars env fn ++ if v.id.func = fn then [v] else [] := by
  have hnone : OrderedMap.get? env v.id = none := find?_of_declare? h
  unfold declare? at h
  simp only [hnone, Option.isSome_none, Bool.false_eq_true, if_false, Option.some.injEq] at h
  rw [← h, vars, OrderedMap.values_insert_of_get?_eq_none hnone, List.filter_append]
  simp [vars, List.filter_cons]

theorem declare?_eq_none {v : Var} :
    declare? env v = none ↔ (find? env v.id.func v.id.name).isSome = true := by
  unfold declare?
  split <;> simp_all [find?]

theorem find?_declare? {env' : Env} {v : Var} {x : String} (h : declare? env v = some env') :
    find? env' fn x = if ⟨fn, x⟩ = v.id then some v else find? env fn x := by
  unfold declare? at h
  split at h
  · cases h
  · cases h
    exact OrderedMap.get?_insert ..

theorem find?_markAssigned {v : Var} {x : String} : find? (markAssigned env v) fn x =
    if ⟨fn, x⟩ = v.id then some { v with assigned := true } else find? env fn x :=
  OrderedMap.get?_insert ..

theorem coherent_declare? (h : Coherent env) {env' : Env} {v : Var}
    (hdeclare : declare? env v = some env') : Coherent env' := by
  unfold declare? at hdeclare
  split at hdeclare
  · cases hdeclare
  · cases hdeclare
    intro id w hw
    rw [OrderedMap.get?_insert] at hw
    split at hw
    · next hid =>
        cases hw
        exact hid.symm
    · exact h id w hw

/-- The same variable, now with a statement that gives it a value. -/
def markedIf (id : VarId) (v : Var) : Var :=
  if v.id = id then { v with assigned := true } else v

@[simp] theorem markedIf_id (id : VarId) (v : Var) : (markedIf id v).id = v.id := by
  unfold markedIf
  split <;> rfl

theorem values_markAssigned (h : Coherent env) {v : Var}
    (hv : OrderedMap.get? env v.id = some v) :
    OrderedMap.values (markAssigned env v) = (OrderedMap.values env).map (markedIf v.id) := by
  have hmem : v.id ∈ env.entries.map Prod.fst :=
    List.mem_map.mpr ⟨(v.id, v), OrderedMap.mem_entries_of_get? hv, rfl⟩
  simp only [markAssigned, OrderedMap.insert, hmem, dif_pos, OrderedMap.values,
    OrderedMap.overwrite_eq_map env.nodup, List.map_map]
  refine List.map_congr_left fun e he ↦ ?_
  have hget := OrderedMap.get?_of_mem_entries (k := e.1) (v := e.2) he
  have hid : e.2.id = e.1 := h e.1 e.2 hget
  by_cases heq : e.1 = v.id
  · have hev : e.2 = v := Option.some.inj (hget.symm.trans (heq ▸ hv))
    simp [markedIf, heq, hev]
  · simp [markedIf, heq, hid]

theorem vars_markAssigned (h : Coherent env) {v : Var} (hv : OrderedMap.get? env v.id = some v) :
    vars (markAssigned env v) fn = (vars env fn).map (markedIf v.id) := by
  rw [vars, values_markAssigned h hv, List.filter_map, vars]
  congr 2
  funext w
  simp

theorem coherent_markAssigned (h : Coherent env) (v : Var) : Coherent (markAssigned env v) := by
  intro id w hw
  rw [markAssigned, OrderedMap.get?_insert] at hw
  split at hw
  · next hid =>
      cases hw
      exact hid.symm
  · exact h id w hw

end Env

/-! ### Scopes -/

namespace Stmt

/-- The statement gives the variable a new value. -/
def assigns (x : String) : Stmt → Bool
  | assign y _ => x == y
  | _ => false

/-- The variable that a statement of a scope with the statements `all` declares. -/
def declVar? (fn : String) (all : List Stmt) : Stmt → Option Var
  | decl type x data init =>
    some ⟨⟨fn, x⟩, type, data, false, init.isSome || all.any (assigns x),
      .stmt (decl type x data init)⟩
  | _ => none

/-- The parameters and then the declared variables of a scope. -/
def scopeVars (fn : String) (params : List Param) (ss : List Stmt) : List Var :=
  params.map (fun p ↦ ⟨⟨fn, p.name⟩, p.type, false, true, true, .param p⟩) ++
    ss.filterMap (declVar? fn ss)

variable {g : Globals} {fn : String} {params : List Param}

theorem names_scopeVars (fn : String) (params : List Param) (ss : List Stmt) :
    (scopeVars fn params ss).map (fun v ↦ v.id.name) = params.map Param.name ++ declNames ss := by
  have hdecls (all : List Stmt) : (ss.filterMap (declVar? fn all)).map (fun v ↦ v.id.name) =
      declNames ss := by
    rw [declNames, List.map_filterMap]
    congr 1
    funext s
    cases s <;> rfl
  rw [scopeVars, List.map_append, hdecls, List.map_map]
  rfl

theorem scopeVars_append_decl {ss : List Stmt} {type x : String} {data : Bool} {init : Option Expr}
    (h : ∀ e, assign x e ∉ ss) :
    scopeVars fn params (ss ++ [decl type x data init]) = scopeVars fn params ss ++
      [⟨⟨fn, x⟩, type, data, false, init.isSome, .stmt (decl type x data init)⟩] := by
  have hany : ss.any (assigns x) = false := by
    rw [List.any_eq_false]
    intro s hs hassigns
    cases s with
    | assign y e =>
        simp only [assigns, beq_iff_eq] at hassigns
        exact h e (hassigns ▸ hs)
    | _ => cases hassigns
  have hold : declVar? fn (ss ++ [decl type x data init]) = declVar? fn ss := by
    funext s
    cases s <;> simp [declVar?, assigns]
  rw [scopeVars, scopeVars, List.filterMap_append, hold]
  simp [declVar?, hany]

theorem scopeVars_append_assign {ss : List Stmt} {x : String} {e : Expr} :
    scopeVars fn params (ss ++ [assign x e]) =
      (scopeVars fn params ss).map (Env.markedIf ⟨fn, x⟩) := by
  have hold : declVar? fn (ss ++ [assign x e]) =
      fun s ↦ (declVar? fn ss s).map (Env.markedIf ⟨fn, x⟩) := by
    funext s
    cases s with
    | decl type y data init =>
        by_cases hy : y = x
        · simp [declVar?, assigns, Env.markedIf, hy]
        · simp [declVar?, assigns, Env.markedIf, hy, beq_eq_false_iff_ne.mpr hy]
    | _ => rfl
  rw [scopeVars, scopeVars, List.filterMap_append, hold, List.map_append, List.map_filterMap,
    List.map_map]
  congr 1
  · refine List.map_congr_left fun p _ ↦ ?_
    simp [Env.markedIf]
  · simp [declVar?]

theorem scopeVars_append_sample {ss : List Stmt} {x dist : String} {args : List Expr} :
    scopeVars fn params (ss ++ [sample x dist args]) = scopeVars fn params ss := by
  have hold : declVar? fn (ss ++ [sample x dist args]) = declVar? fn ss := by
    funext s
    cases s <;> simp [declVar?, assigns]
  rw [scopeVars, scopeVars, List.filterMap_append, hold]
  simp [declVar?]

/-- The statements obey the rules of their scope one after the other. -/
def ScopedFrom (g : Globals) (fn : String) (params : List String) : List Stmt → List Stmt → Prop
  | _, [] => True
  | before, s :: ss =>
    ((∀ x ∈ s.declName?, x ∉ params ++ declNames before) ∧ s.ScopedAfter g fn params before) ∧
      ScopedFrom g fn params (before ++ [s]) ss

theorem ScopedFrom.scopedAfter {ps : List String} {s : Stmt} {before front after : List Stmt}
    (h : ScopedFrom g fn ps before (front ++ s :: after)) :
    s.ScopedAfter g fn ps (before ++ front) := by
  induction front generalizing before with
  | nil => simpa using h.1.2
  | cons t front ih => simpa using ih h.2

theorem declNames_append (ss ts : List Stmt) :
    declNames (ss ++ ts) = declNames ss ++ declNames ts :=
  List.filterMap_append

theorem nodup_declNames_concat {ps : List String} {before : List Stmt} {s : Stmt}
    (hnodup : (ps ++ declNames before).Nodup) :
    (ps ++ declNames (before ++ [s])).Nodup ↔ ∀ x ∈ s.declName?, x ∉ ps ++ declNames before := by
  rw [declNames_append, ← List.append_assoc]
  cases hx : s.declName? with
  | none => simpa [declNames, hx] using hnodup
  | some x =>
      have hsingle : declNames [s] = [x] := by simp [declNames, hx]
      rw [hsingle, List.nodup_append]
      simp only [Option.mem_def, Option.some.injEq, forall_eq', List.mem_singleton, ne_eq,
        forall_eq]
      exact ⟨fun h hmem ↦ h.2.2 x hmem rfl,
        fun h ↦ ⟨hnodup, List.nodup_singleton x, fun a ha hax ↦ h (hax ▸ ha)⟩⟩

theorem scopedFrom_iff {ps : List String} {before ss : List Stmt}
    (hnodup : (ps ++ declNames before).Nodup) :
    ScopedFrom g fn ps before ss ↔ (ps ++ declNames (before ++ ss)).Nodup ∧
      ∀ front s after, ss = front ++ s :: after → s.ScopedAfter g fn ps (before ++ front) := by
  induction ss generalizing before with
  | nil => simpa [ScopedFrom] using hnodup
  | cons s ss ih =>
      rw [ScopedFrom, ← nodup_declNames_concat hnodup, List.append_cons before s ss]
      constructor
      · rintro ⟨⟨hconcat, hs⟩, hfrom⟩
        have hall : ScopedFrom g fn ps before (s :: ss) :=
          ⟨⟨(nodup_declNames_concat hnodup).mp hconcat, hs⟩, hfrom⟩
        exact ⟨((ih hconcat).mp hfrom).1, fun front t after heq ↦ (heq ▸ hall).scopedAfter⟩
      · rintro ⟨hall, hrest⟩
        have hconcat : (ps ++ declNames (before ++ [s])).Nodup := by
          rw [declNames_append, ← List.append_assoc] at hall
          exact (List.nodup_append.mp hall).1
        refine ⟨⟨hconcat, by simpa using hrest [] s ss rfl⟩, (ih hconcat).mpr ⟨hall, ?_⟩⟩
        rintro front t after rfl
        simpa using hrest (s :: front) t after rfl

theorem scopedIn_iff {ps : List String} {ss : List Stmt} :
    ScopedIn g fn ps ss ↔ ps.Nodup ∧ ScopedFrom g fn ps [] ss := by
  constructor
  · intro h
    have hps : (ps ++ declNames []).Nodup := by
      simpa [declNames] using (List.nodup_append.mp h.nodup).1
    exact ⟨by simpa [declNames] using hps, (scopedFrom_iff hps).mpr ⟨h.nodup, h.stmts⟩⟩
  · rintro ⟨hps, hfrom⟩
    obtain ⟨hnodup, hstmts⟩ := (scopedFrom_iff (by simpa [declNames] using hps)).mp hfrom
    exact ⟨hnodup, hstmts⟩

theorem mem_declNames_concat {ps : List String} {before : List Stmt} {s : Stmt} {x : String}
    (h : x ∈ ps ++ declNames before) : x ∈ ps ++ declNames (before ++ [s]) := by
  rw [declNames_append, ← List.append_assoc]
  exact List.mem_append_left _ h

/-- What a statement demands only concerns the variables of its scope up to the statement, and
what callers know of functions. -/
theorem fits_congr {A B : Assignment}
    (hresult : ∀ f ∈ g.funcs, B (.result f.name) = A (.result f.name))
    (hparam : ∀ f ∈ g.funcs, ∀ p ∈ f.params, B (.var ⟨f.name, p.name⟩) = A (.var ⟨f.name, p.name⟩))
    {ps : List String} {before : List Stmt} {s : Stmt} (hs : s.ScopedAfter g fn ps before)
    (h : ∀ x ∈ ps ++ declNames (before ++ [s]), B (.var ⟨fn, x⟩) = A (.var ⟨fn, x⟩)) :
    s.Fits g B fn ↔ s.Fits g A fn := by
  have hold (x : String) (hx : x ∈ ps ++ declNames before) := h x (mem_declNames_concat hx)
  have hflow {e : Expr} (he : e.Scoped g (· ∈ ps ++ declNames before)) (l : Level) :
      e.FlowsTo g B fn l ↔ e.FlowsTo g A fn l :=
    Expr.flowsTo_congr hresult hparam fun x hx ↦ hold x (he.vars x hx)
  cases s with
  | decl type x data init =>
      have hx : B (.var ⟨fn, x⟩) = A (.var ⟨fn, x⟩) := by
        refine h x (List.mem_append_right _ ?_)
        rw [declNames_append]
        exact List.mem_append_right _ (List.mem_singleton_self x)
      refine forall₂_congr fun e he ↦ ?_
      rw [hx, hflow (hs.2 e he)]
  | assign x e => rw [Fits, Fits, hold x hs.1, hflow hs.2.2]
  | sample x dist args =>
      rw [Fits, Fits, hold x hs.1]
      exact and_congr_right fun _ ↦ forall₂_congr fun e he ↦ hflow (hs.2.2 e he) .model
  | _ => exact Iff.rfl

theorem mem_declNames_of_mem {type x : String} {data : Bool} {init : Option Expr} {ss : List Stmt}
    (h : decl type x data init ∈ ss) : x ∈ declNames ss :=
  List.mem_filterMap.mpr ⟨_, h, rfl⟩

theorem FitIn.congr {A B : Assignment}
    (hresult : ∀ f ∈ g.funcs, B (.result f.name) = A (.result f.name))
    (hparam : ∀ f ∈ g.funcs, ∀ p ∈ f.params, B (.var ⟨f.name, p.name⟩) = A (.var ⟨f.name, p.name⟩))
    {ps : List String} {ss : List Stmt} (hss : ScopedIn g fn ps ss)
    (h : ∀ x ∈ ps ++ declNames ss, B (.var ⟨fn, x⟩) = A (.var ⟨fn, x⟩)) (hA : FitIn g A fn ss) :
    FitIn g B fn ss where
  stmts s hs := by
    obtain ⟨front, after, heq⟩ := List.append_of_mem hs
    refine (fits_congr hresult hparam (hss.stmts front s after heq) fun x hx ↦ h x ?_).mpr
      (hA.stmts s hs)
    rw [heq, List.append_cons, declNames_append, ← List.append_assoc]
    exact List.mem_append_left _ hx
  data type x init hs := by
    rw [h x (List.mem_append_right _ (mem_declNames_of_mem hs))]
    exact hA.data type x init hs
  unassigned type x hs hnone := by
    rw [h x (List.mem_append_right _ (mem_declNames_of_mem hs))]
    exact hA.unassigned type x hs hnone

end Stmt

end Stratify
