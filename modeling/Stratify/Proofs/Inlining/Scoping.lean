import Stratify.Proofs.Inlining.Relation
import Stratify.Proofs.Typing.Environment

/-!
# Inlined programs are well scoped

All the statements that inlining writes stand in one scope. The names of a copy are free when it is
entered, so none of them is declared twice, and what an expression reads was declared before the
statements that it needs.
-/

namespace Stratify

namespace Expr

variable {g : Globals} {Γ Γ' : String → Prop}

theorem Scoped.mono {e : Expr} (h : e.Scoped g Γ) (hΓ : ∀ x, Γ x → Γ' x) : e.Scoped g Γ' :=
  ⟨fun x hx ↦ hΓ x (h.vars x hx), h.calls⟩

theorem ScopedAll.mono {es : List Expr} (h : ScopedAll g Γ es) (hΓ : ∀ x, Γ x → Γ' x) :
    ScopedAll g Γ' es :=
  ⟨fun x hx ↦ hΓ x (h.vars x hx), h.calls⟩

end Expr

namespace Stmt

theorem scopedFrom_append {g : Globals} {fn : String} {ps : List String}
    {before ss ts : List Stmt} :
    ScopedFrom g fn ps before (ss ++ ts) ↔
      ScopedFrom g fn ps before ss ∧ ScopedFrom g fn ps (before ++ ss) ts := by
  induction ss generalizing before with
  | nil => simp [ScopedFrom]
  | cons s ss ih =>
      rw [List.cons_append, ScopedFrom, ScopedFrom, ih, ← List.append_cons before s ss]
      exact and_assoc.symm

theorem mem_declNames_append_left {ss ts : List Stmt} {x : String} (h : x ∈ declNames ss) :
    x ∈ declNames (ss ++ ts) := by
  rw [declNames_append]
  exact List.mem_append_left _ h

end Stmt

namespace Inlining

/-- The target language, when no function is left. -/
abbrev bare (prims : Primitives) : Globals :=
  ⟨prims, []⟩

/-- A graph of the functions of a program, whose bodies and results are well scoped. -/
structure Sound (prims : Primitives) (p : Program) (g : CallGraph) : Prop where
  func? : ∀ fn, p.func? fn = g.func? fn
  params : ∀ fn f, g.func? fn = some f → f.paramNames.Nodup
  bodies : ∀ fn f, g.func? fn = some f →
    Stmt.ScopedFrom (p.globals prims) f.name f.paramNames [] (Stmt.flatten f.stmts)
  results : ∀ fn f, g.func? fn = some f → ∀ e, f.result = some e →
    e.Scoped (p.globals prims) (· ∈ f.scope)

theorem Sound.func?_name {prims : Primitives} {p : Program} {g : CallGraph} (h : Sound prims p g)
    {fn : String} {f : Func} (hf : g.func? fn = some f) : p.func? f.name = some f := by
  rw [h.func?, (Inlining.func?_name hf).1, hf]

variable {prims : Primitives} {p : Program} {g : CallGraph} {r : String → String}
  {before pre more : List Stmt} {s s₁ s' : State} {own : List String}

/-- All that is declared is taken. -/
def Within (before : List Stmt) (s : State) : Prop :=
  ∀ y ∈ Stmt.declNames before, y ∈ s.names.taken

/-- A fresh variable of some statements, and the variable of a function that it stands for. -/
structure Traces (p : Program) (pre : List Stmt) (o : String × Origin) : Prop where
  declared : o.1 ∈ Stmt.declNames pre
  owner : ∃ f, p.func? o.2.func = some f ∧ o.2.name ∈ f.scope
  root : ∃ t, o.1 = o.2.name ++ t

/-- Statements that may follow others. Apart from the scope's own variables they declare those that
are recorded while they are written. -/
structure Emits (prims : Primitives) (p : Program) (own : List String) (before pre : List Stmt)
    (s s' : State) : Prop where
  obeys : Stmt.ScopedFrom (bare prims) "" [] before pre
  names : ∀ y ∈ Stmt.declNames pre, y ∈ own ∨ y ∉ s.names.taken ∧ ∃ o ∈ s'.origins, o.1 = y
  taken : ∀ y ∈ Stmt.declNames pre, y ∈ s'.names.taken
  origins : ∀ o ∈ s'.origins, o ∈ s.origins ∨ Traces p pre o

theorem Emits.nil : Emits prims p own before [] s s :=
  ⟨trivial, by simp [Stmt.declNames], by simp [Stmt.declNames], fun _ ho ↦ Or.inl ho⟩

theorem Emits.fresh (h : Emits prims p [] before pre s s') :
    ∀ y ∈ Stmt.declNames pre, y ∉ s.names.taken :=
  fun y hy ↦ ((h.names y hy).resolve_left List.not_mem_nil).1

theorem Traces.append_left {o : String × Origin} (h : Traces p pre o) : Traces p (pre ++ more) o :=
  ⟨Stmt.mem_declNames_append_left h.declared, h.owner, h.root⟩

theorem Traces.append_right {o : String × Origin} (h : Traces p more o) :
    Traces p (pre ++ more) o := by
  refine ⟨?_, h.owner, h.root⟩
  rw [Stmt.declNames_append]
  exact List.mem_append_right _ h.declared

theorem Emits.append (hgrows : s.Grows s₁) (hgrows' : s₁.Grows s')
    (h : Emits prims p own before pre s s₁) (h' : Emits prims p own (before ++ pre) more s₁ s') :
    Emits prims p own before (pre ++ more) s s' := by
  refine ⟨Stmt.scopedFrom_append.mpr ⟨h.obeys, h'.obeys⟩, fun y hy ↦ ?_, fun y hy ↦ ?_,
    fun o ho ↦ ?_⟩
  · rw [Stmt.declNames_append] at hy
    rcases List.mem_append.mp hy with hy | hy
    · exact (h.names y hy).imp_right fun ⟨hfree, o, ho, heq⟩ ↦ ⟨hfree, o, hgrows'.origins o ho, heq⟩
    · exact (h'.names y hy).imp_right fun ⟨hfree, ho⟩ ↦ ⟨fun hy ↦ hfree (hgrows.taken y hy), ho⟩
  · rw [Stmt.declNames_append] at hy
    rcases List.mem_append.mp hy with hy | hy
    · exact hgrows'.taken y (h.taken y hy)
    · exact h'.taken y hy
  · rcases h'.origins o ho with ho | ho
    · exact (h.origins o ho).imp_right .append_left
    · exact Or.inr ho.append_right

theorem Emits.within (hgrows : s.Grows s') (h : Emits prims p own before pre s s')
    (hwithin : Within before s) : Within (before ++ pre) s' := by
  intro y hy
  rw [Stmt.declNames_append] at hy
  rcases List.mem_append.mp hy with hy | hy
  · exact hgrows.taken y (hwithin y hy)
  · exact h.taken y hy

/-! ### Expressions -/

def ExprScopes (prims : Primitives) (p : Program) (r : String → String) (e : Expr) (s : State)
    (pre : List Stmt) (e' : Expr) (s' : State) : Prop :=
  ∀ (Γ : String → Prop) (before : List Stmt), e.Scoped (p.globals prims) Γ →
    (∀ x, Γ x → r x ∈ Stmt.declNames before) → Within before s →
    Emits prims p [] before pre s s' ∧ e'.Scoped (bare prims) (· ∈ Stmt.declNames (before ++ pre))

def ExprsScope (prims : Primitives) (p : Program) (r : String → String) (es : List Expr)
    (s : State) (pre : List Stmt) (es' : List Expr) (s' : State) : Prop :=
  ∀ (Γ : String → Prop) (before : List Stmt), Expr.ScopedAll (p.globals prims) Γ es →
    (∀ x, Γ x → r x ∈ Stmt.declNames before) → Within before s →
    Emits prims p [] before pre s s' ∧
      Expr.ScopedAll (bare prims) (· ∈ Stmt.declNames (before ++ pre)) es'

theorem exprScopes_lit {kind : LitKind} {value : String} :
    ExprScopes prims p r (.lit kind value) s [] (.lit kind value) s :=
  fun _ _ _ _ _ ↦ ⟨.nil, by simp [Expr.reads], by simp [Expr.calls]⟩

theorem exprScopes_var {x : String} : ExprScopes prims p r (.var x) s [] (.var (r x)) s := by
  intro Γ before hscoped hΓ _
  have hx : r x ∈ Stmt.declNames before := hΓ x (hscoped.vars x (List.mem_singleton_self x))
  exact ⟨.nil, by simpa [Expr.reads] using hx, by simp [Expr.calls]⟩

theorem exprScopes_unary {op : Op} {x x' : Expr} (hx : ExprScopes prims p r x s pre x' s') :
    ExprScopes prims p r (.unary op x) s pre (.unary op x') s' := by
  intro Γ before hscoped hΓ hwithin
  obtain ⟨hemits, hx'⟩ := hx Γ before (Expr.scoped_unary.mp hscoped) hΓ hwithin
  exact ⟨hemits, Expr.scoped_unary.mpr hx'⟩

theorem exprScopes_binary {op : Op} {x y x' y' : Expr} (hgrowsX : s.Grows s₁)
    (hgrowsY : s₁.Grows s') (hx : ExprScopes prims p r x s pre x' s₁)
    (hy : ExprScopes prims p r y s₁ more y' s') :
    ExprScopes prims p r (.binary op x y) s (pre ++ more) (.binary op x' y') s' := by
  intro Γ before hscoped hΓ hwithin
  obtain ⟨hscopedX, hscopedY⟩ := Expr.scoped_binary.mp hscoped
  obtain ⟨hemitsX, hx'⟩ := hx Γ before hscopedX hΓ hwithin
  obtain ⟨hemitsY, hy'⟩ := hy Γ (before ++ pre) hscopedY
    (fun x hx ↦ Stmt.mem_declNames_append_left (hΓ x hx)) (hemitsX.within hgrowsX hwithin)
  rw [List.append_assoc] at hy'
  refine ⟨hemitsX.append hgrowsX hgrowsY hemitsY, Expr.scoped_binary.mpr ⟨hx'.mono ?_, hy'⟩⟩
  intro z hz
  rw [← List.append_assoc]
  exact Stmt.mem_declNames_append_left hz

theorem exprsScope_nil : ExprsScope prims p r [] s [] [] s :=
  fun _ _ _ _ _ ↦ ⟨.nil, Expr.scopedAll_nil⟩

theorem exprsScope_cons {e e' : Expr} {es es' : List Expr} (hgrows : s.Grows s₁)
    (hgrows' : s₁.Grows s') (he : ExprScopes prims p r e s pre e' s₁)
    (hes : ExprsScope prims p r es s₁ more es' s') :
    ExprsScope prims p r (e :: es) s (pre ++ more) (e' :: es') s' := by
  intro Γ before hscoped hΓ hwithin
  obtain ⟨hscopedE, hscopedEs⟩ := Expr.scopedAll_cons.mp hscoped
  obtain ⟨hemits, he'⟩ := he Γ before hscopedE hΓ hwithin
  obtain ⟨hemits', hes'⟩ := hes Γ (before ++ pre) hscopedEs
    (fun x hx ↦ Stmt.mem_declNames_append_left (hΓ x hx)) (hemits.within hgrows hwithin)
  rw [List.append_assoc] at hes'
  refine ⟨hemits.append hgrows hgrows' hemits', Expr.scopedAll_cons.mpr ⟨he'.mono ?_, hes'⟩⟩
  intro z hz
  rw [← List.append_assoc]
  exact Stmt.mem_declNames_append_left hz

theorem exprScopes_index {x x' : Expr} {is is' : List Expr} (hgrowsX : s.Grows s₁)
    (hgrowsI : s₁.Grows s') (hx : ExprScopes prims p r x s pre x' s₁)
    (hi : ExprsScope prims p r is s₁ more is' s') :
    ExprScopes prims p r (.index x is) s (pre ++ more) (.index x' is') s' := by
  intro Γ before hscoped hΓ hwithin
  obtain ⟨hemits, hall⟩ := exprsScope_cons hgrowsX hgrowsI hx hi Γ before
    (Expr.scopedAll_cons.mpr (Expr.scoped_index.mp hscoped)) hΓ hwithin
  exact ⟨hemits, Expr.scoped_index.mpr (Expr.scopedAll_cons.mp hall)⟩

theorem exprScopes_prim {fn : String} {args args' : List Expr} (hfn : p.func? fn = none)
    (hargs : ExprsScope prims p r args s pre args' s') :
    ExprScopes prims p r (.call fn args) s pre (.call fn args') s' := by
  intro Γ before hscoped hΓ hwithin
  obtain ⟨hscopedArgs, hadmits⟩ := Expr.scoped_call.mp hscoped
  obtain ⟨hemits, hargs'⟩ := hargs Γ before hscopedArgs hΓ hwithin
  have hprim : (p.globals prims).func? fn = none := hfn
  rw [Globals.Admits, hprim] at hadmits
  exact ⟨hemits, Expr.scoped_call.mpr ⟨hargs', hadmits⟩⟩

/-! ### Statements -/

/-- Which variables of a scope are declared so far, and which of them are data. -/
structure Covers (r : String → String) (all ps : List String) (before beforeT : List Stmt) :
    Prop where
  names : ∀ x ∈ all, r x ∈ Stmt.declNames beforeT ↔ x ∈ ps ++ Stmt.declNames before
  data : ∀ x ∈ all, ∀ type init, .decl type (r x) true init ∈ beforeT →
    ∃ init', .decl type x true init' ∈ before

/-- The second statement declares what the first declares, under a renaming. -/
structure Redeclares (r : String → String) (t t' : Stmt) : Prop where
  name : t'.declName? = t.declName?.map r
  data : ∀ type y init, t' = .decl type y true init →
    ∃ x init', t = .decl type x true init' ∧ y = r x

/-- The variables of a scope under a renaming. -/
structure Renames (r : String → String) (all : List String) (s : State) : Prop where
  taken : ∀ x ∈ all, r x ∈ s.names.taken
  inj : ∀ x ∈ all, ∀ y ∈ all, r x = r y → x = y

theorem Renames.of_grows {all : List String} (h : Renames r all s) (hgrows : s.Grows s') :
    Renames r all s' :=
  ⟨fun x hx ↦ hgrows.taken _ (h.taken x hx), h.inj⟩

def StmtsScope (prims : Primitives) (p : Program) (r : String → String) (ts : List Stmt)
    (s : State) (out : List Stmt) (s' : State) : Prop :=
  ∀ (fn : String) (ps : List String) (before : List Stmt) (all : List String)
    (beforeT : List Stmt),
    Stmt.ScopedFrom (p.globals prims) fn ps before ts →
    (∀ x ∈ ps ++ Stmt.declNames (before ++ ts), x ∈ all) → Renames r all s →
    Covers r all ps before beforeT → Within beforeT s →
    Emits prims p (all.map r) beforeT out s s' ∧ Covers r all ps (before ++ ts) (beforeT ++ out)

/-- After the new statements of its expressions, a statement itself. -/
theorem Covers.concat {all ps : List String} {beforeT : List Stmt} {t t' : Stmt}
    (h : Covers r all ps before beforeT) (hrenames : Renames r all s)
    (hfresh : ∀ y ∈ Stmt.declNames pre, y ∉ s.names.taken) (ht : Redeclares r t t')
    (hall : ∀ x ∈ t.declName?, x ∈ all) :
    Covers r all ps (before ++ [t]) (beforeT ++ (pre ++ [t'])) where
  names x hx := by
    have hpre : r x ∉ Stmt.declNames pre := fun hmem ↦ hfresh _ hmem (hrenames.taken x hx)
    have hlast : r x ∈ Stmt.declNames [t'] ↔ x ∈ Stmt.declNames [t] := by
      simp only [Stmt.declNames, List.mem_filterMap, List.mem_singleton, exists_eq_left, ht.name,
        Option.map_eq_some_iff]
      constructor
      · rintro ⟨y, hy, heq⟩
        rw [hy, hrenames.inj y (hall y hy) x hx heq]
      · exact fun h ↦ ⟨x, h, rfl⟩
    simp only [Stmt.declNames_append, List.mem_append, hpre, false_or, hlast, h.names x hx]
    exact or_assoc
  data x hx type init hmem := by
    simp only [List.mem_append, List.mem_singleton] at hmem
    rcases hmem with hmem | hmem | hmem
    · obtain ⟨init', hinit'⟩ := h.data x hx type init hmem
      exact ⟨init', List.mem_append_left _ hinit'⟩
    · exact absurd (hrenames.taken x hx) (hfresh _ (Stmt.mem_declNames_of_mem hmem))
    · obtain ⟨y, init', rfl, heq⟩ := ht.data type (r x) init hmem.symm
      rw [hrenames.inj x hx y (hall y rfl) heq]
      exact ⟨init', by simp⟩

theorem Emits.concat {all ps : List String} {beforeT : List Stmt} {t t' : Stmt}
    (hemits : Emits prims p [] beforeT pre s s') (hgrows : s.Grows s')
    (hcovers : Covers r all ps before beforeT) (hrenames : Renames r all s)
    (ht : Redeclares r t t') (hall : ∀ x ∈ t.declName?, x ∈ all)
    (hnew : ∀ x ∈ t.declName?, x ∉ ps ++ Stmt.declNames before)
    (hafter : t'.ScopedAfter (bare prims) "" [] (beforeT ++ pre)) :
    Emits prims p (all.map r) beforeT (pre ++ [t']) s s' ∧
      Covers r all ps (before ++ [t]) (beforeT ++ (pre ++ [t'])) := by
  have hfresh := hemits.fresh
  have hname (y : String) (hy : y ∈ Stmt.declNames [t']) : ∃ x ∈ t.declName?, y = r x := by
    simp only [Stmt.declNames, List.mem_filterMap, List.mem_singleton, exists_eq_left, ht.name,
      Option.map_eq_some_iff] at hy
    obtain ⟨x, hx, rfl⟩ := hy
    exact ⟨x, hx, rfl⟩
  refine ⟨⟨?_, fun y hy ↦ ?_, fun y hy ↦ ?_, fun o ho ↦ ?_⟩,
    hcovers.concat hrenames hfresh ht hall⟩
  · refine Stmt.scopedFrom_append.mpr ⟨hemits.obeys, ⟨fun y hy hmem ↦ ?_, hafter⟩, trivial⟩
    obtain ⟨x, hx, rfl⟩ := hname y (by simpa [Stmt.declNames] using hy)
    rw [List.nil_append, Stmt.declNames_append] at hmem
    rcases List.mem_append.mp hmem with hmem | hmem
    · exact hnew x hx ((hcovers.names x (hall x hx)).mp hmem)
    · exact hfresh _ hmem (hrenames.taken x (hall x hx))
  · rw [Stmt.declNames_append] at hy
    rcases List.mem_append.mp hy with hy | hy
    · exact Or.inr ((hemits.names y hy).resolve_left List.not_mem_nil)
    · obtain ⟨x, hx, rfl⟩ := hname y hy
      exact Or.inl (List.mem_map_of_mem (hall x hx))
  · rw [Stmt.declNames_append] at hy
    rcases List.mem_append.mp hy with hy | hy
    · exact hemits.taken y hy
    · obtain ⟨x, hx, rfl⟩ := hname y hy
      exact hgrows.taken _ (hrenames.taken x (hall x hx))
  · exact (hemits.origins o ho).imp_right .append_left

theorem declName_mem {ps : List String} {t : Stmt} :
    ∀ x ∈ t.declName?, x ∈ ps ++ Stmt.declNames (before ++ [t]) := by
  intro x hx
  rw [Stmt.declNames_append]
  have hmem : x ∈ Stmt.declNames [t] := List.mem_filterMap.mpr ⟨t, List.mem_singleton_self t, hx⟩
  exact List.mem_append_right _ (List.mem_append_right _ hmem)

theorem stmtsScope_declare {type x : String} {data : Bool} :
    StmtsScope prims p r [.decl type x data none] s [.decl type (r x) data none] s := by
  intro fn ps before all beforeT hscoped hall hrenames hcovers _
  refine Emits.concat .nil (.refl s) hcovers hrenames ⟨rfl, ?_⟩
    (fun y hy ↦ hall y (declName_mem y hy)) hscoped.1.1 ⟨fun _ ↦ ⟨rfl, rfl⟩, by simp⟩
  rintro type y init ⟨rfl, rfl, rfl, rfl⟩
  exact ⟨x, none, rfl, rfl⟩

/-- What is in scope for the source is declared in the target. -/
theorem Covers.declared {all ps : List String} {beforeT : List Stmt} {t : Stmt}
    (h : Covers r all ps before beforeT)
    (hall : ∀ x ∈ ps ++ Stmt.declNames (before ++ [t]), x ∈ all) :
    ∀ x ∈ ps ++ Stmt.declNames before, r x ∈ Stmt.declNames beforeT :=
  fun x hx ↦ (h.names x (hall x (Stmt.mem_declNames_concat hx))).mpr hx

theorem stmtsScope_define {type x : String} {data : Bool} {e e' : Expr} (hgrows : s.Grows s')
    (he : ExprScopes prims p r e s pre e' s') :
    StmtsScope prims p r [.decl type x data (some e)] s
      (pre ++ [.decl type (r x) data (some e')]) s' := by
  intro fn ps before all beforeT hscoped hall hrenames hcovers hwithin
  obtain ⟨hemits, he'⟩ := he _ beforeT (hscoped.1.2.2 e rfl) (hcovers.declared hall) hwithin
  refine hemits.concat hgrows hcovers hrenames ⟨rfl, ?_⟩ (fun y hy ↦ hall y (declName_mem y hy))
    hscoped.1.1 ⟨fun hdata ↦ ?_, fun e'' he'' ↦ ?_⟩
  · rintro type y init ⟨rfl, rfl, rfl, rfl⟩
    exact ⟨x, some e, rfl, rfl⟩
  · cases (hscoped.1.2.1 hdata).1
  · cases he''
    exact he'

theorem stmtsScope_assign {x : String} {e e' : Expr} (hgrows : s.Grows s')
    (he : ExprScopes prims p r e s pre e' s') :
    StmtsScope prims p r [.assign x e] s (pre ++ [.assign (r x) e']) s' := by
  intro fn ps before all beforeT hscoped hall hrenames hcovers hwithin
  obtain ⟨-, hx, hnotData, hscopedE⟩ := hscoped.1
  obtain ⟨hemits, he'⟩ := he _ beforeT hscopedE (hcovers.declared hall) hwithin
  have hmem : x ∈ all := hall x (Stmt.mem_declNames_concat hx)
  refine hemits.concat hgrows hcovers hrenames ⟨rfl, fun _ _ _ h ↦ (by cases h)⟩
    (fun y hy ↦ hall y (declName_mem y hy)) hscoped.1.1 ⟨?_, fun type init hdecl ↦ ?_, he'⟩
  · exact Stmt.mem_declNames_append_left (hcovers.declared hall x hx)
  · rcases List.mem_append.mp hdecl with hdecl | hdecl
    · obtain ⟨init', hinit'⟩ := hcovers.data x hmem type init hdecl
      exact hnotData type init' hinit'
    · exact hemits.fresh _ (Stmt.mem_declNames_of_mem hdecl) (hrenames.taken x hmem)

theorem stmtsScope_sample {x dist : String} {args args' : List Expr} (hgrows : s.Grows s')
    (hargs : ExprsScope prims p r args s pre args' s') :
    StmtsScope prims p r [.sample x dist args] s (pre ++ [.sample (r x) dist args']) s' := by
  intro fn ps before all beforeT hscoped hall hrenames hcovers hwithin
  obtain ⟨-, hx, hdist, hscopedArgs⟩ := hscoped.1
  obtain ⟨hemits, hargs'⟩ := hargs _ beforeT (Expr.scopedAll_iff.mpr hscopedArgs)
    (hcovers.declared hall) hwithin
  refine hemits.concat hgrows hcovers hrenames ⟨rfl, fun _ _ _ h ↦ (by cases h)⟩
    (fun y hy ↦ hall y (declName_mem y hy)) hscoped.1.1 ⟨?_, hdist, Expr.scopedAll_iff.mp hargs'⟩
  exact Stmt.mem_declNames_append_left (hcovers.declared hall x hx)

theorem stmtsScope_nil : StmtsScope prims p r [] s [] s := by
  intro fn ps before all beforeT _ _ _ hcovers _
  exact ⟨.nil, by simpa using hcovers⟩

theorem stmtsScope_cons {t : Stmt} {ts out : List Stmt} (hgrows : s.Grows s₁)
    (hgrows' : s₁.Grows s') (ht : StmtsScope prims p r [t] s out s₁)
    (hts : StmtsScope prims p r ts s₁ more s') :
    StmtsScope prims p r (t :: ts) s (out ++ more) s' := by
  intro fn ps before all beforeT hscoped hall hrenames hcovers hwithin
  rw [List.append_cons] at hall ⊢
  have hfirst (x : String) (hx : x ∈ ps ++ Stmt.declNames (before ++ [t])) : x ∈ all := by
    refine hall x ?_
    rw [Stmt.declNames_append, ← List.append_assoc]
    exact List.mem_append_left _ hx
  obtain ⟨hemits, hcovers₁⟩ :=
    ht fn ps before all beforeT ⟨hscoped.1, trivial⟩ hfirst hrenames hcovers hwithin
  obtain ⟨hemits', hcovers'⟩ := hts fn ps (before ++ [t]) all (beforeT ++ out) hscoped.2 hall
    (hrenames.of_grows hgrows) hcovers₁ (hemits.within hgrows hwithin)
  rw [List.append_assoc beforeT] at hcovers'
  exact ⟨hemits.append hgrows hgrows' hemits', hcovers'⟩

/-! ### Calls -/

theorem declNames_inits {f : Func} {values : List Expr} (hlen : values.length = f.params.length) :
    Stmt.declNames (inits f r values) = f.paramNames.map r := by
  calc
    _ = (f.params.zip values).map fun pv ↦ r pv.1.name := by
      rw [inits, Stmt.declNames, List.filterMap_map, ← List.filterMap_eq_map]
      rfl
    _ = ((f.params.zip values).map Prod.fst).map fun q ↦ r q.name := by
      rw [List.map_map]
      rfl
    _ = f.paramNames.map r := by
      rw [List.map_fst_zip hlen.ge, Func.paramNames, List.map_map]
      rfl

theorem scopedFrom_inits {Γ : String → Prop} {ps : List Param} {values : List Expr}
    (hvalues : Expr.ScopedAll (bare prims) Γ values) (hΓ : ∀ x, Γ x → x ∈ Stmt.declNames before)
    (hfresh : ∀ q ∈ ps, r q.name ∉ Stmt.declNames before)
    (hnodup : (ps.map fun q ↦ r q.name).Nodup) :
    Stmt.ScopedFrom (bare prims) "" [] before
      ((ps.zip values).map fun pv ↦ .decl pv.1.type (r pv.1.name) false (some pv.2)) := by
  induction ps generalizing values before with
  | nil => exact trivial
  | cons q ps ih =>
      cases values with
      | nil => exact trivial
      | cons v values =>
          obtain ⟨hv, hvs⟩ := Expr.scopedAll_cons.mp hvalues
          rw [List.forall_mem_cons] at hfresh
          rw [List.map_cons, List.nodup_cons] at hnodup
          refine ⟨⟨?_, fun h ↦ (by cases h), ?_⟩,
            ih hvs (fun x hx ↦ Stmt.mem_declNames_append_left (hΓ x hx)) ?_ hnodup.2⟩
          · intro y hy
            cases hy
            exact hfresh.1
          · intro e he
            cases he
            exact hv.mono hΓ
          · intro q' hq' hmem
            rw [Stmt.declNames_append] at hmem
            rcases List.mem_append.mp hmem with hmem | hmem
            · exact hfresh.2 q' hq' hmem
            · exact hnodup.1 (List.mem_singleton.mp hmem ▸ List.mem_map_of_mem hq')

theorem obeys_inits {f : Func} {values : List Expr} (hnodup : f.paramNames.Nodup)
    (henters : Enters f.name f.scope r s s') (hwithin : Within before s)
    (hvalues : Expr.ScopedAll (bare prims) (· ∈ Stmt.declNames before) values) :
    Stmt.ScopedFrom (bare prims) "" [] before (inits f r values) := by
  have hparam (x : String) (hx : x ∈ f.paramNames) : x ∈ f.scope := List.mem_append_left _ hx
  refine scopedFrom_inits hvalues (fun _ h ↦ h) (fun q hq hmem ↦ ?_) ?_
  · exact henters.fresh q.name (hparam _ (List.mem_map_of_mem hq)) (hwithin _ hmem)
  · have hmap : (f.params.map fun q ↦ r q.name) = f.paramNames.map r := by
      rw [Func.paramNames, List.map_map]
      rfl
    rw [hmap]
    exact hnodup.map_on fun x hx y hy ↦ henters.inj x (hparam x hx) y (hparam y hy)

theorem within_inits {f : Func} {values : List Expr} (hlen : values.length = f.params.length)
    (henters : Enters f.name f.scope r s s') (hwithin : Within before s) :
    Within (before ++ inits f r values) s' := by
  intro y hy
  rw [Stmt.declNames_append, declNames_inits hlen] at hy
  rcases List.mem_append.mp hy with hy | hy
  · exact henters.grows.taken y (hwithin y hy)
  · obtain ⟨x, hx, rfl⟩ := List.mem_map.mp hy
    exact (henters.taken _).mpr (Or.inl (List.mem_map_of_mem (List.mem_append_left _ hx)))

/-- When the parameters are declared, no other variable of the copy is. -/
theorem covers_inits {f : Func} {values : List Expr} (hlen : values.length = f.params.length)
    (henters : Enters f.name f.scope r s s') (hwithin : Within before s) :
    Covers r f.scope f.paramNames [] (before ++ inits f r values) where
  names x hx := by
    have hbefore : r x ∉ Stmt.declNames before := fun hmem ↦ henters.fresh x hx (hwithin _ hmem)
    have hnone : f.paramNames ++ Stmt.declNames [] = f.paramNames := List.append_nil _
    rw [Stmt.declNames_append, List.mem_append, declNames_inits hlen, hnone, or_iff_right hbefore]
    constructor
    · intro hmem
      obtain ⟨y, hy, heq⟩ := List.mem_map.mp hmem
      exact henters.inj y (List.mem_append_left _ hy) x hx heq ▸ hy
    · exact fun hmem ↦ List.mem_map_of_mem hmem
  data x hx type init hmem := by
    rcases List.mem_append.mp hmem with hmem | hmem
    · exact absurd (hwithin _ (Stmt.mem_declNames_of_mem hmem)) (henters.fresh x hx)
    · obtain ⟨_, _, heq⟩ := List.mem_map.mp hmem
      injection heq with _ _ hdata _
      cases hdata

/-- Seen from the caller, all the variables of a copy are new. -/
theorem emits_copy {f : Func} {values : List Expr} {body : List Stmt}
    (hfn : p.func? f.name = some f) (hlen : values.length = f.params.length)
    (henters : Enters f.name f.scope r s s₁) (hgrows : s₁.Grows s') (hwithin : Within before s)
    (hobeys : Stmt.ScopedFrom (bare prims) "" [] before (inits f r values))
    (hbody : Emits prims p (f.scope.map r) (before ++ inits f r values) body s₁ s')
    (hcovers : Covers r f.scope f.paramNames (Stmt.flatten f.stmts)
      (before ++ inits f r values ++ body)) :
    Emits prims p [] before (inits f r values ++ body) s s' := by
  have hown (y : String) (hy : y ∈ f.scope.map r) :
      y ∉ s.names.taken ∧ ∃ o ∈ s'.origins, o.1 = y := by
    obtain ⟨x, hx, rfl⟩ := List.mem_map.mp hy
    refine ⟨henters.fresh x hx, (r x, ⟨f.name, x, s.calls + 1⟩), hgrows.origins _ ?_, rfl⟩
    rw [henters.origins]
    exact List.mem_append_right _ (List.mem_map.mpr ⟨x, hx, rfl⟩)
  have hinits (y : String) (hy : y ∈ Stmt.declNames (inits f r values)) : y ∈ f.scope.map r := by
    rw [declNames_inits hlen] at hy
    rw [List.map_append]
    exact List.mem_append_left _ hy
  refine ⟨Stmt.scopedFrom_append.mpr ⟨hobeys, hbody.obeys⟩, fun y hy ↦ Or.inr ?_, fun y hy ↦ ?_,
    fun o ho ↦ ?_⟩
  · rw [Stmt.declNames_append] at hy
    rcases List.mem_append.mp hy with hy | hy
    · exact hown y (hinits y hy)
    · rcases hbody.names y hy with hy | ⟨hfree, ho⟩
      · exact hown y hy
      · exact ⟨fun htaken ↦ hfree (henters.grows.taken y htaken), ho⟩
  · rw [Stmt.declNames_append] at hy
    rcases List.mem_append.mp hy with hy | hy
    · exact hgrows.taken y ((henters.taken y).mpr (Or.inl (hinits y hy)))
    · exact hbody.taken y hy
  · rcases hbody.origins o ho with ho | ho
    · rw [henters.origins] at ho
      rcases List.mem_append.mp ho with ho | ho
      · exact Or.inl ho
      · obtain ⟨x, hx, rfl⟩ := List.mem_map.mp ho
        refine Or.inr ⟨?_, ⟨f, hfn, hx⟩, henters.root x hx⟩
        have hmem := (hcovers.names x hx).mpr hx
        rw [List.append_assoc, Stmt.declNames_append] at hmem
        refine (List.mem_append.mp hmem).resolve_left fun hbefore ↦ ?_
        exact henters.fresh x hx (hwithin _ hbefore)
    · exact Or.inr ho.append_right

/-- A copy: its parameters, its body and its result. -/
theorem exprScopes_user {f : Func} {fn : String} {r' : String → String} {args values : List Expr}
    {e result : Expr} {body post : List Stmt} {s₂ s₃ : State} (hfn : p.func? f.name = some f)
    (hlen : args.length = f.params.length) (hnodup : f.paramNames.Nodup)
    (hscopedBody : Stmt.ScopedFrom (p.globals prims) f.name f.paramNames [] (Stmt.flatten f.stmts))
    (hscopedResult : e.Scoped (p.globals prims) (· ∈ f.scope))
    (hgrowsArgs : s.Grows s₁) (henters : Enters f.name f.scope r' s₁ s₂) (hgrowsBody : s₂.Grows s₃)
    (hgrowsPost : s₃.Grows s') (hlenValues : values.length = args.length)
    (hargs : ExprsScope prims p r args s pre values s₁)
    (hbody : StmtsScope prims p r' (Stmt.flatten f.stmts) s₂ body s₃)
    (hpost : ExprScopes prims p r' e s₃ post result s') :
    ExprScopes prims p r (.call fn args) s (pre ++ (inits f r' values ++ body ++ post)) result
      s' := by
  intro Γ before hscoped hΓ hwithin
  have hlen' : values.length = f.params.length := hlenValues.trans hlen
  obtain ⟨hemits₁, hvalues⟩ := hargs Γ before (Expr.scoped_call.mp hscoped).1 hΓ hwithin
  have hwithin₁ := hemits₁.within hgrowsArgs hwithin
  have hobeys := obeys_inits hnodup henters hwithin₁ hvalues
  have hwithin₂ : Within (before ++ pre ++ inits f r' values) s₂ :=
    within_inits hlen' henters hwithin₁
  have hrenames : Renames r' f.scope s₂ :=
    ⟨fun x hx ↦ (henters.taken _).mpr (Or.inl (List.mem_map_of_mem hx)), henters.inj⟩
  obtain ⟨hemits₂, hcovers⟩ := hbody f.name f.paramNames [] f.scope _ hscopedBody
    (fun _ hx ↦ hx) hrenames (covers_inits hlen' henters hwithin₁) hwithin₂
  have hemits₃ := emits_copy hfn hlen' henters hgrowsBody hwithin₁ hobeys hemits₂ hcovers
  obtain ⟨hemits₄, hresult⟩ := hpost (· ∈ f.scope) _ hscopedResult
    (fun x hx ↦ (hcovers.names x hx).mpr hx) (hemits₂.within hgrowsBody hwithin₂)
  have hgrows₃ := henters.grows.trans hgrowsBody
  rw [List.append_assoc (before ++ pre)] at hemits₄ hresult
  rw [List.append_assoc (before ++ pre), List.append_assoc before] at hresult
  exact ⟨hemits₁.append hgrowsArgs (hgrows₃.trans hgrowsPost)
    (hemits₃.append hgrows₃ hgrowsPost hemits₄), hresult⟩

/-! ### Whole expressions and statements -/

mutual

theorem Inlines.scopes (hg : Sound prims p g) :
    ∀ {room : Nat} {r : String → String} {e e' : Expr} {pre : List Stmt} {s s' : State},
      Inlines g room r e s pre e' s' → ExprScopes prims p r e s pre e' s'
  | _, _, _, _, _, _, _, .lit => exprScopes_lit
  | _, _, _, _, _, _, _, .var => exprScopes_var
  | _, _, _, _, _, _, _, .unary hx => exprScopes_unary (hx.scopes hg)
  | _, _, _, _, _, _, _, .binary hx hy =>
      exprScopes_binary hx.grows hy.grows (hx.scopes hg) (hy.scopes hg)
  | _, _, _, _, _, _, _, .index hx hi =>
      exprScopes_index hx.grows hi.grows (hx.scopes hg) (hi.scope hg)
  | _, _, _, _, _, _, _, .prim hfn hargs =>
      exprScopes_prim ((hg.func? _).trans hfn) (hargs.scope hg)
  | _, _, _, _, _, _, _, .user hfn hlen hresult hargs henters hbody hpost =>
      exprScopes_user (hg.func?_name hfn) hlen (hg.params _ _ hfn) (hg.bodies _ _ hfn)
        (hg.results _ _ hfn _ hresult) hargs.grows henters hbody.grows hpost.grows
        hargs.length_eq (hargs.scope hg) (hbody.scope hg) (hpost.scopes hg)

theorem InlinesAll.scope (hg : Sound prims p g) :
    ∀ {room : Nat} {r : String → String} {es es' : List Expr} {pre : List Stmt} {s s' : State},
      InlinesAll g room r es s pre es' s' → ExprsScope prims p r es s pre es' s'
  | _, _, _, _, _, _, _, .nil => exprsScope_nil
  | _, _, _, _, _, _, _, .cons he hes =>
      exprsScope_cons he.grows hes.grows (he.scopes hg) (hes.scope hg)

theorem InlinesStmt.scope (hg : Sound prims p g) :
    ∀ {room : Nat} {r : String → String} {t : Stmt} {out : List Stmt} {s s' : State},
      InlinesStmt g room r t s out s' → StmtsScope prims p r [t] s out s'
  | _, _, _, _, _, _, .declare => stmtsScope_declare
  | _, _, _, _, _, _, .define he => stmtsScope_define he.grows (he.scopes hg)
  | _, _, _, _, _, _, .assign he => stmtsScope_assign he.grows (he.scopes hg)
  | _, _, _, _, _, _, .sample hargs => stmtsScope_sample hargs.grows (hargs.scope hg)

theorem InlinesStmts.scope (hg : Sound prims p g) :
    ∀ {room : Nat} {r : String → String} {ts out : List Stmt} {s s' : State},
      InlinesStmts g room r ts s out s' → StmtsScope prims p r ts s out s'
  | _, _, _, _, _, _, .nil => stmtsScope_nil
  | _, _, _, _, _, _, .cons ht hts =>
      stmtsScope_cons ht.grows hts.grows (ht.scope hg) (hts.scope hg)

end

end Inlining

end Stratify
