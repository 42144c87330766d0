import Stratify.Proofs.Inlining.Elaboration
import Stratify.Proofs.Typing.Flow

/-!
# Levels of inlined programs

Levels that fit a program also fit what inlining makes of it, when each fresh variable gets the
level of the variable it stands for. All the calls of a function share the levels of its variables,
so every copy gets the same levels and asks no more of them than the function did.
-/

namespace Stratify

namespace Expr

theorem FlowsTo.mono {g : Globals} {A : Assignment} {fn : String} {e : Expr} {l m : Level}
    (h : e.FlowsTo g A fn l) (hlm : l ≤ m) : e.FlowsTo g A fn m :=
  ⟨h.level_le.trans hlm, h.passes⟩

end Expr

namespace Stmt

variable {g : Globals} {A : Assignment} {fn : String} {ss ts : List Stmt}

theorem FitIn.nil : FitIn g A fn [] :=
  ⟨fun _ h ↦ (by cases h), fun _ _ _ h ↦ (by cases h), fun _ _ h ↦ (by cases h)⟩

/-- A variable without a value in two lists of statements has none in either. -/
theorem FitIn.append (h : FitIn g A fn ss) (h' : FitIn g A fn ts) : FitIn g A fn (ss ++ ts) where
  stmts := List.forall_mem_append.mpr ⟨h.stmts, h'.stmts⟩
  data type x init hmem :=
    (List.mem_append.mp hmem).elim (h.data type x init) (h'.data type x init)
  unassigned type x hmem hnone := by
    rcases List.mem_append.mp hmem with hmem | hmem
    · exact h.unassigned type x hmem fun e he ↦ hnone e (List.mem_append_left _ he)
    · exact h'.unassigned type x hmem fun e he ↦ hnone e (List.mem_append_right _ he)

end Stmt

namespace Inlining

/-- A program with levels for its own slots and for those of a program without functions. -/
structure Leveling where
  prims : Primitives
  source : Program
  level : Assignment
  target : Assignment

namespace Leveling

variable (L : Leveling)

/-- The fresh variables have the levels of their origins. -/
def Honours (s : State) : Prop :=
  ∀ o ∈ s.origins, L.target (.var ⟨"", o.1⟩) = L.level (.var ⟨o.2.func, o.2.name⟩)

/-- The variables of a scope have the same levels on both sides. -/
def Keeps (fn : String) (Γ : String → Prop) (r : String → String) : Prop :=
  ∀ x, Γ x → L.target (.var ⟨"", r x⟩) = L.level (.var ⟨fn, x⟩)

abbrev FitsTarget (ss : List Stmt) : Prop :=
  Stmt.FitIn (bare L.prims) L.target "" ss

/-- The value of an expression may flow into a level, in the source. -/
abbrev Flows (fn : String) (e : Expr) (l : Level) : Prop :=
  e.FlowsTo (L.source.globals L.prims) L.level fn l

/-- The value of an expression may flow into a level, in the target. -/
abbrev FlowsT (e : Expr) (l : Level) : Prop :=
  e.FlowsTo (bare L.prims) L.target "" l

variable {L} {r : String → String} {s s₁ s' : State} {pre more : List Stmt}

theorem Honours.of_grows (h : L.Honours s') (hgrows : s.Grows s') : L.Honours s :=
  fun o ho ↦ h o (hgrows.origins o ho)

/-! ### Expressions -/

def ExprFits (L : Leveling) (r : String → String) (e : Expr) (pre : List Stmt) (e' : Expr)
    (s' : State) : Prop :=
  ∀ (fn : String) (Γ : String → Prop) (l : Level), e.Scoped (L.source.globals L.prims) Γ →
    L.Keeps fn Γ r → L.Honours s' → L.Flows fn e l → L.FlowsT e' l ∧ L.FitsTarget pre

/-- Several expressions may flow into different levels, as arguments do into parameters. -/
def ExprsFit (L : Leveling) (r : String → String) (es : List Expr) (pre : List Stmt)
    (es' : List Expr) (s' : State) : Prop :=
  ∀ (fn : String) (Γ : String → Prop) (ls : List Level),
    Expr.ScopedAll (L.source.globals L.prims) Γ es → L.Keeps fn Γ r → L.Honours s' →
    List.Forall₂ (L.Flows fn) es ls → List.Forall₂ L.FlowsT es' ls ∧ L.FitsTarget pre

theorem exprFits_lit {kind : LitKind} {value : String} :
    L.ExprFits r (.lit kind value) [] (.lit kind value) s :=
  fun _ _ _ _ _ _ _ ↦ ⟨Expr.flowsTo_lit, .nil⟩

theorem exprFits_var {x : String} : L.ExprFits r (.var x) [] (.var (r x)) s := by
  intro fn Γ l hscoped hkeeps _ hflows
  have hlevel := hkeeps x (hscoped.vars x (List.mem_singleton_self x))
  refine ⟨Expr.flowsTo_var.mpr ?_, .nil⟩
  rw [hlevel]
  exact Expr.flowsTo_var.mp hflows

theorem exprFits_unary {op : Op} {x x' : Expr} (hx : L.ExprFits r x pre x' s') :
    L.ExprFits r (.unary op x) pre (.unary op x') s' := by
  intro fn Γ l hscoped hkeeps hval hflows
  obtain ⟨hx', hpre⟩ :=
    hx fn Γ l (Expr.scoped_unary.mp hscoped) hkeeps hval (Expr.flowsTo_unary.mp hflows)
  exact ⟨Expr.flowsTo_unary.mpr hx', hpre⟩

theorem exprFits_binary {op : Op} {x y x' y' : Expr} (hgrows : s₁.Grows s')
    (hx : L.ExprFits r x pre x' s₁) (hy : L.ExprFits r y more y' s') :
    L.ExprFits r (.binary op x y) (pre ++ more) (.binary op x' y') s' := by
  intro fn Γ l hscoped hkeeps hval hflows
  obtain ⟨hscopedX, hscopedY⟩ := Expr.scoped_binary.mp hscoped
  obtain ⟨hflowsX, hflowsY⟩ := Expr.flowsTo_binary.mp hflows
  obtain ⟨hx', hpreX⟩ := hx fn Γ l hscopedX hkeeps (hval.of_grows hgrows) hflowsX
  obtain ⟨hy', hpreY⟩ := hy fn Γ l hscopedY hkeeps hval hflowsY
  exact ⟨Expr.flowsTo_binary.mpr ⟨hx', hy'⟩, hpreX.append hpreY⟩

theorem exprsFit_nil : L.ExprsFit r [] [] [] s := by
  intro fn Γ ls _ _ _ hflows
  cases hflows
  exact ⟨.nil, .nil⟩

theorem exprsFit_cons {e e' : Expr} {es es' : List Expr} (hgrows : s₁.Grows s')
    (he : L.ExprFits r e pre e' s₁) (hes : L.ExprsFit r es more es' s') :
    L.ExprsFit r (e :: es) (pre ++ more) (e' :: es') s' := by
  intro fn Γ ls hscoped hkeeps hval hflows
  obtain ⟨hscopedE, hscopedEs⟩ := Expr.scopedAll_cons.mp hscoped
  cases hflows with
  | cons hflowsE hflowsEs =>
      obtain ⟨he', hpre⟩ := he fn Γ _ hscopedE hkeeps (hval.of_grows hgrows) hflowsE
      obtain ⟨hes', hmore⟩ := hes fn Γ _ hscopedEs hkeeps hval hflowsEs
      exact ⟨.cons he' hes', hpre.append hmore⟩

theorem ExprsFit.all {es es' : List Expr} (hes : L.ExprsFit r es pre es' s') {fn : String}
    {Γ : String → Prop} {l : Level} (hscoped : Expr.ScopedAll (L.source.globals L.prims) Γ es)
    (hkeeps : L.Keeps fn Γ r) (hval : L.Honours s')
    (hflows : Expr.AllFlowTo (L.source.globals L.prims) L.level fn es l) :
    Expr.AllFlowTo (bare L.prims) L.target "" es' l ∧ L.FitsTarget pre := by
  have hforall : List.Forall₂ (L.Flows fn) es (es.map fun _ ↦ l) := by
    rw [List.forall₂_map_right_iff, List.forall₂_same]
    exact hflows
  obtain ⟨hes', hpre⟩ := hes fn Γ _ hscoped hkeeps hval hforall
  rw [List.forall₂_map_right_iff] at hes'
  have hand := hes'.imp fun _ _ h ↦ And.intro h trivial
  exact ⟨((List.forall₂_and_left _ _).mp hand).1, hpre⟩

theorem exprFits_index {x x' : Expr} {is is' : List Expr} (hgrows : s₁.Grows s')
    (hx : L.ExprFits r x pre x' s₁) (hi : L.ExprsFit r is more is' s') :
    L.ExprFits r (.index x is) (pre ++ more) (.index x' is') s' := by
  intro fn Γ l hscoped hkeeps hval hflows
  obtain ⟨hscopedX, hscopedI⟩ := Expr.scoped_index.mp hscoped
  obtain ⟨hflowsX, hflowsI⟩ := Expr.flowsTo_index.mp hflows
  obtain ⟨hx', hpreX⟩ := hx fn Γ l hscopedX hkeeps (hval.of_grows hgrows) hflowsX
  obtain ⟨hi', hpreI⟩ := hi.all hscopedI hkeeps hval hflowsI
  exact ⟨Expr.flowsTo_index.mpr ⟨hx', hi'⟩, hpreX.append hpreI⟩

theorem exprFits_prim {fn : String} {args args' : List Expr} (hfn : L.source.func? fn = none)
    (hargs : L.ExprsFit r args pre args' s') :
    L.ExprFits r (.call fn args) pre (.call fn args') s' := by
  intro caller Γ l hscoped hkeeps hval hflows
  have hprim : (L.source.globals L.prims).func? fn = none := hfn
  obtain ⟨hcall, hflowsArgs⟩ := (Expr.flowsTo_prim hprim).mp hflows
  obtain ⟨hargs', hpre⟩ := hargs.all (Expr.scoped_call.mp hscoped).1 hkeeps hval hflowsArgs
  exact ⟨(Expr.flowsTo_prim rfl).mpr ⟨hcall, hargs'⟩, hpre⟩

/-! ### Statements -/

/-- What inlined statements demand of the levels of a scope. Whether a variable of the scope gets a
value may be decided by a later statement. -/
structure OutFits (L : Leveling) (r : String → String) (ts out : List Stmt) : Prop where
  fits : ∀ t ∈ out, t.Fits (bare L.prims) L.target ""
  data : ∀ type y init, .decl type y true init ∈ out → L.target (.var ⟨"", y⟩) = .data
  unassigned : ∀ type y, .decl type y false none ∈ out → (∀ e, .assign y e ∉ out) →
    .model ≤ L.target (.var ⟨"", y⟩) ∨ ∃ x, y = r x ∧ .decl type x false none ∈ ts
  assigned : ∀ x e, .assign x e ∈ ts → ∃ e', .assign (r x) e' ∈ out

def StmtsFit (L : Leveling) (r : String → String) (ts out : List Stmt) (s' : State) : Prop :=
  ∀ (fn : String) (ps : List String) (before : List Stmt),
    Stmt.ScopedFrom (L.source.globals L.prims) fn ps before ts →
    L.Keeps fn (· ∈ ps ++ Stmt.declNames (before ++ ts)) r → L.Honours s' →
    (∀ t ∈ ts, t.Fits (L.source.globals L.prims) L.level fn) →
    (∀ type x init, .decl type x true init ∈ ts → L.level (.var ⟨fn, x⟩) = .data) →
    L.OutFits r ts out

theorem OutFits.concat {t t' : Stmt} (hpre : L.FitsTarget pre)
    (hfits : t'.Fits (bare L.prims) L.target "")
    (hdata : ∀ type y init, t' = .decl type y true init → L.target (.var ⟨"", y⟩) = .data)
    (hnone : ∀ type y, t' = .decl type y false none → ∃ x, y = r x ∧ t = .decl type x false none)
    (hassign : ∀ x e, t = .assign x e → ∃ e', t' = .assign (r x) e') :
    L.OutFits r [t] (pre ++ [t']) where
  fits := forall_mem_concat hpre.stmts hfits
  data type y init hmem := by
    rcases List.mem_append.mp hmem with hmem | hmem
    · exact hpre.data type y init hmem
    · exact hdata type y init (List.mem_singleton.mp hmem).symm
  unassigned type y hmem hno := by
    rcases List.mem_append.mp hmem with hmem | hmem
    · exact Or.inl (hpre.unassigned type y hmem fun e he ↦ hno e (List.mem_append_left _ he))
    · obtain ⟨x, hy, ht⟩ := hnone type y (List.mem_singleton.mp hmem).symm
      exact Or.inr ⟨x, hy, List.mem_singleton.mpr ht.symm⟩
  assigned x e hmem := by
    obtain ⟨e', ht'⟩ := hassign x e (List.mem_singleton.mp hmem).symm
    exact ⟨e', List.mem_append_right _ (List.mem_singleton.mpr ht'.symm)⟩

theorem OutFits.append {ts ts' : List Stmt} (h : L.OutFits r ts pre) (h' : L.OutFits r ts' more) :
    L.OutFits r (ts ++ ts') (pre ++ more) where
  fits := List.forall_mem_append.mpr ⟨h.fits, h'.fits⟩
  data type y init hmem := (List.mem_append.mp hmem).elim (h.data type y init) (h'.data type y init)
  unassigned type y hmem hno := by
    rcases List.mem_append.mp hmem with hmem | hmem
    · refine (h.unassigned type y hmem fun e he ↦ hno e (List.mem_append_left _ he)).imp_right ?_
      exact fun ⟨x, hy, hx⟩ ↦ ⟨x, hy, List.mem_append_left _ hx⟩
    · refine (h'.unassigned type y hmem fun e he ↦ hno e (List.mem_append_right _ he)).imp_right ?_
      exact fun ⟨x, hy, hx⟩ ↦ ⟨x, hy, List.mem_append_right _ hx⟩
  assigned x e hmem := by
    rcases List.mem_append.mp hmem with hmem | hmem
    · obtain ⟨e', he'⟩ := h.assigned x e hmem
      exact ⟨e', List.mem_append_left _ he'⟩
    · obtain ⟨e', he'⟩ := h'.assigned x e hmem
      exact ⟨e', List.mem_append_right _ he'⟩

/-- A whole scope: what has no value in the copy has none in the source. -/
theorem OutFits.fitIn {fn : String} {Γ : String → Prop} {ts : List Stmt}
    (h : L.OutFits r ts pre) (hkeeps : L.Keeps fn Γ r) (hΓ : ∀ x ∈ Stmt.declNames ts, Γ x)
    (hts : Stmt.FitIn (L.source.globals L.prims) L.level fn ts) : L.FitsTarget pre where
  stmts := h.fits
  data := h.data
  unassigned type y hmem hno := by
    rcases h.unassigned type y hmem hno with hle | ⟨x, rfl, hx⟩
    · exact hle
    · rw [hkeeps x (hΓ x (Stmt.mem_declNames_of_mem hx))]
      refine hts.unassigned type x hx fun e he ↦ ?_
      obtain ⟨e', he'⟩ := h.assigned x e he
      exact hno e' he'

theorem Keeps.before {fn : String} {ps : List String} {before : List Stmt} {t : Stmt}
    (h : L.Keeps fn (· ∈ ps ++ Stmt.declNames (before ++ [t])) r) :
    L.Keeps fn (· ∈ ps ++ Stmt.declNames before) r :=
  fun x hx ↦ h x (Stmt.mem_declNames_concat hx)

theorem stmtsFit_declare {type x : String} {data : Bool} :
    L.StmtsFit r [.decl type x data none] [.decl type (r x) data none] s := by
  intro fn ps before _ hkeeps _ _ hdata
  refine OutFits.concat .nil (fun e he ↦ (by cases he)) ?_ ?_ (fun _ _ h ↦ (by cases h))
  · rintro type y init ⟨rfl, rfl, rfl, rfl⟩
    rw [hkeeps x (declName_mem x rfl)]
    exact hdata type x none (List.mem_singleton_self _)
  · rintro type y ⟨rfl, rfl, rfl, rfl⟩
    exact ⟨x, rfl, rfl⟩

theorem stmtsFit_define {type x : String} {data : Bool} {e e' : Expr}
    (he : L.ExprFits r e pre e' s') :
    L.StmtsFit r [.decl type x data (some e)] (pre ++ [.decl type (r x) data (some e')]) s' := by
  intro fn ps before hscoped hkeeps hval hfits hdata
  have hlevel := hkeeps x (declName_mem x rfl)
  obtain ⟨hflows, hpre⟩ := he fn _ _ (hscoped.1.2.2 e rfl) hkeeps.before hval
    (hfits _ (List.mem_singleton_self _) e rfl)
  refine OutFits.concat hpre (fun e'' he'' ↦ ?_) ?_ (fun _ _ h ↦ (by cases h))
    (fun _ _ h ↦ (by cases h))
  · cases he''
    rw [hlevel]
    exact hflows
  · rintro type y init ⟨rfl, rfl, rfl, rfl⟩
    rw [hlevel]
    exact hdata type x (some e) (List.mem_singleton_self _)

theorem stmtsFit_assign {x : String} {e e' : Expr} (he : L.ExprFits r e pre e' s') :
    L.StmtsFit r [.assign x e] (pre ++ [.assign (r x) e']) s' := by
  intro fn ps before hscoped hkeeps hval hfits _
  obtain ⟨-, hx, -, hscopedE⟩ := hscoped.1
  obtain ⟨hflows, hpre⟩ := he fn _ _ hscopedE hkeeps.before hval
    (hfits _ (List.mem_singleton_self _))
  refine OutFits.concat hpre ?_ (fun _ _ _ h ↦ (by cases h)) (fun _ _ h ↦ (by cases h)) ?_
  · rw [Stmt.Fits, hkeeps.before x hx]
    exact hflows
  · rintro y e'' ⟨rfl, rfl⟩
    exact ⟨e', rfl⟩

theorem stmtsFit_sample {x dist : String} {args args' : List Expr}
    (hargs : L.ExprsFit r args pre args' s') :
    L.StmtsFit r [.sample x dist args] (pre ++ [.sample (r x) dist args']) s' := by
  intro fn ps before hscoped hkeeps hval hfits _
  obtain ⟨-, hx, -, hscopedArgs⟩ := hscoped.1
  obtain ⟨hlevel, hflows⟩ := hfits _ (List.mem_singleton_self _)
  obtain ⟨hargs', hpre⟩ :=
    hargs.all (Expr.scopedAll_iff.mpr hscopedArgs) hkeeps.before hval hflows
  refine OutFits.concat hpre ⟨?_, hargs'⟩ (fun _ _ _ h ↦ (by cases h)) (fun _ _ h ↦ (by cases h))
    (fun _ _ h ↦ (by cases h))
  rw [hkeeps.before x hx]
  exact hlevel

theorem stmtsFit_nil : L.StmtsFit r [] [] s := by
  intro fn ps before _ _ _ _ _
  exact ⟨fun _ h ↦ (by cases h), fun _ _ _ h ↦ (by cases h), fun _ _ h ↦ (by cases h),
    fun _ _ h ↦ (by cases h)⟩

theorem stmtsFit_cons {t : Stmt} {ts out : List Stmt} (hgrows : s₁.Grows s')
    (ht : L.StmtsFit r [t] out s₁) (hts : L.StmtsFit r ts more s') :
    L.StmtsFit r (t :: ts) (out ++ more) s' := by
  intro fn ps before hscoped hkeeps hval hfits hdata
  rw [List.append_cons] at hkeeps
  rw [List.forall_mem_cons] at hfits
  have hfirst : L.Keeps fn (· ∈ ps ++ Stmt.declNames (before ++ [t])) r := by
    intro x hx
    refine hkeeps x ?_
    rw [Stmt.declNames_append, ← List.append_assoc]
    exact List.mem_append_left _ hx
  have hone := ht fn ps before ⟨hscoped.1, trivial⟩ hfirst (hval.of_grows hgrows)
    (List.forall_mem_singleton.mpr hfits.1)
    fun type x init hmem ↦ hdata type x init (List.mem_singleton.mp hmem ▸ List.mem_cons_self ..)
  have hrest := hts fn ps (before ++ [t]) hscoped.2 hkeeps hval hfits.2
    fun type x init hmem ↦ hdata type x init (List.mem_cons_of_mem _ hmem)
  exact hone.append hrest

/-! ### Calls -/

theorem fitsTarget_inits {ps : List Param} {values : List Expr}
    (h : List.Forall₂ (fun v (q : Param) ↦ L.FlowsT v (L.target (.var ⟨"", r q.name⟩))) values ps) :
    L.FitsTarget ((ps.zip values).map fun pv ↦
      .decl pv.1.type (r pv.1.name) false (some pv.2)) := by
  induction h with
  | nil => exact .nil
  | @cons v q values ps hv _ ih =>
      rw [List.zip_cons_cons, List.map_cons, ← List.singleton_append]
      refine Stmt.FitIn.append ⟨?_, ?_, ?_⟩ ih
      · refine List.forall_mem_singleton.mpr fun e he ↦ ?_
        cases he
        exact hv
      · intro type x init hmem
        cases List.mem_singleton.mp hmem
      · intro type x hmem
        cases List.mem_singleton.mp hmem

/-- A copy: arguments flow into parameters, and the result flows where the call did. -/
theorem exprFits_user {f : Func} {fn : String} {r' : String → String} {args values : List Expr}
    {e result : Expr} {body post : List Stmt} {s₁ s₂ s₃ : State}
    (hfn : L.source.func? fn = some f) (hlen : args.length = f.params.length)
    (hscopedBody : Stmt.ScopedFrom (L.source.globals L.prims) f.name f.paramNames []
      (Stmt.flatten f.stmts))
    (hscopedResult : e.Scoped (L.source.globals L.prims) (· ∈ f.scope))
    (hfitsBody : Stmt.FitIn (L.source.globals L.prims) L.level f.name (Stmt.flatten f.stmts))
    (hflowsResult : L.Flows f.name e (L.level (.result f.name)))
    (henters : Enters f.name f.scope r' s₁ s₂) (hgrowsBody : s₂.Grows s₃)
    (hgrowsPost : s₃.Grows s') (hargs : L.ExprsFit r args pre values s₁)
    (hbody : L.StmtsFit r' (Stmt.flatten f.stmts) body s₃)
    (hpost : L.ExprFits r' e post result s') :
    L.ExprFits r (.call fn args) (pre ++ (inits f r' values ++ body ++ post)) result s' := by
  intro caller Γ l hscoped hkeeps hval hflows
  have hfunc : (L.source.globals L.prims).func? fn = some f := hfn
  obtain ⟨hname, -⟩ := Func.of_named?_eq_some hfunc
  obtain ⟨hresult, hpasses⟩ := (Expr.flowsTo_user hfunc hlen).mp hflows
  have hval₃ : L.Honours s₃ := hval.of_grows hgrowsPost
  have hval₂ : L.Honours s₂ := hval₃.of_grows hgrowsBody
  -- Every copy gets the levels of the function.
  have hkeeps' : L.Keeps f.name (· ∈ f.scope) r' := by
    intro x hx
    refine hval₂ (r' x, ⟨f.name, x, s₁.calls + 1⟩) ?_
    rw [henters.origins]
    exact List.mem_append_right _ (List.mem_map.mpr ⟨x, hx, rfl⟩)
  have hforall : List.Forall₂ (L.Flows caller) args
      (f.params.map fun q ↦ L.level (.var ⟨f.name, q.name⟩)) := by
    rw [List.forall₂_map_right_iff]
    refine List.Forall₂.flip (List.forall₂_iff_zip.mpr ⟨hlen.symm, ?_⟩)
    exact fun hmem ↦ hpasses _ hmem
  obtain ⟨hvalues, hpre⟩ := hargs caller Γ _ (Expr.scoped_call.mp hscoped).1 hkeeps
    (hval₂.of_grows henters.grows) hforall
  rw [List.forall₂_map_right_iff] at hvalues
  have hinits : L.FitsTarget (inits f r' values) := by
    obtain ⟨hlength, hzip⟩ := List.forall₂_iff_zip.mp hvalues
    refine fitsTarget_inits (List.forall₂_iff_zip.mpr ⟨hlength, fun {v q} hmem ↦ ?_⟩)
    have hq : q.name ∈ f.paramNames := List.mem_map_of_mem (List.of_mem_zip hmem).2
    rw [hkeeps' q.name (List.mem_append_left _ hq)]
    exact hzip hmem
  have hout := hbody f.name f.paramNames [] hscopedBody hkeeps' hval₃ hfitsBody.stmts hfitsBody.data
  have hbody' : L.FitsTarget body :=
    hout.fitIn hkeeps' (fun x hx ↦ List.mem_append_right _ hx) hfitsBody
  obtain ⟨hresult', hpost'⟩ := hpost f.name (· ∈ f.scope) _ hscopedResult hkeeps' hval hflowsResult
  rw [← hname] at hresult
  exact ⟨hresult'.mono hresult, hpre.append ((hinits.append hbody').append hpost')⟩

end Leveling

/-! ### Whole expressions and statements -/

section

variable {L : Leveling} {g : CallGraph}

mutual

theorem Inlines.exprFits (hg : Sound L.prims L.source g) {seeds : Seeds}
    (hfits : L.source.Fits L.prims seeds L.level) :
    ∀ {room : Nat} {r : String → String} {e e' : Expr} {pre : List Stmt} {s s' : State},
      Inlines g room r e s pre e' s' → L.ExprFits r e pre e' s'
  | _, _, _, _, _, _, _, .lit => Leveling.exprFits_lit
  | _, _, _, _, _, _, _, .var => Leveling.exprFits_var
  | _, _, _, _, _, _, _, .unary hx => Leveling.exprFits_unary (hx.exprFits hg hfits)
  | _, _, _, _, _, _, _, .binary hx hy =>
      Leveling.exprFits_binary hy.grows (hx.exprFits hg hfits) (hy.exprFits hg hfits)
  | _, _, _, _, _, _, _, .index hx hi =>
      Leveling.exprFits_index hi.grows (hx.exprFits hg hfits) (hi.exprsFit hg hfits)
  | _, _, _, _, _, _, _, .prim hfn hargs =>
      Leveling.exprFits_prim ((hg.func? _).trans hfn) (hargs.exprsFit hg hfits)
  | _, _, _, _, _, _, _, .user hfn hlen hresult hargs henters hbody hpost =>
      have hfunc := (hg.func? _).trans hfn
      have hmem := (Func.of_named?_eq_some hfunc).2
      Leveling.exprFits_user hfunc hlen (hg.bodies _ _ hfn) (hg.results _ _ hfn _ hresult)
        (hfits.bodies _ hmem) (hfits.results _ hmem _ hresult) henters hbody.grows hpost.grows
        (hargs.exprsFit hg hfits) (hbody.stmtsFit hg hfits) (hpost.exprFits hg hfits)

theorem InlinesAll.exprsFit (hg : Sound L.prims L.source g) {seeds : Seeds}
    (hfits : L.source.Fits L.prims seeds L.level) :
    ∀ {room : Nat} {r : String → String} {es es' : List Expr} {pre : List Stmt} {s s' : State},
      InlinesAll g room r es s pre es' s' → L.ExprsFit r es pre es' s'
  | _, _, _, _, _, _, _, .nil => Leveling.exprsFit_nil
  | _, _, _, _, _, _, _, .cons he hes =>
      Leveling.exprsFit_cons hes.grows (he.exprFits hg hfits) (hes.exprsFit hg hfits)

theorem InlinesStmt.stmtsFit (hg : Sound L.prims L.source g) {seeds : Seeds}
    (hfits : L.source.Fits L.prims seeds L.level) :
    ∀ {room : Nat} {r : String → String} {t : Stmt} {out : List Stmt} {s s' : State},
      InlinesStmt g room r t s out s' → L.StmtsFit r [t] out s'
  | _, _, _, _, _, _, .declare => Leveling.stmtsFit_declare
  | _, _, _, _, _, _, .define he => Leveling.stmtsFit_define (he.exprFits hg hfits)
  | _, _, _, _, _, _, .assign he => Leveling.stmtsFit_assign (he.exprFits hg hfits)
  | _, _, _, _, _, _, .sample hargs => Leveling.stmtsFit_sample (hargs.exprsFit hg hfits)

theorem InlinesStmts.stmtsFit (hg : Sound L.prims L.source g) {seeds : Seeds}
    (hfits : L.source.Fits L.prims seeds L.level) :
    ∀ {room : Nat} {r : String → String} {ts out : List Stmt} {s s' : State},
      InlinesStmts g room r ts s out s' → L.StmtsFit r ts out s'
  | _, _, _, _, _, _, .nil => Leveling.stmtsFit_nil
  | _, _, _, _, _, _, .cons ht hts =>
      Leveling.stmtsFit_cons hts.grows (ht.stmtsFit hg hfits) (hts.stmtsFit hg hfits)

end

end

end Inlining

/-! ### Whole programs -/

namespace Assignment

/-- The levels of an elaborated program: fresh variables get those of their origins. -/
def elaborated (A : Assignment) (origins : List (String × Origin)) : Assignment
  | .var id =>
    match origins.find? fun o ↦ decide (o.1 = id.name) with
    | some (_, o) => A (.var ⟨o.func, o.name⟩)
    | none => A (.var id)
  | .result fn => A (.result fn)

theorem elaborated_origin {A : Assignment} {origins : List (String × Origin)}
    (hnodup : (origins.map Prod.fst).Nodup) {o : String × Origin} (ho : o ∈ origins) :
    A.elaborated origins (.var ⟨"", o.1⟩) = A (.var ⟨o.2.func, o.2.name⟩) := by
  simp only [elaborated, Inlining.find?_origin hnodup ho]

theorem elaborated_other {A : Assignment} {origins : List (String × Origin)} {x : String}
    (hx : ∀ o ∈ origins, o.1 ≠ x) : A.elaborated origins (.var ⟨"", x⟩) = A (.var ⟨"", x⟩) := by
  simp only [elaborated, Inlining.find?_not_origin hx]

end Assignment

namespace Elaborated

variable {prims : Primitives} {p : Program} {l : Limits} {e : Elaborated} {A : Assignment}

/-- Levels that fit the source fit the elaborated program, with nothing to spare: fresh variables
have exactly the levels of their origins. -/
theorem Inlined.fits (he : Inlined l p e) (h : p.WellScoped prims) (hA : p.Fits prims [] A)
    {seeds : Seeds} (hseeds : seeds.Hold (A.elaborated e.origins)) :
    e.program.Fits prims seeds (A.elaborated e.origins) := by
  have helaborates := he.elaborates h
  obtain ⟨s, hout, horigins⟩ := he
  have hkeeps : Inlining.Leveling.Keeps ⟨prims, p, A, A.elaborated e.origins⟩ ""
      (· ∈ Stmt.declNames (Stmt.flatten p.stmts)) id :=
    fun x hx ↦ Assignment.elaborated_other (helaborates.not_origin x hx)
  have hval : Inlining.Leveling.Honours ⟨prims, p, A, A.elaborated e.origins⟩ s :=
    fun o ho ↦ Assignment.elaborated_origin helaborates.origins_nodup (horigins ▸ ho)
  have hstmts : Inlining.Leveling.StmtsFit ⟨prims, p, A, A.elaborated e.origins⟩ id
      (Stmt.flatten p.stmts) e.stmts s := hout.stmtsFit h.sound hA
  have hfits := hstmts "" [] [] (Stmt.scopedIn_iff.mp h.stmts).2 hkeeps hval hA.stmts.stmts
    hA.stmts.data
  refine ⟨fun _ hf ↦ (by cases hf), fun _ hf ↦ (by cases hf), ?_, hseeds⟩
  change Stmt.FitIn _ _ _ (Stmt.flatten e.stmts)
  rw [helaborates.flat]
  exact hfits.fitIn hkeeps (fun _ hx ↦ hx) hA.stmts

end Elaborated

end Stratify
