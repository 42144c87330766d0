import Stratify.Proofs.Constraint.Building
import Stratify.Proofs.Diagnostic.Message
import Stratify.Typing.Basic

/-!
# What inference reports

Whatever inference reports on a complete program has a message. The nodes that it may point at are
the statements and expressions it is reading, and those which describe the level variables of the
constraint system; all of them are parts of the program.
-/

namespace Stratify

namespace LevelSystem

variable {s : LevelSystem Level}

/-- All the variables are described by trees without holes. -/
def Grounded (s : LevelSystem Level) : Prop :=
  ∀ v ∈ s.vertices, ∀ n ∈ v.source, n.complete = true

theorem Grounded.addVar (h : s.Grounded) (key display : String) :
    (s.addVar key display).Grounded := by
  unfold LevelSystem.addVar
  split
  · exact h
  · intro v hv n hn
    rcases List.mem_append.mp hv with hv | hv
    · exact h v hv n hn
    · cases List.mem_singleton.mp hv
      cases hn

theorem Grounded.modify (h : s.Grounded) (key : String) {f : Vertex → Vertex}
    (hf : ∀ v, (∀ n ∈ v.source, n.complete = true) → ∀ n ∈ (f v).source, n.complete = true) :
    (s.modify key f).Grounded := by
  intro v hv
  obtain ⟨w, hw, rfl⟩ := List.mem_map.mp hv
  split
  · exact hf w (h w hw)
  · exact h w hw

theorem Grounded.setSource (h : s.Grounded) (key : String) {n : Node} (hn : n.complete = true) :
    (s.setSource key (some n)).Grounded := by
  refine h.modify key fun v _ m hm ↦ ?_
  cases Option.some.inj hm
  exact hn

theorem Grounded.add (h : s.Grounded) (c : Constraint Level) : (s.add c).Grounded := by
  have hmention {t : LevelSystem Level} (ht : t.Grounded) (u : Term Level) :
      (t.mention u).Grounded := by
    cases u with
    | var key => exact ht.addVar key ""
    | const l => exact ht
  exact hmention (hmention h c.lo) c.hi

theorem mem_vertices_of_firstEmpty? {rs : Array Range} {v : Vertex} {r : Range}
    (h : s.firstEmpty? rs = some (v, r)) : v ∈ s.vertices := by
  have hmem : (v, r) ∈ s.emptyVertices rs := by
    rcases Option.or_eq_some_iff.mp h with h | ⟨-, h⟩
    · exact List.mem_of_find?_eq_some h
    · exact List.mem_of_mem_head? h
  exact (List.of_mem_zip (List.mem_filter.mp hmem).1).1

theorem yields_checkConstants (cs : List (Constraint Level)) :
    Yields Diagnostic.Grounded (fun _ ↦ True) (Constraint.checkConstants cs) := by
  induction cs with
  | nil => exact trivial
  | cons c cs ih =>
      unfold Constraint.checkConstants
      split
      · split
        · exact Diagnostic.grounded_bare
        · exact ih
      · exact ih

theorem yields_checkSolution (sol : Solution) (cs : List (Constraint Level)) :
    Yields Diagnostic.Grounded (fun _ ↦ True) (checkSolution sol cs) := by
  induction cs with
  | nil => exact trivial
  | cons c cs ih =>
      unfold checkSolution
      split
      · exact ih
      · exact Diagnostic.grounded_bare

/-- A contradiction is reported with the node that describes the variable. -/
theorem Grounded.solve (h : s.Grounded) :
    Yields Diagnostic.Grounded (fun _ ↦ True) s.solve := by
  refine (yields_checkConstants s.constraints).bind fun _ _ ↦ ?_
  dsimp only
  split
  · next v r hempty =>
      have hgrounded : Diagnostic.Grounded
          ⟨.inconsistent v.display r.lower.code r.upper.code, v.source⟩ :=
        ⟨h v (mem_vertices_of_firstEmpty? hempty), Diagnostic.not_uncalled rfl⟩
      exact hgrounded
  · refine (yields_checkSolution (s.picked s.propagated) s.constraints).bind fun _ _ ↦ ?_
    exact trivial

end LevelSystem

namespace Draft

/-- All the level variables are described by trees without holes. -/
def Grounded (d : Draft) : Prop :=
  d.system.Grounded

variable {g : Globals} {fn : String} {d : Draft}

theorem Grounded.flow (h : d.Grounded) (lo hi : String) (rule : Rule) :
    (d.flow lo hi rule).Grounded :=
  LevelSystem.Grounded.add h _

theorem Grounded.atLeast (h : d.Grounded) (key : String) (l : Level) (rule : Rule) :
    (d.atLeast key l rule).Grounded :=
  LevelSystem.Grounded.add h _

theorem Grounded.atMost (h : d.Grounded) (key : String) (l : Level) (rule : Rule) :
    (d.atMost key l rule).Grounded :=
  LevelSystem.Grounded.add h _

theorem Grounded.addVar (h : d.Grounded) (key display : String) {n : Node}
    (hn : n.complete = true) : (d.addVar key display n).Grounded :=
  (LevelSystem.Grounded.addVar h key display).setSource key hn

/-! ### Expressions -/

theorem yields_addExpr {e : Expr} (he : e.complete = true) (hd : d.Grounded) :
    Yields Fault.Grounded Grounded (d.addExpr e) := by
  obtain ⟨t, ht⟩ := Expr.exists_text_of_complete he
  simp only [addExpr, ht]
  have hadded : (d.system.addExprVar d.nextKey ("`" ++ t ++ "`")).Grounded :=
    (LevelSystem.Grounded.addVar hd _ _).modify _ fun _ h ↦ h
  exact hadded.setSource d.nextKey (n := .expr e) he

mutual

theorem yields_reads {whole : Expr} (hwhole : whole.complete = true) {key : String} {rule : Rule} :
    ∀ {e : Expr} {d : Draft}, e.complete = true → d.Grounded →
      Yields Fault.Grounded Grounded (reads g fn whole key rule e d)
  | .hole, _, he, _ => by cases he
  | .lit .., _, _, hd => hd
  | .var name, d, _, hd => by
      unfold reads
      split
      · exact Diagnostic.grounded_about (n := .expr whole) hwhole
      · exact hd.flow _ _ _
  | .unary _ x, _, he, hd => yields_reads hwhole (e := x) he hd
  | .binary _ x y, _, he, hd => by
      simp only [Expr.complete, Bool.and_eq_true] at he
      exact (yields_reads hwhole he.1 hd).bind fun _ hd' ↦ yields_reads hwhole he.2 hd'
  | .index x indices, _, he, hd => by
      simp only [Expr.complete, Bool.and_eq_true] at he
      exact (yields_reads hwhole he.1 hd).bind fun _ hd' ↦ yields_readsAll hwhole he.2 hd'
  | .call callee args, d, he, hd => by
      unfold reads
      split
      · split
        · exact (yields_passes he hd).bind fun _ hd' ↦ hd'.flow _ _ _
        · exact Diagnostic.grounded_about (n := .expr (.call callee args)) he
      · split
        · refine yields_readsAll hwhole he ?_
          split
          · exact hd.atLeast _ _ _
          · exact hd
        · exact Diagnostic.grounded_about (n := .expr (.call callee args)) he

theorem yields_readsAll {whole : Expr} (hwhole : whole.complete = true) {key : String}
    {rule : Rule} :
    ∀ {es : List Expr} {d : Draft}, Expr.completeAll es = true → d.Grounded →
      Yields Fault.Grounded Grounded (readsAll g fn whole key rule es d)
  | [], _, _, hd => hd
  | e :: es, _, he, hd => by
      simp only [Expr.completeAll, Bool.and_eq_true] at he
      exact (yields_reads hwhole he.1 hd).bind fun _ hd' ↦ yields_readsAll hwhole he.2 hd'

theorem yields_passes {callee : String} :
    ∀ {es : List Expr} {ps : List Param} {d : Draft}, Expr.completeAll es = true → d.Grounded →
      Yields Fault.Grounded Grounded (passes g fn callee ps es d)
  | [], [], _, _, hd => hd
  | [], _ :: _, _, _, hd => hd
  | _ :: _, [], _, _, hd => hd
  | e :: es, p :: ps, _, he, hd => by
      simp only [Expr.completeAll, Bool.and_eq_true] at he
      refine (yields_addExpr he.1 hd).bind fun _ hd₁ ↦ ?_
      refine (yields_reads he.1 he.1 hd₁).bind fun _ hd₂ ↦ ?_
      exact yields_passes he.2 (hd₂.flow _ _ _)

end

theorem yields_expr {e : Expr} (he : e.complete = true) (rule : Rule) (hd : d.Grounded) :
    Yields Fault.Grounded (fun kd ↦ kd.2.Grounded) (expr g fn e rule d) :=
  (yields_addExpr he hd).bind fun _ hd₁ ↦ (yields_reads he he hd₁).bind fun _ hd₂ ↦ hd₂

/-! ### Statements -/

theorem yields_declare {s : Stmt} (hs : s.complete = true) (v : Var) (hd : d.Grounded) :
    Yields Fault.Grounded Grounded (d.declare s v) := by
  unfold declare
  split
  · exact Diagnostic.grounded_about (n := .stmt s) hs
  · exact Grounded.addVar (d := { d with env := _ }) hd _ _ (n := .stmt s) hs

theorem yields_decl {type name : String} {data : Bool} {init : Option Expr}
    (hs : (Stmt.decl type name data init).complete = true) (hd : d.Grounded) :
    Yields Fault.Grounded Grounded (decl g fn type name data init d) := by
  unfold decl
  split
  · exact Diagnostic.grounded_about (n := .stmt _) hs
  split
  · exact Diagnostic.grounded_about (n := .stmt _) hs
  cases init with
  | none => exact yields_declare hs _ hd
  | some e =>
      refine (yields_expr hs .assignment hd).bind fun kd hd₁ ↦ ?_
      exact (yields_declare hs _ hd₁).bind fun _ hd₂ ↦ hd₂.flow _ _ _

theorem yields_assign {name : String} {value : Expr}
    (hs : (Stmt.assign name value).complete = true) (hd : d.Grounded) :
    Yields Fault.Grounded Grounded (assign g fn name value d) := by
  unfold assign
  split
  · exact Diagnostic.grounded_about (n := .stmt _) hs
  split
  · exact Diagnostic.grounded_about (n := .stmt _) hs
  · refine (yields_expr hs .assignment hd).bind fun kd hd₁ ↦ ?_
    exact Grounded.flow (d := { kd.2 with env := _ }) hd₁ _ _ _

theorem yields_sampleArgs {es : List Expr} (hes : Expr.completeAll es = true) (hd : d.Grounded) :
    Yields Fault.Grounded Grounded (sampleArgs g fn es d) := by
  induction es generalizing d with
  | nil => exact hd
  | cons e es ih =>
      simp only [Expr.completeAll, Bool.and_eq_true] at hes
      refine (yields_expr hes.1 .sample hd).bind fun kd hd₁ ↦ ?_
      exact ih hes.2 (hd₁.atMost _ _ _)

theorem yields_sample {name dist : String} {args : List Expr}
    (hs : (Stmt.sample name dist args).complete = true) (hd : d.Grounded) :
    Yields Fault.Grounded Grounded (sample g fn name dist args d) := by
  unfold sample
  split
  · exact Diagnostic.grounded_about (n := .stmt _) hs
  split
  · exact yields_sampleArgs hs (hd.atMost _ _ _)
  · exact Diagnostic.grounded_about (n := .stmt _) hs

mutual

theorem yields_stmt : ∀ {s : Stmt} {d : Draft}, s.complete = true → d.Grounded →
    Yields Fault.Grounded Grounded (stmt g fn s d)
  | .hole, _, hs, _ => by cases hs
  | .decl .., _, hs, hd => yields_decl hs hd
  | .assign .., _, hs, hd => yields_assign hs hd
  | .sample .., _, hs, hd => yields_sample hs hd
  | .block list, _, hs, hd => yields_stmts (show Stmt.completeAll list = true from hs) hd
  | .func name params body result, _, hs, _ =>
      Diagnostic.grounded_about (n := .stmt (.func name params body result)) hs

theorem yields_stmts : ∀ {ss : List Stmt} {d : Draft}, Stmt.completeAll ss = true → d.Grounded →
    Yields Fault.Grounded Grounded (stmts g fn ss d)
  | [], _, _, hd => hd
  | s :: ss, _, hss, hd => by
      simp only [Stmt.completeAll, Bool.and_eq_true] at hss
      exact (yields_stmt hss.1 hd).bind fun _ hd' ↦ yields_stmts hss.2 hd'

end

/-! ### Functions and programs -/

theorem yields_checkFuncs (prims : Primitives) (seen : List String) (fs : List Func) :
    Yields Fault.Grounded (fun _ ↦ ∀ f ∈ fs, f.result.isSome = true)
      (checkFuncs prims seen fs) := by
  induction fs generalizing seen with
  | nil => exact fun _ hf ↦ (by cases hf)
  | cons f fs ih =>
      unfold checkFuncs
      split
      · exact Diagnostic.grounded_bare
      split
      · exact Diagnostic.grounded_bare
      split
      · exact Diagnostic.grounded_bare
      · next hresult =>
          refine (ih _).imp (fun _ h ↦ h) fun _ h ↦ List.forall_mem_cons.mpr ⟨?_, h⟩
          simpa [Option.isSome_iff_ne_none] using hresult

theorem yields_params {f : Func} (hf : f.complete = true) (ps : List Param) (hd : d.Grounded) :
    Yields Fault.Grounded Grounded (params f ps d) := by
  induction ps generalizing d with
  | nil => exact hd
  | cons p ps ih =>
      unfold params
      dsimp only
      split
      · exact Diagnostic.grounded_about (n := .stmt f.toStmt) hf
      · exact ih (Grounded.addVar (d := { d with env := _ }) hd _ _ rfl)

theorem yields_headers {fs : List Func} (hfs : ∀ f ∈ fs, f.complete = true) (hd : d.Grounded) :
    Yields Fault.Grounded Grounded (headers fs d) := by
  induction fs generalizing d with
  | nil => exact hd
  | cons f fs ih =>
      rw [List.forall_mem_cons] at hfs
      have hheader : Yields Fault.Grounded Grounded (header f d) :=
        (yields_params hfs.1 f.params hd).bind fun _ hd' ↦
          hd'.addVar _ _ (n := .stmt f.toStmt) hfs.1
      exact hheader.bind fun _ hd' ↦ ih hfs.2 hd'

theorem yields_bodies {fs : List Func} (hfs : ∀ f ∈ fs, f.complete = true)
    (hresults : ∀ f ∈ fs, f.result.isSome = true) (hd : d.Grounded) :
    Yields Fault.Grounded Grounded (bodies g fs d) := by
  induction fs generalizing d with
  | nil => exact hd
  | cons f fs ih =>
      rw [List.forall_mem_cons] at hfs hresults
      obtain ⟨e, he⟩ := Option.isSome_iff_exists.mp hresults.1
      have hbody : Yields Fault.Grounded Grounded (body g f d) := by
        unfold body
        rw [he, Option.getD_some]
        refine (yields_stmts (Func.complete_stmts hfs.1) hd).bind fun _ hd₁ ↦ ?_
        exact (yields_expr (Func.complete_result hfs.1 he) .result hd₁).bind fun kd hd₂ ↦
          hd₂.flow _ _ _
      exact hbody.bind fun _ hd' ↦ ih hfs.2 hresults.2 hd'

theorem Grounded.varRules (hd : d.Grounded) (fn : String) : (d.varRules fn).Grounded := by
  unfold Draft.varRules
  refine List.foldlRecOn _ varRule hd fun d' hd' v _ ↦ ?_
  unfold varRule
  split
  · exact LevelSystem.Grounded.add (LevelSystem.Grounded.add hd' _) _
  split
  · exact hd'
  · exact hd'.atLeast _ _ _

theorem yields_ofProgram (prims : Primitives) {p : Program} (hp : p.complete = true) :
    Yields Fault.Grounded (fun d ↦ d.Grounded ∧ ∀ f ∈ p.funcs, f.result.isSome = true)
      (ofProgram prims p) := by
  have hfuncs : ∀ f ∈ p.funcs, f.complete = true := fun f hf ↦ Program.complete_func hp hf
  have hempty : Grounded empty := fun _ hv ↦ (by cases hv)
  refine (yields_checkFuncs prims [] p.funcs).bind fun _ hresults ↦ ?_
  refine (yields_headers hfuncs hempty).bind fun _ hd₁ ↦ ?_
  refine (yields_bodies hfuncs hresults hd₁).bind fun _ hd₂ ↦ ?_
  refine (yields_stmts (Program.complete_stmts hp) hd₂).bind fun _ hd₃ ↦ ⟨?_, hresults⟩
  exact List.foldlRecOn _ _ (hd₃.varRules "") fun d hd f _ ↦ hd.varRules f.name

theorem yields_seed (seeds : List (String × LevelCode)) (hd : d.Grounded) :
    Yields Fault.Grounded Grounded (seed seeds d) := by
  induction seeds generalizing d with
  | nil => exact hd
  | cons x seeds ih =>
      obtain ⟨name, c⟩ := x
      unfold seed
      split
      · exact Diagnostic.grounded_bare
      split
      · exact Diagnostic.grounded_bare
      · exact ih (hd.atLeast _ _ _)

end Draft

namespace Typing

/-- Inference of a complete program either succeeds, and then all functions have results, or reports
something that has a message. -/
theorem yields_infer (prims : Primitives) {p : Program} (hp : p.complete = true) (seeds : Seeds) :
    Yields Fault.Grounded (fun _ ↦ ∀ f ∈ p.funcs, f.result.isSome = true)
      (infer prims p seeds) := by
  refine (Draft.yields_ofProgram prims hp).bind fun d ⟨hd, hresults⟩ ↦ ?_
  refine (Draft.yields_seed seeds.sorted hd).bind fun d' hd' ↦ ?_
  have hsolve : Yields Fault.Grounded (fun _ ↦ True) (d'.system.solve.mapError Fault.report) :=
    (LevelSystem.Grounded.solve hd').mapError fun _ h ↦ h
  refine hsolve.bind fun _ _ ↦ ?_
  exact hresults

end Typing

end Stratify
