import Stratify.Proofs.Syntax.Blocks
import Stratify.Proofs.Typing.Statements
import Stratify.Typing.Basic

/-!
# Blocks and level inference

Inference goes through blocks without noticing them. When the blocks of a program are opened, it
declares the same variables and adds the same constraints, in the same order. What changes are the
nodes that point at function definitions: some level variables have them as their source, and some
errors point at them. Nothing else depends on these nodes, so that inference finds the same levels
for the opened program, or fails with the same issue.
-/

namespace Stratify

/-! ### Computations that concur -/

namespace Fault

def issue? : Fault → Option Issue
  | report d => some d.issue
  | undefined => none

end Fault

/-- Two computations either have results that are related, or fail with the same issue. -/
def Concur {α β : Type} (R : α → β → Prop) : Except Fault α → Except Fault β → Prop
  | .ok a, .ok b => R a b
  | .error f, .error f' => f'.issue? = f.issue?
  | _, _ => False

namespace Concur

variable {α β γ δ : Type} {R : α → β → Prop} {S : γ → δ → Prop}
variable {r : Except Fault α} {r' : Except Fault β}

theorem bind {f : α → Except Fault γ} {f' : β → Except Fault δ} (h : Concur R r r')
    (hf : ∀ a b, R a b → Concur S (f a) (f' b)) : Concur S (r >>= f) (r' >>= f') := by
  cases r with
  | ok a =>
      cases r' with
      | ok b => exact hf a b h
      | error _ => exact h.elim
  | error _ =>
      cases r' with
      | ok _ => exact h.elim
      | error _ => exact h

theorem refl (r : Except Fault α) : Concur Eq r r := by
  cases r <;> exact rfl

/-- Diagnostics that differ only in their nodes have the same issue. -/
theorem of_mapError {r r' : Except Diagnostic α}
    (h : r'.mapError Diagnostic.issue = r.mapError Diagnostic.issue) :
    Concur Eq (r.mapError Fault.report) (r'.mapError Fault.report) := by
  cases r with
  | ok a =>
      cases r' with
      | ok b => exact (Except.ok.inj h).symm
      | error _ => cases h
  | error d =>
      cases r' with
      | ok _ => cases h
      | error d' => exact congrArg some (Except.error.inj h)

end Concur

/-! ### Constraint systems without sources -/

namespace Vertex

def unsourced (v : Vertex) : Vertex :=
  { v with source := none }

end Vertex

namespace LevelSystem

def unsourced {κ : Type} (s : LevelSystem κ) : LevelSystem κ :=
  { s with vertices := s.vertices.map Vertex.unsourced }

section Building

variable {κ : Type} (s : LevelSystem κ)

theorem unsourced_addVar (key display : String) :
    (s.addVar key display).unsourced = s.unsourced.addVar key display := by
  have hhas : s.unsourced.has key = s.has key := by
    simp only [has, unsourced, List.any_map, Function.comp_def, Vertex.unsourced]
  rw [addVar, addVar, hhas]
  split
  · rfl
  · simp [unsourced, Vertex.unsourced]

theorem unsourced_modify (key : String) {f : Vertex → Vertex}
    (hf : ∀ v, (f v).unsourced = f v.unsourced) :
    (s.modify key f).unsourced = s.unsourced.modify key f := by
  have hvertex (v : Vertex) : (if v.key = key then f v else v).unsourced =
      if v.unsourced.key = key then f v.unsourced else v.unsourced := by
    rw [apply_ite Vertex.unsourced, hf]
    rfl
  simp only [unsourced, modify, List.map_map, Function.comp_def, hvertex]

theorem unsourced_addExprVar (key display : String) :
    (s.addExprVar key display).unsourced = s.unsourced.addExprVar key display := by
  rw [addExprVar, unsourced_modify, unsourced_addVar, addExprVar]
  exact fun _ ↦ rfl

theorem unsourced_setSource (key : String) (source : Option Node) :
    (s.setSource key source).unsourced = s.unsourced := by
  have hvertex (v : Vertex) :
      (if v.key = key then { v with source := source } else v).unsourced = v.unsourced := by
    rw [apply_ite Vertex.unsourced]
    exact ite_self _
  simp only [unsourced, setSource, modify, List.map_map, Function.comp_def, hvertex]

theorem unsourced_add (c : Constraint κ) : (s.add c).unsourced = s.unsourced.add c := by
  have hmention (s : LevelSystem κ) (t : Term κ) :
      (s.mention t).unsourced = s.unsourced.mention t := by
    cases t with
    | var key => exact unsourced_addVar s key ""
    | const l => rfl
  rw [add, add, ← hmention, ← hmention]
  rfl

end Building

section Solving

variable (s : LevelSystem Level)

theorem index?_unsourced (key : String) : s.unsourced.index? key = s.index? key := by
  simp only [index?, unsourced, List.findIdx?_map, Function.comp_def, Vertex.unsourced]

theorem propagated_unsourced : s.unsourced.propagated = s.propagated := by
  have hsize : s.unsourced.size = s.size := by
    simp only [size, unsourced, List.length_map]
  have himpose : s.unsourced.impose = s.impose := by
    funext rs c
    simp only [impose, index?_unsourced]
  have hedges : s.unsourced.edges = s.edges := by
    simp only [edges, index?_unsourced]
    rfl
  have hnetwork : s.unsourced.network = s.network := by
    rw [network, hedges, unsourced, List.map_map]
    rfl
  have himposed : s.unsourced.imposed = s.imposed := by
    rw [imposed, imposed, himpose, hsize]
    rfl
  rw [propagated, propagated, hnetwork, hsize, himposed]

theorem zip_unsourced (rs : List Range) :
    s.unsourced.vertices.zip rs = (s.vertices.zip rs).map (Prod.map Vertex.unsourced id) := by
  rw [unsourced, List.zip_map_left]

theorem firstEmpty?_unsourced (rs : Array Range) :
    s.unsourced.firstEmpty? rs = (s.firstEmpty? rs).map (Prod.map Vertex.unsourced id) := by
  have hempty : s.unsourced.emptyVertices rs =
      (s.emptyVertices rs).map (Prod.map Vertex.unsourced id) := by
    rw [emptyVertices, emptyVertices, zip_unsourced, List.filter_map]
    rfl
  simp only [firstEmpty?, hempty, List.find?_map, List.head?_map, Option.map_or]
  rfl

theorem picked_unsourced (rs : Array Range) : s.unsourced.picked rs = s.picked rs := by
  rw [picked, picked, zip_unsourced, List.map_map]
  rfl

/-- The sources only decide what an error points at. -/
theorem solve_unsourced :
    s.unsourced.solve.mapError Diagnostic.issue = s.solve.mapError Diagnostic.issue := by
  have hconstraints : s.unsourced.constraints = s.constraints := rfl
  simp only [solve, hconstraints, propagated_unsourced, firstEmpty?_unsourced, picked_unsourced]
  cases Constraint.checkConstants s.constraints with
  | error d => rfl
  | ok _ =>
      cases s.firstEmpty? s.propagated with
      | none => rfl
      | some vr => rfl

end Solving

end LevelSystem

/-! ### Drafts that differ in their sources -/

namespace Globals

/-- The same functions are known, in the second case with their blocks opened. -/
structure OpensTo (g g' : Globals) : Prop where
  prims : g'.prims = g.prims
  func? : ∀ fn, g'.func? fn = (g.func? fn).map Func.opened

end Globals

namespace Draft

/-- Two drafts differ only in the nodes by which diagnostics refer to level variables. -/
structure Alike (d d' : Draft) : Prop where
  env : d'.env = d.env
  system : d'.system.unsourced = d.system.unsourced
  exprs : d'.exprs = d.exprs

variable {g g' : Globals} {fn : String} {d d' : Draft}

theorem Alike.find? (h : d.Alike d') (fn name : String) : d'.find? fn name = d.find? fn name := by
  rw [Draft.find?, h.env, Draft.find?]

theorem Alike.nextKey (h : d.Alike d') : d'.nextKey = d.nextKey := by
  rw [Draft.nextKey, h.exprs, Draft.nextKey]

theorem Alike.add (h : d.Alike d') (c : Constraint Level) :
    Alike { d with system := d.system.add c } { d' with system := d'.system.add c } where
  env := h.env
  system := by rw [LevelSystem.unsourced_add, h.system, LevelSystem.unsourced_add]
  exprs := h.exprs

theorem Alike.flow (h : d.Alike d') (lo hi : String) (rule : Rule) :
    (d.flow lo hi rule).Alike (d'.flow lo hi rule) :=
  h.add _

theorem Alike.atLeast (h : d.Alike d') (key : String) (l : Level) (rule : Rule) :
    (d.atLeast key l rule).Alike (d'.atLeast key l rule) :=
  h.add _

theorem Alike.atMost (h : d.Alike d') (key : String) (l : Level) (rule : Rule) :
    (d.atMost key l rule).Alike (d'.atMost key l rule) :=
  h.add _

theorem Alike.withEnv (h : d.Alike d') {env env' : Env} (henv : env' = env) :
    Alike { d with env := env } { d' with env := env' } :=
  ⟨henv, h.system, h.exprs⟩

/-- The nodes may be different ones. -/
theorem Alike.addVar (h : d.Alike d') (key display : String) (n n' : Node) :
    (d.addVar key display n).Alike (d'.addVar key display n') where
  env := h.env
  system := by
    simp only [Draft.addVar, LevelSystem.unsourced_setSource, LevelSystem.unsourced_addVar,
      h.system]
  exprs := h.exprs

/-! ### Expressions -/

theorem concur_addExpr (h : d.Alike d') (e : Expr) : Concur Alike (d.addExpr e) (d'.addExpr e) := by
  unfold addExpr
  split
  · exact rfl
  · refine ⟨h.env, ?_, congrArg (· + 1) h.exprs⟩
    simp only [LevelSystem.unsourced_setSource, LevelSystem.unsourced_addExprVar, h.system,
      h.nextKey]

mutual

theorem concur_reads (hg : g.OpensTo g') {whole : Expr} {key : String} {rule : Rule} :
    ∀ (e : Expr) {d d' : Draft}, d.Alike d' →
      Concur Alike (reads g fn whole key rule e d) (reads g' fn whole key rule e d')
  | .hole, _, _, h => h
  | .lit .., _, _, h => h
  | .var name, d, d', h => by
      unfold reads
      rw [h.find?]
      split
      · exact rfl
      · exact h.flow _ _ _
  | .unary _ x, _, _, h => concur_reads hg x h
  | .binary _ x y, _, _, h => (concur_reads hg x h).bind fun _ _ h' ↦ concur_reads hg y h'
  | .index x indices, _, _, h =>
      (concur_reads hg x h).bind fun _ _ h' ↦ concur_readsAll hg indices h'
  | .call callee args, _, _, h => by
      unfold reads
      rw [hg.func?, hg.prims]
      cases g.func? callee with
      | some f =>
          simp only [Option.map_some]
          have hparams : f.opened.params.length = f.params.length := rfl
          by_cases hlength : args.length = f.params.length
          · rw [if_pos hlength, if_pos (hlength.trans hparams.symm)]
            exact (concur_passes hg args f.params h).bind fun _ _ h' ↦ h'.flow _ _ _
          · rw [if_neg hlength, if_neg fun h ↦ hlength (h.trans hparams)]
            exact rfl
      | none =>
          simp only [Option.map_none]
          split
          · refine concur_readsAll hg args ?_
            split
            · exact h.atLeast _ _ _
            · exact h
          · exact rfl

theorem concur_readsAll (hg : g.OpensTo g') {whole : Expr} {key : String} {rule : Rule} :
    ∀ (es : List Expr) {d d' : Draft}, d.Alike d' →
      Concur Alike (readsAll g fn whole key rule es d) (readsAll g' fn whole key rule es d')
  | [], _, _, h => h
  | e :: es, _, _, h => (concur_reads hg e h).bind fun _ _ h' ↦ concur_readsAll hg es h'

theorem concur_passes (hg : g.OpensTo g') {callee : String} :
    ∀ (es : List Expr) (ps : List Param) {d d' : Draft}, d.Alike d' →
      Concur Alike (passes g fn callee ps es d) (passes g' fn callee ps es d')
  | [], [], _, _, h => h
  | [], _ :: _, _, _, h => h
  | _ :: _, [], _, _, h => h
  | e :: es, p :: ps, _, _, h => by
      unfold passes
      rw [h.nextKey]
      refine (concur_addExpr h e).bind fun _ _ h₁ ↦ ?_
      refine (concur_reads hg e h₁).bind fun _ _ h₂ ↦ ?_
      exact concur_passes hg es ps (h₂.flow _ _ _)

end

theorem concur_expr (hg : g.OpensTo g') (e : Expr) (rule : Rule) (h : d.Alike d') :
    Concur (fun kd kd' ↦ kd'.1 = kd.1 ∧ kd.2.Alike kd'.2) (expr g fn e rule d)
      (expr g' fn e rule d') := by
  unfold expr
  rw [h.nextKey]
  refine (concur_addExpr h e).bind fun _ _ h₁ ↦ ?_
  exact (concur_reads hg e h₁).bind fun _ _ h₂ ↦ ⟨rfl, h₂⟩

/-! ### Statements -/

theorem concur_declare (s : Stmt) (v : Var) (h : d.Alike d') :
    Concur Alike (d.declare s v) (d'.declare s v) := by
  unfold declare
  rw [h.env]
  split
  · exact rfl
  · exact (h.withEnv rfl).addVar _ _ _ _

theorem concur_decl (hg : g.OpensTo g') (type name : String) (data : Bool) (init : Option Expr)
    (h : d.Alike d') :
    Concur Alike (decl g fn type name data init d) (decl g' fn type name data init d') := by
  unfold decl
  split
  · exact rfl
  split
  · exact rfl
  cases init with
  | none => exact concur_declare _ _ h
  | some e =>
      refine (concur_expr hg e .assignment h).bind ?_
      rintro ⟨key, _⟩ ⟨_, _⟩ ⟨rfl, h₁⟩
      exact (concur_declare _ _ h₁).bind fun _ _ h₂ ↦ h₂.flow _ _ _

theorem concur_assign (hg : g.OpensTo g') (name : String) (value : Expr) (h : d.Alike d') :
    Concur Alike (assign g fn name value d) (assign g' fn name value d') := by
  unfold assign
  rw [h.find?]
  split
  · exact rfl
  split
  · exact rfl
  · refine (concur_expr hg value .assignment h).bind ?_
    rintro ⟨key, _⟩ ⟨_, _⟩ ⟨rfl, h₁⟩
    exact (h₁.withEnv (congrArg (Env.markAssigned · _) h₁.env)).flow _ _ _

theorem concur_sampleArgs (hg : g.OpensTo g') (es : List Expr) (h : d.Alike d') :
    Concur Alike (sampleArgs g fn es d) (sampleArgs g' fn es d') := by
  induction es generalizing d d' with
  | nil => exact h
  | cons e es ih =>
      refine (concur_expr hg e .sample h).bind ?_
      rintro ⟨key, _⟩ ⟨_, _⟩ ⟨rfl, h₁⟩
      exact ih (h₁.atMost _ _ _)

theorem concur_sample (hg : g.OpensTo g') (name dist : String) (args : List Expr)
    (h : d.Alike d') :
    Concur Alike (sample g fn name dist args d) (sample g' fn name dist args d') := by
  unfold sample
  rw [h.find?, hg.prims]
  split
  · exact rfl
  split
  · exact concur_sampleArgs hg args (h.atMost _ _ _)
  · exact rfl

/-- The statements of a scope, and what is left of them when their blocks are opened. -/
theorem concur_stmts (hg : g.OpensTo g') (ss : List Stmt) (h : d.Alike d') :
    Concur Alike (stmts g fn ss d) (stmts g' fn (Stmt.openedAll ss) d') := by
  rw [stmts_flatten ss, Stmt.openedAll_eq_map]
  have hflat := Stmt.isFlat_flatten ss
  generalize Stmt.flatten ss = ts at hflat ⊢
  induction ts generalizing d d' with
  | nil => exact h
  | cons s ts ih =>
      rw [List.forall_mem_cons] at hflat
      have hstmt : Concur Alike (stmt g fn s d) (stmt g' fn s.withOpenBody d') := by
        cases s with
        | hole => exact rfl
        | decl type name data init => exact concur_decl hg type name data init h
        | assign name value => exact concur_assign hg name value h
        | sample name dist args => exact concur_sample hg name dist args h
        | block list => cases hflat.1
        -- both definitions are rejected by name, though they are different nodes
        | func name params body result => exact rfl
      exact hstmt.bind fun _ _ h' ↦ ih h' hflat.2

/-! ### Functions and programs -/

theorem checkFuncs_opened (prims : Primitives) (seen : List String) (fs : List Func) :
    checkFuncs prims seen (fs.map Func.opened) = checkFuncs prims seen fs := by
  induction fs generalizing seen with
  | nil => rfl
  | cons f fs ih =>
      simp only [List.map_cons, checkFuncs, Func.name_opened, Func.result_opened, ih]

theorem concur_params (f : Func) (ps : List Param) (h : d.Alike d') :
    Concur Alike (params f ps d) (params f.opened ps d') := by
  induction ps generalizing d d' with
  | nil => exact h
  | cons p ps ih =>
      unfold params
      rw [h.env, Func.name_opened]
      dsimp only
      split
      · exact rfl
      · exact ih ((h.withEnv rfl).addVar _ _ _ _)

theorem concur_headers (fs : List Func) (h : d.Alike d') :
    Concur Alike (headers fs d) (headers (fs.map Func.opened) d') := by
  induction fs generalizing d d' with
  | nil => exact h
  | cons f fs ih =>
      have hheader : Concur Alike (header f d) (header f.opened d') :=
        (concur_params f f.params h).bind fun _ _ h' ↦ h'.addVar _ _ _ _
      exact hheader.bind fun _ _ h' ↦ ih h'

theorem concur_bodies (hg : g.OpensTo g') (fs : List Func) (h : d.Alike d') :
    Concur Alike (bodies g fs d) (bodies g' (fs.map Func.opened) d') := by
  induction fs generalizing d d' with
  | nil => exact h
  | cons f fs ih =>
      have hbody : Concur Alike (body g f d) (body g' f.opened d') := by
        unfold body
        rw [Func.name_opened, Func.result_opened, Func.stmts_opened]
        refine (concur_stmts hg f.stmts h).bind fun _ _ h₁ ↦ ?_
        refine (concur_expr hg _ .result h₁).bind ?_
        rintro ⟨key, _⟩ ⟨_, _⟩ ⟨rfl, h₂⟩
        exact h₂.flow _ _ _
      exact hbody.bind fun _ _ h' ↦ ih h'

theorem Alike.varRules (h : d.Alike d') (fn : String) : (d.varRules fn).Alike (d'.varRules fn) := by
  unfold Draft.varRules
  rw [h.env]
  induction Env.vars d.env fn generalizing d d' with
  | nil => exact h
  | cons v vs ih =>
      refine ih ?_
      unfold varRule
      split
      · exact (h.add _).add _
      split
      · exact h
      · exact h.atLeast _ _ _

theorem concur_ofProgram (prims : Primitives) (p : Program) :
    Concur Alike (ofProgram prims p) (ofProgram prims p.opened) := by
  have hg : Globals.OpensTo ⟨prims, p.funcs⟩ ⟨prims, p.opened.funcs⟩ := by
    refine ⟨rfl, fun fn ↦ ?_⟩
    simp only [Globals.func?, Func.named?, Program.opened, List.find?_map, Function.comp_def,
      Func.name_opened]
  unfold ofProgram
  simp only [Program.opened, checkFuncs_opened]
  refine (Concur.refl (checkFuncs prims [] p.funcs)).bind fun _ _ _ ↦ ?_
  refine (concur_headers p.funcs ⟨rfl, rfl, rfl⟩).bind fun _ _ h₁ ↦ ?_
  refine (concur_bodies hg p.funcs h₁).bind fun _ _ h₂ ↦ ?_
  refine (concur_stmts hg p.stmts h₂).bind fun d d' h₃ ↦ ?_
  have hrules : ∀ {d d' : Draft}, d.Alike d' →
      (p.funcs.foldl (fun d f ↦ d.varRules f.name) d).Alike
        ((p.funcs.map Func.opened).foldl (fun d f ↦ d.varRules f.name) d') := by
    induction p.funcs with
    | nil => exact fun h ↦ h
    | cons f fs ih => exact fun h ↦ ih (h.varRules f.name)
  exact hrules (h₃.varRules "")

theorem concur_seed (seeds : List (String × LevelCode)) (h : d.Alike d') :
    Concur Alike (seed seeds d) (seed seeds d') := by
  induction seeds generalizing d d' with
  | nil => exact h
  | cons x seeds ih =>
      obtain ⟨name, c⟩ := x
      unfold seed
      rw [h.find?]
      split
      · exact rfl
      split
      · exact rfl
      · exact ih (h.atLeast _ _ _)

end Draft

namespace Typing

/-- Two typings show the same variables, levels and signatures. -/
structure SameLevels (t t' : Typing) : Prop where
  env : t'.env = t.env
  levels : t'.levels = t.levels
  signatures : t'.signatures = t.signatures

theorem SameLevels.level? {t t' : Typing} (h : t.SameLevels t') (x : String) :
    t'.level? x = t.level? x := by
  rw [Typing.level?, Typing.find?, h.env, h.levels, Typing.level?, Typing.find?]

theorem SameLevels.signature? {t t' : Typing} (h : t.SameLevels t') (fn : String) :
    t'.signature? fn = t.signature? fn := by
  rw [Typing.signature?, h.signatures, Typing.signature?]

/-- Opening the blocks of a program changes neither the levels that are inferred nor the issue that
is found instead. -/
theorem concur_infer (prims : Primitives) (p : Program) (seeds : Seeds) :
    Concur SameLevels (infer prims p seeds) (infer prims p.opened seeds) := by
  refine (Draft.concur_ofProgram prims p).bind fun _ _ h₁ ↦ ?_
  refine (Draft.concur_seed seeds.sorted h₁).bind fun d d' h₂ ↦ ?_
  have hsolve : d'.system.solve.mapError Diagnostic.issue =
      d.system.solve.mapError Diagnostic.issue := by
    rw [← LevelSystem.solve_unsourced, h₂.system, LevelSystem.solve_unsourced]
  refine (Concur.of_mapError hsolve).bind fun sol _ hsol ↦ ?_
  cases hsol
  refine ⟨h₂.env, rfl, ?_⟩
  simp only [read, Program.opened, List.map_map, Function.comp_def, Func.name_opened, h₂.env]

end Typing

end Stratify
