import Stratify.Proofs.Constraint.Building
import Stratify.Proofs.Diagnostic.Message
import Stratify.Proofs.Typing.Environment
import Stratify.Typing.Basic

/-!
# Drafts are well formed

Whatever a program is, while its constraints are generated the constraint system is a proper one,
and every variable of the environment is found by its own name and has a level variable. No step of
the generation takes a level variable away.
-/

namespace Stratify

namespace LevelSystem

variable {s : LevelSystem Level}

theorem has_add_of_has {key : String} (h : s.has key = true) (c : Constraint Level) :
    (s.add c).has key = true :=
  has_add.mpr (Or.inl h)

theorem has_addVar_setSource {key display key' : String} {source : Option Node} :
    ((s.addVar key display).setSource key source).has key' = true ↔
      s.has key' = true ∨ key' = key := by
  rw [has_setSource, has_addVar]

theorem Proper.setSource (h : s.Proper) (key : String) (source : Option Node) :
    (s.setSource key source).Proper :=
  h.modify key (fun _ ↦ rfl) fun _ ↦ rfl

end LevelSystem

namespace Draft

/-- The constraints are about known level variables, and every variable has one. -/
structure Formed (d : Draft) : Prop where
  proper : d.system.Proper
  coherent : Env.Coherent d.env
  known : ∀ fn x v, d.find? fn x = some v → d.system.has v.key = true

/-- A later draft is formed as well, and has all the level variables. -/
structure Grows (d d' : Draft) : Prop where
  formed : d.Formed → d'.Formed
  has : ∀ key, d.system.has key = true → d'.system.has key = true

theorem formed_empty : empty.Formed :=
  ⟨LevelSystem.proper_empty, Env.coherent_empty, fun _ _ _ h ↦ (by cases h)⟩

variable {g : Globals} {fn : String} {d d' d₁ d₂ d₃ : Draft}

theorem Grows.refl (d : Draft) : d.Grows d :=
  ⟨id, fun _ ↦ id⟩

theorem Grows.trans (h : d₁.Grows d₂) (h' : d₂.Grows d₃) : d₁.Grows d₃ :=
  ⟨fun hd ↦ h'.formed (h.formed hd), fun key hkey ↦ h'.has key (h.has key hkey)⟩

theorem grows_add (d : Draft) {c : Constraint Level} (hlo : c.lo ≠ .var "") (hhi : c.hi ≠ .var "") :
    d.Grows { d with system := d.system.add c } where
  formed hd := ⟨hd.proper.add hlo hhi, hd.coherent,
    fun fn x v hv ↦ LevelSystem.has_add_of_has (hd.known fn x v hv) c⟩
  has _ hkey := LevelSystem.has_add_of_has hkey c

theorem grows_flow (d : Draft) (lo hi : String) (rule : Rule) : d.Grows (d.flow lo hi rule) :=
  d.grows_add (Term.named_ne_var_empty lo) (Term.named_ne_var_empty hi)

theorem grows_atLeast (d : Draft) (key : String) (l : Level) (rule : Rule) :
    d.Grows (d.atLeast key l rule) :=
  d.grows_add nofun (Term.named_ne_var_empty key)

theorem grows_atMost (d : Draft) (key : String) (l : Level) (rule : Rule) :
    d.Grows (d.atMost key l rule) :=
  d.grows_add (Term.named_ne_var_empty key) nofun

theorem grows_addVar (d : Draft) (key display : String) (source : Node) :
    d.Grows (d.addVar key display source) where
  formed hd := ⟨(hd.proper.addVar key display).setSource key _, hd.coherent,
    fun fn x v hv ↦ LevelSystem.has_addVar_setSource.mpr (Or.inl (hd.known fn x v hv))⟩
  has _ hkey := LevelSystem.has_addVar_setSource.mpr (Or.inl hkey)

/-- A declared variable gets a level variable. -/
theorem grows_declare? {v : Var} {env : Env} (henv : Env.declare? d.env v = some env)
    (display : String) (source : Node) :
    d.Grows ({ d with env := env }.addVar v.key display source) where
  formed hd := by
    refine ⟨(hd.proper.addVar v.key display).setSource v.key _,
      Env.coherent_declare? hd.coherent henv, fun fn x w hw ↦ ?_⟩
    have hfind : Env.find? env fn x = some w := hw
    rw [Env.find?_declare? henv] at hfind
    refine LevelSystem.has_addVar_setSource.mpr ?_
    split at hfind
    · cases hfind
      exact Or.inr rfl
    · exact Or.inl (hd.known fn x w hfind)
  has _ hkey := LevelSystem.has_addVar_setSource.mpr (Or.inl hkey)

theorem Formed.markAssigned (hd : d.Formed) {v : Var} (hv : d.system.has v.key = true) :
    Formed { d with env := Env.markAssigned d.env v } := by
  refine ⟨hd.proper, Env.coherent_markAssigned hd.coherent v, fun fn x w hw ↦ ?_⟩
  have hfind : Env.find? (Env.markAssigned d.env v) fn x = some w := hw
  rw [Env.find?_markAssigned] at hfind
  split at hfind
  · cases hfind
    exact hv
  · exact hd.known fn x w hfind

/-! ### The generation -/

/-- A step of the generation grows a draft, if it succeeds. -/
def Grown (d : Draft) (r : Except Fault Draft) : Prop :=
  Yields (fun _ ↦ True) d.Grows r

theorem Grown.bind {r : Except Fault Draft} {f : Draft → Except Fault Draft} (h : d.Grown r)
    (hf : ∀ d₁ : Draft, d₁.Grown (f d₁)) : d.Grown (r >>= f) :=
  Yields.bind h fun d₁ h₁ ↦ (hf d₁).imp (fun _ ↦ id) fun _ h₂ ↦ h₁.trans h₂

theorem Grows.grown (h : d₁.Grows d₂) {r : Except Fault Draft} (hr : d₂.Grown r) : d₁.Grown r :=
  hr.imp (fun _ ↦ id) fun _ h' ↦ h.trans h'

theorem grown_addExpr (d : Draft) (e : Expr) : d.Grown (d.addExpr e) := by
  unfold addExpr
  split
  · trivial
  · next t _ =>
      have hhas {key : String} (hkey : d.system.has key = true) :
          ((d.system.addExprVar d.nextKey ("`" ++ t ++ "`")).setSource d.nextKey
            (some (.expr e))).has key = true := by
        rw [LevelSystem.has_setSource]
        exact LevelSystem.has_addExprVar.mpr (Or.inl hkey)
      refine ⟨fun hd ↦ ⟨?_, hd.coherent, fun fn x v hv ↦ hhas (hd.known fn x v hv)⟩,
        fun _ hkey ↦ hhas hkey⟩
      exact (hd.proper.apply (.addExprVar _ _)).setSource _ _

mutual

theorem grown_reads {whole : Expr} {key : String} {rule : Rule} :
    ∀ (e : Expr) (d : Draft), d.Grown (reads g fn whole key rule e d)
  | .hole, d => .refl d
  | .lit .., d => .refl d
  | .var name, d => by
      unfold reads
      split
      · trivial
      · exact d.grows_flow _ _ _
  | .unary _ x, d => grown_reads x d
  | .binary _ x y, d => (grown_reads x d).bind fun d₁ ↦ grown_reads y d₁
  | .index x is, d => (grown_reads x d).bind fun d₁ ↦ grown_readsAll is d₁
  | .call callee args, d => by
      unfold reads
      split
      · split
        · exact (grown_passes _ args d).bind fun d₁ ↦ d₁.grows_flow _ _ _
        · trivial
      · split
        · have hrng : d.Grows (if Primitives.isRng callee then d.atLeast key .genquant .rng
              else d) := by
            split
            · exact d.grows_atLeast _ _ _
            · exact .refl d
          exact hrng.grown (grown_readsAll args _)
        · trivial

theorem grown_readsAll {whole : Expr} {key : String} {rule : Rule} :
    ∀ (es : List Expr) (d : Draft), d.Grown (readsAll g fn whole key rule es d)
  | [], d => .refl d
  | e :: es, d => (grown_reads e d).bind fun d₁ ↦ grown_readsAll es d₁

theorem grown_passes {callee : String} :
    ∀ (ps : List Param) (es : List Expr) (d : Draft), d.Grown (passes g fn callee ps es d)
  | [], es, d => by
      rw [passes]
      · exact Grows.refl d
      · nofun
  | _ :: _, [], d => Grows.refl d
  | p :: ps, e :: es, d => by
      refine (d.grown_addExpr e).bind fun d₁ ↦ (grown_reads e d₁).bind fun d₂ ↦ ?_
      exact (d₂.grows_flow _ _ _).grown (grown_passes ps es _)

end

theorem grown_expr (e : Expr) (rule : Rule) (d : Draft) :
    Yields (fun _ ↦ True) (fun out ↦ d.Grows out.2) (expr g fn e rule d) := by
  refine Yields.bind (d.grown_addExpr e) fun d₁ h₁ ↦ ?_
  refine Yields.bind (grown_reads e d₁) fun d₂ h₂ ↦ ?_
  exact h₁.trans h₂

theorem grown_sampleArgs (es : List Expr) (d : Draft) : d.Grown (sampleArgs g fn es d) := by
  induction es generalizing d with
  | nil => exact Grows.refl d
  | cons e es ih =>
      refine Yields.bind (grown_expr e .sample d) fun out hout ↦ ?_
      exact (hout.trans (out.2.grows_atMost _ _ _)).grown (ih _)

theorem grown_declare (s : Stmt) (v : Var) (d : Draft) : d.Grown (declare s v d) := by
  unfold declare
  split
  · trivial
  · next henv => exact grows_declare? henv _ _

theorem grown_decl (type name : String) (data : Bool) (init : Option Expr) (d : Draft) :
    d.Grown (decl g fn type name data init d) := by
  unfold decl
  split
  · trivial
  split
  · trivial
  cases init with
  | none => exact grown_declare _ _ d
  | some e =>
      refine Yields.bind (grown_expr e .assignment d) fun out hout ↦ hout.grown ?_
      exact (grown_declare _ _ _).bind fun d₁ ↦ d₁.grows_flow _ _ _

theorem grown_assign (name : String) (value : Expr) (d : Draft) :
    d.Grown (assign g fn name value d) := by
  unfold assign
  split
  · trivial
  next v hv =>
  split
  · trivial
  refine Yields.bind (grown_expr value .assignment d) fun out hout ↦ ?_
  -- The level variable of the assigned variable is still there after the value has been read.
  have hmark : d.Grows { out.2 with env := Env.markAssigned out.2.env v } :=
    ⟨fun hd ↦ (hout.formed hd).markAssigned (hout.has _ (hd.known fn name v hv)), hout.has⟩
  exact hmark.trans (grows_flow _ _ _ _)

theorem grown_sample (name dist : String) (args : List Expr) (d : Draft) :
    d.Grown (sample g fn name dist args d) := by
  unfold sample
  split
  · trivial
  split
  · exact (d.grows_atMost _ _ _).grown (grown_sampleArgs args _)
  · trivial

mutual

theorem grown_stmt : ∀ (s : Stmt) (d : Draft), d.Grown (stmt g fn s d)
  | .hole, _ => trivial
  | .decl type name data init, d => grown_decl type name data init d
  | .assign name value, d => grown_assign name value d
  | .sample name dist args, d => grown_sample name dist args d
  | .block list, d => grown_stmts list d
  | .func .., _ => trivial

theorem grown_stmts : ∀ (ss : List Stmt) (d : Draft), d.Grown (stmts g fn ss d)
  | [], d => Grows.refl d
  | s :: ss, d => (grown_stmt s d).bind fun d₁ ↦ grown_stmts ss d₁

end

theorem grown_params (f : Func) (ps : List Param) (d : Draft) : d.Grown (params f ps d) := by
  induction ps generalizing d with
  | nil => exact Grows.refl d
  | cons p ps ih =>
      unfold params
      dsimp only
      split
      · trivial
      · next henv => exact (grows_declare? henv _ _).grown (ih _)

theorem grown_headers (fs : List Func) (d : Draft) : d.Grown (headers fs d) := by
  induction fs generalizing d with
  | nil => exact Grows.refl d
  | cons f fs ih =>
      refine Grown.bind ?_ fun d₁ ↦ ih d₁
      exact (grown_params f f.params d).bind fun d₁ ↦ d₁.grows_addVar _ _ _

theorem grown_bodies (fs : List Func) (d : Draft) : d.Grown (bodies g fs d) := by
  induction fs generalizing d with
  | nil => exact Grows.refl d
  | cons f fs ih =>
      refine Grown.bind ?_ fun d₁ ↦ ih d₁
      refine (grown_stmts f.stmts d).bind fun d₁ ↦ ?_
      refine Yields.bind (grown_expr (f.result.getD .hole) .result d₁) fun out hout ↦ ?_
      exact hout.trans (grows_flow _ _ _ _)

theorem grows_varRules (d : Draft) (fn : String) : d.Grows (d.varRules fn) := by
  have hrules (vs : List Var) (d : Draft) : d.Grows (vs.foldl varRule d) := by
    induction vs generalizing d with
    | nil => exact .refl d
    | cons v vs ih =>
        refine Grows.trans ?_ (ih _)
        unfold varRule
        split
        · exact (d.grows_atLeast _ _ _).trans (grows_atMost _ _ _ _)
        split
        · exact .refl d
        · exact d.grows_atLeast _ _ _
  exact hrules _ d

theorem grown_seed (seeds : Seeds) (d : Draft) : d.Grown (seed seeds d) := by
  induction seeds generalizing d with
  | nil => exact Grows.refl d
  | cons e seeds ih =>
      unfold seed
      split
      · trivial
      split
      · trivial
      · exact (d.grows_atLeast _ _ _).grown (ih _)

/-- Every program that constraints are generated for gets a well-formed draft. -/
theorem formed_of_ofProgram_eq_ok {prims : Primitives} {p : Program}
    (h : ofProgram prims p = .ok d) : d.Formed := by
  have hrules (fs : List Func) (d : Draft) :
      d.Grows (fs.foldl (fun d f ↦ d.varRules f.name) d) := by
    induction fs generalizing d with
    | nil => exact .refl d
    | cons f fs ih => exact (d.grows_varRules f.name).trans (ih _)
  have hgrown : empty.Grown (ofProgram prims p) := by
    unfold ofProgram
    cases checkFuncs prims [] p.funcs with
    | error fault => trivial
    | ok _ =>
        refine (grown_headers p.funcs empty).bind fun d₁ ↦ ?_
        refine (grown_bodies p.funcs d₁).bind fun d₂ ↦ ?_
        refine (grown_stmts p.stmts d₂).bind fun d₃ ↦ ?_
        exact (d₃.grows_varRules "").trans (hrules _ _)
  exact (hgrown.of_eq_ok h).formed formed_empty

end Draft

end Stratify
