import Stratify.Proofs.Diagnostic.Message
import Stratify.Proofs.Inlining.Elaboration

/-!
# What elaboration reports

Elaboration of a complete program, scoped well or not, either reports something with a message or
blames a function that no call has led to for its nesting. What it makes of a program has no calls
to user functions, and is complete if all functions have results; so the check that comes last
never fails.
-/

namespace Stratify

/-! ### The checks of the call graph -/

namespace CallGraph

variable {g : CallGraph} {limit : Int}

theorem complete_of_mem_userCalls (hg : ∀ f ∈ g.funcs, f.complete = true) {fn : String} {c : Call}
    (hc : c ∈ g.userCalls fn) : c.toExpr.complete = true := by
  unfold userCalls at hc
  split at hc
  · cases hc
  · next f hf =>
      exact Stmt.complete_of_mem_calls (s := f.toStmt) (hg f (Inlining.func?_name hf).2)
        (List.mem_filter.mp hc).1

/-- A function is entered through a call, unless it is the first of its chain. -/
theorem yields_visit (hg : ∀ f ∈ g.funcs, f.complete = true) (fuel : Nat) {chain : List String}
    {fn : String} {via : Expr}
    (hvia : chain ≠ [] ∧ via.complete = true ∨ chain = [] ∧ via = .hole) (ds : Depths) :
    Yields Diagnostic.Accounted (fun _ ↦ True) (g.visit limit fuel chain fn via ds) := by
  induction fuel generalizing chain fn via ds with
  | zero => exact trivial
  | succ fuel ih =>
      rw [visit]
      split
      · next hcycle =>
          rcases hvia with ⟨-, hvia⟩ | ⟨rfl, -⟩
          · exact Or.inl (Diagnostic.grounded_about (n := .expr via) hvia)
          · cases hcycle
      split
      · exact trivial
      have hcalls : Yields Diagnostic.Accounted (fun _ : Depths × Nat ↦ True)
          ((g.firstCalls fn).foldlM (fun (acc : Depths × Nat) call ↦ do
            let ds ← g.visit limit fuel (chain ++ [fn]) call.fn call.toExpr acc.1
            return (ds, max acc.2 (ds.depth call.fn + 1))) (ds, 1)) := by
        refine Yields.foldlM (fun c hc acc _ ↦ ?_) trivial
        have hcall := complete_of_mem_userCalls hg (mem_userCalls_of_mem_firstCalls hc)
        refine (ih (Or.inl ⟨by simp, hcall⟩) acc.1).bind fun _ _ ↦ ?_
        exact trivial
      refine hcalls.bind fun acc _ ↦ ?_
      dsimp only
      split
      -- only the first function of a chain is reported with a chain of one function
      · rcases hvia with ⟨hchain, hvia⟩ | ⟨rfl, rfl⟩
        · refine Or.inl ⟨fun n hn ↦ Option.some.inj hn ▸ hvia, ?_⟩
          rintro ⟨fn', depth', limit', hissue⟩
          have heq : chain ++ [fn] = [fn'] := (Issue.tooDeep.inj hissue).1
          exact hchain (List.append_eq_singleton_iff.mp heq |>.elim And.left fun h ↦ by simp at h)
        · exact Or.inr ⟨⟨fn, acc.2, limit, rfl⟩, rfl⟩
      · exact trivial

theorem yields_checkDepth (hg : ∀ f ∈ g.funcs, f.complete = true) (limit : Int) :
    Yields Diagnostic.Accounted (fun _ ↦ True) (g.checkDepth limit) := by
  have hvisits : Yields Diagnostic.Accounted (fun _ ↦ True) (g.names.foldlM (fun ds fn ↦
      g.visit limit (g.names.length + 1) [] fn .hole ds) []) :=
    Yields.foldlM (fun fn _ ds _ ↦ yields_visit hg _ (Or.inr ⟨rfl, rfl⟩) ds) trivial
  refine hvisits.bind fun _ _ ↦ ?_
  exact trivial

theorem yields_checkCalls (ss : Sizes) {cs : List Call}
    (hcs : ∀ c ∈ cs, c.toExpr.complete = true) (total : Int64) :
    Yields Diagnostic.Grounded (fun _ ↦ True) (checkCalls ss limit cs total) := by
  induction cs generalizing total with
  | nil => exact trivial
  | cons c cs ih =>
      rw [List.forall_mem_cons] at hcs
      unfold checkCalls
      dsimp only
      split
      · exact Diagnostic.grounded_about (n := .expr c.toExpr) hcs.1
      · exact ih hcs.2 _

theorem yields_checkSize (g : CallGraph) {ss : List Stmt} (hss : Stmt.completeAll ss = true)
    (limit : Int) : Yields Diagnostic.Grounded (fun _ ↦ True) (g.checkSize ss limit) :=
  yields_checkCalls _ (fun _ hc ↦ Stmt.complete_of_mem_callsAll hss (List.mem_filter.mp hc).1) 0

end CallGraph

/-! ### What inlining leaves -/

namespace Expr

/-- What inlining leaves of an expression: there are no calls to user functions and, if all of them
have results, no holes. -/
structure Residual (g : CallGraph) (e : Expr) : Prop where
  callFree : ∀ c ∈ e.calls, g.isUser c.fn = false
  complete : (∀ f ∈ g.funcs, f.result.isSome = true) → e.complete = true

variable {g : CallGraph}

theorem residual_binary {op : Op} {x y : Expr} (hx : x.Residual g) (hy : y.Residual g) :
    (binary op x y).Residual g where
  callFree := List.forall_mem_append.mpr ⟨hx.callFree, hy.callFree⟩
  complete h := by simp only [Expr.complete, hx.complete h, hy.complete h, Bool.and_self]

theorem callFree_of_residual {es : List Expr} (hes : ∀ e ∈ es, e.Residual g) :
    ∀ c ∈ callsAll es, g.isUser c.fn = false := by
  induction es with
  | nil => simp [callsAll]
  | cons e es ih =>
      rw [List.forall_mem_cons] at hes
      exact List.forall_mem_append.mpr ⟨hes.1.callFree, ih hes.2⟩

theorem completeAll_of_residual {es : List Expr} (hes : ∀ e ∈ es, e.Residual g)
    (h : ∀ f ∈ g.funcs, f.result.isSome = true) : completeAll es = true :=
  completeAll_iff.mpr fun e he ↦ (hes e he).complete h

theorem residual_index {x : Expr} {is : List Expr} (hx : x.Residual g)
    (his : ∀ i ∈ is, i.Residual g) : (index x is).Residual g where
  callFree := List.forall_mem_append.mpr ⟨hx.callFree, callFree_of_residual his⟩
  complete h := by
    simp only [Expr.complete, hx.complete h, completeAll_of_residual his h, Bool.and_self]

theorem residual_call {fn : String} {args : List Expr} (hfn : g.isUser fn = false)
    (hargs : ∀ a ∈ args, a.Residual g) : (call fn args).Residual g where
  callFree := List.forall_mem_append.mpr
    ⟨callFree_of_residual hargs, fun _ hc ↦ List.mem_singleton.mp hc ▸ hfn⟩
  complete h := completeAll_of_residual hargs h

end Expr

namespace Stmt

/-- What inlining leaves of a statement. -/
structure Residual (g : CallGraph) (s : Stmt) : Prop where
  callFree : ∀ c ∈ s.calls, g.isUser c.fn = false
  complete : (∀ f ∈ g.funcs, f.result.isSome = true) → s.complete = true

variable {g : CallGraph}

theorem residual_decl {e : Expr} (he : e.Residual g) (type name : String) (data : Bool) :
    (decl type name data e.toInit).Residual g := by
  cases e with
  | hole => exact ⟨fun _ hc ↦ (by cases hc), fun _ ↦ rfl⟩
  | _ => exact ⟨he.callFree, he.complete⟩

end Stmt

namespace Inlining

variable {g : CallGraph} {handle : CallHandler}

/-- A handler that replaces calls as it should, if it does not report something with a message. -/
def Accounts (g : CallGraph) (handle : CallHandler) : Prop :=
  ∀ f call args s, f ∈ g.funcs → call.complete = true → (∀ a ∈ args, Expr.Residual g a) →
    Yields Diagnostic.Grounded
      (fun out ↦ (∀ t ∈ out.1, Stmt.Residual g t) ∧ Expr.Residual g out.2.1)
      (handle f call args s)

mutual

theorem yields_expr (hhandle : Accounts g handle) :
    ∀ {e : Expr} {s : State}, e.complete = true →
      Yields Diagnostic.Grounded
        (fun out ↦ (∀ t ∈ out.1, Stmt.Residual g t) ∧ Expr.Residual g out.2.1)
        (expr g handle e s)
  | .hole, _, he => by cases he
  | .lit .., _, _ => ⟨by simp, by simp [Expr.calls], fun _ ↦ rfl⟩
  | .var _, _, _ => ⟨by simp, by simp [Expr.calls], fun _ ↦ rfl⟩
  | .unary op x, s, he => by
      refine (yields_expr hhandle (e := x) (s := s) he).bind fun out hout ↦ ?_
      exact ⟨hout.1, hout.2.callFree, hout.2.complete⟩
  | .binary op x y, s, he => by
      simp only [Expr.complete, Bool.and_eq_true] at he
      refine (yields_expr hhandle (s := s) he.1).bind fun out₁ hout₁ ↦ ?_
      refine (yields_expr hhandle (s := out₁.2.2) he.2).bind fun out₂ hout₂ ↦ ?_
      exact ⟨List.forall_mem_append.mpr ⟨hout₁.1, hout₂.1⟩, Expr.residual_binary hout₁.2 hout₂.2⟩
  | .index x indices, s, he => by
      simp only [Expr.complete, Bool.and_eq_true] at he
      refine (yields_expr hhandle (s := s) he.1).bind fun out₁ hout₁ ↦ ?_
      refine (yields_exprs hhandle (s := out₁.2.2) he.2).bind fun out₂ hout₂ ↦ ?_
      exact ⟨List.forall_mem_append.mpr ⟨hout₁.1, hout₂.1⟩, Expr.residual_index hout₁.2 hout₂.2⟩
  | .call fn args, s, he => by
      have hargs : Expr.completeAll args = true := he
      refine (yields_exprs hhandle (s := s) hargs).bind fun out₁ hout₁ ↦ ?_
      dsimp only
      split
      · next hf =>
          exact ⟨hout₁.1, Expr.residual_call (by simp [CallGraph.isUser, hf]) hout₁.2⟩
      · next f hf =>
          have hcall := hhandle f (.call fn args) out₁.2.1 out₁.2.2 (func?_name hf).2 he hout₁.2
          refine hcall.bind fun out₂ hout₂ ↦ ?_
          exact ⟨List.forall_mem_append.mpr ⟨hout₁.1, hout₂.1⟩, hout₂.2⟩

theorem yields_exprs (hhandle : Accounts g handle) :
    ∀ {es : List Expr} {s : State}, Expr.completeAll es = true →
      Yields Diagnostic.Grounded
        (fun out ↦ (∀ t ∈ out.1, Stmt.Residual g t) ∧ ∀ e ∈ out.2.1, Expr.Residual g e)
        (exprs g handle es s)
  | [], _, _ => ⟨by simp, by simp⟩
  | e :: es, s, hes => by
      simp only [Expr.completeAll, Bool.and_eq_true] at hes
      refine (yields_expr hhandle (s := s) hes.1).bind fun out₁ hout₁ ↦ ?_
      refine (yields_exprs hhandle (s := out₁.2.2) hes.2).bind fun out₂ hout₂ ↦ ?_
      exact ⟨List.forall_mem_append.mpr ⟨hout₁.1, hout₂.1⟩,
        List.forall_mem_cons.mpr ⟨hout₁.2, hout₂.2⟩⟩

end

mutual

theorem yields_stmt (hhandle : Accounts g handle) :
    ∀ {t : Stmt} {s : State}, t.complete = true →
      Yields Diagnostic.Grounded (fun out ↦ ∀ t ∈ out.1, Stmt.Residual g t) (stmt g handle t s)
  | .hole, _, ht => by cases ht
  | .decl type name data none, s, _ =>
      fun _ ht ↦ List.mem_singleton.mp ht ▸ ⟨fun _ hc ↦ (by cases hc), fun _ ↦ rfl⟩
  | .decl type name data (some e), s, ht => by
      refine (yields_expr hhandle (e := e) (s := s) ht).bind fun out hout ↦ ?_
      exact forall_mem_concat hout.1 (Stmt.residual_decl hout.2 type name data)
  | .assign name value, s, ht => by
      refine (yields_expr hhandle (e := value) (s := s) ht).bind fun out hout ↦ ?_
      exact forall_mem_concat hout.1 ⟨hout.2.callFree, hout.2.complete⟩
  | .sample name dist args, s, ht => by
      have hargs : Expr.completeAll args = true := ht
      refine (yields_exprs hhandle (s := s) hargs).bind fun out hout ↦ ?_
      exact forall_mem_concat hout.1
        ⟨Expr.callFree_of_residual hout.2, Expr.completeAll_of_residual hout.2⟩
  | .block list, _, ht => yields_stmts hhandle (show Stmt.completeAll list = true from ht)
  | .func name params body result, _, ht =>
      Diagnostic.grounded_about (n := .stmt (.func name params body result)) ht

theorem yields_stmts (hhandle : Accounts g handle) :
    ∀ {ts : List Stmt} {s : State}, Stmt.completeAll ts = true →
      Yields Diagnostic.Grounded (fun out ↦ ∀ t ∈ out.1, Stmt.Residual g t) (stmts g handle ts s)
  | [], _, _ => by simp [stmts, Yields]
  | t :: ts, s, hts => by
      simp only [Stmt.completeAll, Bool.and_eq_true] at hts
      refine (yields_stmt hhandle (s := s) hts.1).bind fun out₁ hout₁ ↦ ?_
      refine (yields_stmts hhandle (s := out₁.2) hts.2).bind fun out₂ hout₂ ↦ ?_
      exact List.forall_mem_append.mpr ⟨hout₁, hout₂⟩

end

theorem yields_renamedStmts (hhandle : Accounts g handle) (r : String → String) {ts : List Stmt}
    (hts : ∀ t ∈ ts, t.complete = true) (s : State) :
    Yields Diagnostic.Grounded (fun out ↦ ∀ t ∈ out.1, Stmt.Residual g t)
      (renamedStmts g handle r ts s) := by
  induction ts generalizing s with
  | nil => simp [renamedStmts, Yields]
  | cons t ts ih =>
      rw [List.forall_mem_cons] at hts
      unfold renamedStmts
      split
      · exact Diagnostic.grounded_bare
      · next t' ht' =>
          have ht := ((Stmt.spans_complete r).of_renamesTo ht').trans hts.1
          refine (yields_stmt hhandle (s := s) ht).bind fun out₁ hout₁ ↦ ?_
          refine (ih hts.2 out₁.2).bind fun out₂ hout₂ ↦ ?_
          exact List.forall_mem_append.mpr ⟨hout₁, hout₂⟩

/-- The result of a copy. A function without a result leaves a hole. -/
theorem yields_result (hhandle : Accounts g handle) {f : Func} (hmem : f ∈ g.funcs)
    (hf : f.complete = true) (r : String → String) (s : State) :
    Yields Diagnostic.Grounded
      (fun out ↦ (∀ t ∈ out.1, Stmt.Residual g t) ∧ Expr.Residual g out.2.1)
      (expr g handle ((Expr.ofInit f.result).rename r) s) := by
  cases hresult : f.result with
  | none =>
      refine ⟨by simp, by simp [Expr.calls], fun hresults ↦ ?_⟩
      have hsome := hresults f hmem
      rw [hresult] at hsome
      cases hsome
  | some e =>
      refine yields_expr hhandle ?_
      rw [Expr.ofInit, Expr.complete_rename]
      exact Func.complete_result hf hresult

theorem yields_copy (hhandle : Accounts g handle) {f : Func} (hmem : f ∈ g.funcs)
    (hf : f.complete = true) {args : List Expr} (hargs : ∀ a ∈ args, a.Residual g) (s : State) :
    Yields Diagnostic.Grounded
      (fun out ↦ (∀ t ∈ out.1, Stmt.Residual g t) ∧ Expr.Residual g out.2.1)
      (copy g handle f args s) := by
  unfold copy
  dsimp only
  refine (yields_renamedStmts hhandle _
    (Stmt.complete_flatten (Func.complete_stmts hf)) _).bind fun out₁ hout₁ ↦ ?_
  refine (yields_result hhandle hmem hf _ _).bind fun out₂ hout₂ ↦ ?_
  refine ⟨List.forall_mem_append.mpr ⟨List.forall_mem_append.mpr ⟨fun t ht ↦ ?_, hout₁⟩,
    hout₂.1⟩, hout₂.2⟩
  obtain ⟨⟨p, name, arg⟩, hpna, rfl⟩ := List.mem_map.mp ht
  exact Stmt.residual_decl (hargs arg (List.of_mem_zip (List.of_mem_zip hpna).2).2) _ _ _

theorem accounts_handler (hg : ∀ f ∈ g.funcs, f.complete = true) (limit : Int) (room : Nat)
    (chain : List String) : Accounts g (handler g limit room chain) := by
  induction room generalizing chain with
  | zero =>
      intro f call args s hmem hcall hargs
      unfold handler
      split
      · exact Diagnostic.grounded_about (n := .expr call) hcall
      · exact Diagnostic.grounded_about (n := .expr call) hcall
  | succ room ih =>
      intro f call args s hmem hcall hargs
      unfold handler
      split
      · exact Diagnostic.grounded_about (n := .expr call) hcall
      · exact yields_copy (ih (chain ++ [f.name])) hmem (hg f hmem) hargs s

end Inlining

namespace Elaborated

/-- Elaboration of a complete program either reports something that has a message, or blames a
function that no call has led to. It gives a complete program if all functions have results. -/
theorem yields_ofProgram (l : Limits) {p : Program} (hp : p.complete = true) :
    Yields Diagnostic.Accounted
      (fun e ↦ (∀ f ∈ p.funcs, f.result.isSome = true) → e.program.complete = true)
      (ofProgram l p) := by
  have hfuncs : ∀ f ∈ p.funcs, f.complete = true := fun f hf ↦ Program.complete_func hp hf
  have hstmts := Program.complete_stmts hp
  have hgrounded {α : Type} {P : α → Prop} {r : Except Diagnostic α}
      (h : Yields Diagnostic.Grounded P r) : Yields Diagnostic.Accounted P r :=
    h.imp (fun _ ↦ Or.inl) fun _ ↦ id
  refine (CallGraph.yields_checkDepth (g := .ofProgram p) hfuncs l.depth).bind fun _ _ ↦ ?_
  refine (hgrounded (CallGraph.yields_checkSize (.ofProgram p) hstmts l.calls)).bind fun _ _ ↦ ?_
  have hhandle := Inlining.accounts_handler (g := .ofProgram p) hfuncs l.depth l.depth.toNat []
  refine (hgrounded (Inlining.yields_stmts hhandle hstmts)).bind fun out hout ↦ ?_
  dsimp only
  rw [Inlining.checkCallFree_eq_ok fun t ht ↦ (hout t ht).callFree]
  intro hresults
  simp only [Program.complete, Bool.and_eq_true, List.all_eq_true]
  exact ⟨fun _ hf ↦ (by cases hf), fun t ht ↦ (hout t ht).complete hresults⟩

end Elaborated

end Stratify
