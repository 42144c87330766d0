import Stratify.Proofs.Calls.Reordering
import Stratify.Proofs.Syntax.Blocks
import Stratify.Proofs.Typing.Keys

/-!
# Blocks and inlining

A function whose blocks are opened has the same calls and mentions the same variables, each in the
same order, and a copy of it has the same statements. So opening the functions of a program, and the
blocks of its statements, changes nothing in what elaboration does, be it an error that it reports.
-/

namespace Stratify

/-! ### Calls and variables -/

namespace Stmt

mutual

theorem callsAll_opened : ∀ s : Stmt, callsAll s.opened = s.calls
  | hole => by simp [opened, callsAll, calls]
  | decl .. => by simp [opened, callsAll, calls]
  | assign .. => by simp [opened, callsAll, calls]
  | sample .. => by simp [opened, callsAll, calls]
  | block list => callsAll_openedAll list
  | func _ _ none _ => by simp [opened, callsAll, calls]
  | func _ _ (some body) _ => by simp [opened, callsAll, calls, callsAll_openedAll body]

theorem callsAll_openedAll : ∀ ss : List Stmt, callsAll (openedAll ss) = callsAll ss
  | [] => rfl
  | s :: ss => by
      rw [openedAll, callsAll_append, callsAll_opened s, callsAll_openedAll ss, callsAll]

end

theorem mentions_func (name : String) (params : List Param) (body : List Stmt)
    (result : Option Expr) : (func name params (some body) result).mentions =
      body.flatMap mentions ++
        (visitedInit (fun _ ↦ true) result).filterMap Node.mentioned? := by
  rw [← mentions_block]
  simp only [mentions, visited, Node.withChildren, if_true, List.filterMap_cons,
    Node.mentioned?_func, List.filterMap_append]

mutual

theorem flatMap_mentions_opened : ∀ s : Stmt, s.opened.flatMap mentions = s.mentions
  | hole => List.flatMap_singleton ..
  | decl .. => List.flatMap_singleton ..
  | assign .. => List.flatMap_singleton ..
  | sample .. => List.flatMap_singleton ..
  | block list => (flatMap_mentions_openedAll list).trans (mentions_block list).symm
  | func _ _ none _ => List.flatMap_singleton ..
  | func name params (some body) result => by
      rw [opened, List.flatMap_singleton, mentions_func, mentions_func,
        flatMap_mentions_openedAll body]

theorem flatMap_mentions_openedAll :
    ∀ ss : List Stmt, (openedAll ss).flatMap mentions = ss.flatMap mentions
  | [] => rfl
  | s :: ss => by
      rw [openedAll, List.flatMap_append, flatMap_mentions_opened s,
        flatMap_mentions_openedAll ss, List.flatMap_cons]

end

end Stmt

namespace Func

theorem calls_opened (f : Func) : f.opened.calls = f.calls := by
  have hcalls := Stmt.callsAll_opened f.toStmt
  rwa [opened_toStmt, Stmt.callsAll, Stmt.callsAll, List.append_nil] at hcalls

theorem mentions_opened (f : Func) : f.opened.toStmt.mentions = f.toStmt.mentions := by
  have hmentions := Stmt.flatMap_mentions_opened f.toStmt
  rwa [opened_toStmt, List.flatMap_singleton] at hmentions

end Func

theorem Program.mentions_opened (p : Program) : p.opened.mentions = p.mentions := by
  simp only [mentions, opened, List.flatMap_map, Func.paramNames_opened, Func.mentions_opened,
    Stmt.flatMap_mentions_openedAll]

/-! ### The call graph -/

namespace CallGraph

theorem func?_opened (p : Program) (fn : String) :
    (ofProgram p.opened).func? fn = ((ofProgram p).func? fn).map Func.opened := by
  simp only [func?, Func.named?, ofProgram, Program.opened, ← List.map_reverse, List.find?_map,
    Function.comp_def, Func.name_opened]

theorem sameCalls_opened (p : Program) : SameCalls (ofProgram p) (ofProgram p.opened) := by
  have hisUser (fn : String) : (ofProgram p.opened).isUser fn = (ofProgram p).isUser fn := by
    rw [isUser, isUser, func?_opened, Option.isSome_map]
  refine ⟨?_, hisUser, fun fn ↦ ?_⟩
  · simp only [names, ofProgram, Program.opened, List.map_map, Function.comp_def, Func.name_opened]
  · simp only [userCalls, func?_opened, hisUser]
    cases (ofProgram p).func? fn with
    | none => rfl
    | some f => simp only [Option.map_some, Func.calls_opened]

end CallGraph

/-! ### Copies -/

namespace Inlining

/-- Two graphs have the same functions, and two handlers treat these in the same way, except that
the second ones are given with their blocks opened. -/
structure OpensIn (g : CallGraph) (handle : CallHandler) (g' : CallGraph) (handle' : CallHandler) :
    Prop where
  func? : ∀ fn, g'.func? fn = (g.func? fn).map Func.opened
  handle : ∀ f, handle' f.opened = handle f

variable {g g' : CallGraph} {handle handle' : CallHandler}

mutual

theorem expr_opened (h : OpensIn g handle g' handle') :
    ∀ (e : Expr) (s : State), expr g' handle' e s = expr g handle e s
  | .hole, _ => rfl
  | .lit .., _ => rfl
  | .var _, _ => rfl
  | .unary _ x, _ => by simp only [expr, expr_opened h x]
  | .binary _ x y, _ => by simp only [expr, expr_opened h x, expr_opened h y]
  | .index x indices, _ => by simp only [expr, expr_opened h x, exprs_opened h indices]
  | .call fn args, _ => by
      simp only [expr, exprs_opened h args, h.func?]
      cases g.func? fn with
      | none => rfl
      | some f => simp only [Option.map_some, h.handle]

theorem exprs_opened (h : OpensIn g handle g' handle') :
    ∀ (es : List Expr) (s : State), exprs g' handle' es s = exprs g handle es s
  | [], _ => rfl
  | e :: es, _ => by simp only [exprs, expr_opened h e, exprs_opened h es]

end

mutual

theorem stmt_opened (h : OpensIn g handle g' handle') :
    ∀ (t : Stmt) (s : State), stmt g' handle' t s = stmt g handle t s
  | .hole, _ => rfl
  | .decl .., _ => by simp only [stmt, expr_opened h]
  | .assign .., _ => by simp only [stmt, expr_opened h]
  | .sample .., _ => by simp only [stmt, exprs_opened h]
  | .block list, s => stmts_opened h list s
  | .func .., _ => rfl

theorem stmts_opened (h : OpensIn g handle g' handle') :
    ∀ (ts : List Stmt) (s : State), stmts g' handle' ts s = stmts g handle ts s
  | [], _ => rfl
  | t :: ts, _ => by simp only [stmts, stmt_opened h t, stmts_opened h ts]

end

theorem renamedStmts_opened (h : OpensIn g handle g' handle') (r : String → String)
    (ts : List Stmt) (s : State) :
    renamedStmts g' handle' r (ts.map Stmt.withOpenBody) s = renamedStmts g handle r ts s := by
  induction ts generalizing s with
  | nil => rfl
  | cons t ts ih =>
      simp only [List.map_cons, renamedStmts, Stmt.rename_withOpenBody, stmt_opened h, ih]

theorem copy_opened (h : OpensIn g handle g' handle') (f : Func) :
    copy g' handle' f.opened = copy g handle f := by
  have hbody : Stmt.flatten f.opened.stmts = (Stmt.flatten f.stmts).map Stmt.withOpenBody := by
    rw [Func.stmts_opened, Stmt.flatten_openedAll]
  have hnames : ((Stmt.flatten f.stmts).map Stmt.withOpenBody).filterMap Stmt.declName? =
      (Stmt.flatten f.stmts).filterMap Stmt.declName? := by
    simp only [List.filterMap_map, Function.comp_def, Stmt.declName?_withOpenBody]
  funext args s
  simp only [copy, hbody, hnames, renamedStmts_opened h, expr_opened h, Func.name_opened,
    Func.params_opened, Func.paramNames_opened, Func.result_opened]

theorem opensIn_handler (p : Program) (limit : Int) (room : Nat) (chain : List String) :
    OpensIn (.ofProgram p) (handler (.ofProgram p) limit room chain)
      (.ofProgram p.opened) (handler (.ofProgram p.opened) limit room chain) := by
  refine ⟨CallGraph.func?_opened p, fun f ↦ ?_⟩
  induction room generalizing chain f with
  | zero =>
      funext call args s
      rfl
  | succ room ih =>
      funext call args s
      have hopens : OpensIn (.ofProgram p) (handler (.ofProgram p) limit room (chain ++ [f.name]))
          (.ofProgram p.opened) (handler (.ofProgram p.opened) limit room (chain ++ [f.name])) :=
        ⟨CallGraph.func?_opened p, ih (chain ++ [f.name])⟩
      simp only [handler, Func.name_opened, Func.params_opened, copy_opened hopens f]

theorem checkCallFree_opened (p : Program) (ts : List Stmt) :
    checkCallFree (.ofProgram p.opened) ts = checkCallFree (.ofProgram p) ts := by
  induction ts with
  | nil => rfl
  | cons t ts ih => simp only [checkCallFree, (CallGraph.sameCalls_opened p).isUser, ih]

end Inlining

namespace Elaborated

/-- Blocks make no difference to elaboration, if they contain no function definitions. -/
theorem ofProgram_opened (l : Limits) {p : Program}
    (hstmts : Stmt.openedAll p.stmts = Stmt.flatten p.stmts) :
    ofProgram l p.opened = ofProgram l p := by
  have hgraph := CallGraph.sameCalls_opened p
  have hopens := Inlining.opensIn_handler p l.depth l.depth.toNat []
  have hsize : (CallGraph.ofProgram p).checkSize p.opened.stmts l.calls =
      (CallGraph.ofProgram p).checkSize p.stmts l.calls := by
    rw [CallGraph.checkSize, CallGraph.checkSize, Program.opened, Stmt.callsAll_openedAll]
  have hstart : Inlining.start l.sep p.opened = Inlining.start l.sep p := by
    rw [Inlining.start, Inlining.start, Program.mentions_opened]
  have hinlined (s : Inlining.State) :
      Inlining.stmts (.ofProgram p.opened) (Inlining.handler (.ofProgram p.opened) l.depth
        l.depth.toNat []) p.opened.stmts s =
      Inlining.stmts (.ofProgram p) (Inlining.handler (.ofProgram p) l.depth l.depth.toNat [])
        p.stmts s := by
    rw [Inlining.stmts_opened hopens, Program.opened, hstmts, ← Inlining.stmts_flatten]
  simp only [ofProgram, hgraph.checkDepth, hgraph.checkSize, hsize, hstart, hinlined,
    Inlining.checkCallFree_opened]

end Elaborated

end Stratify
