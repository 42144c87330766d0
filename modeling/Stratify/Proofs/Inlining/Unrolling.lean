import Stratify.Proofs.Calls.Size
import Stratify.Proofs.Diagnostic.Message
import Stratify.Proofs.Inlining.Meaning

/-!
# The order in which calls are unrolled

Inlining copies the functions of the call tree in the order in which the calls are evaluated: a
function is copied before those that its body calls, and after those that its arguments call. Copies
are counted, and each of them records its parameters and then its locals, under names whose numbers
only grow. This holds of every program that can be elaborated, also if variables are not in scope or
functions are defined twice.
-/

namespace Stratify

/-! ### The call tree as a list -/

namespace CallGraph

variable {g : CallGraph}

/-- The functions that are copied to unroll calls to some names: a call to a user function stands
for that function, followed by those that the calls of its body stand for. -/
inductive Unrolling (g : CallGraph) : List String → List Func → Prop
  | nil : Unrolling g [] []
  | prim {fn fns fs} : g.func? fn = none → Unrolling g fns fs → Unrolling g (fn :: fns) fs
  | user {fn fns f below fs} :
      g.func? fn = some f → Unrolling g (f.calls.map Call.fn) below → Unrolling g fns fs →
      Unrolling g (fn :: fns) (f :: (below ++ fs))

namespace Unrolling

variable {fns fns' : List String} {fs fs' : List Func}

theorem append (h : g.Unrolling fns fs) (h' : g.Unrolling fns' fs') :
    g.Unrolling (fns ++ fns') (fs ++ fs') := by
  induction h with
  | nil => exact h'
  | prim hfn _ ih => exact .prim hfn ih
  | user hfn hbelow _ _ ih =>
      rw [List.cons_append, List.cons_append, List.append_assoc]
      exact .user hfn hbelow ih

theorem unique (h : g.Unrolling fns fs) (h' : g.Unrolling fns fs') : fs = fs' := by
  induction h generalizing fs' with
  | nil =>
      cases h'
      rfl
  | prim hnone _ ih =>
      cases h' with
      | prim _ hrest => exact ih hrest
      | user hsome => cases hnone.symm.trans hsome
  | user hsome _ _ ihBelow ih =>
      cases h' with
      | prim hnone => cases hnone.symm.trans hsome
      | user hsome' hbelow hrest =>
          cases Option.some.inj (hsome.symm.trans hsome')
          rw [ihBelow hbelow, ih hrest]

/-- The copies are as many as the analysis of the call graph counts. -/
theorem copies (h : g.Unrolling fns fs) {cs : List Call} (hcs : cs.map Call.fn = fns) :
    g.Copies cs fs.length := by
  induction h generalizing cs with
  | nil =>
      rw [List.map_eq_nil_iff.mp hcs]
      exact .nil
  | prim hfn _ ih =>
      obtain ⟨c, rest, rfl, rfl, hrest⟩ := List.map_eq_cons_iff.mp hcs
      exact .prim hfn (ih hrest)
  | @user _ _ f below fs hfn _ _ ihBelow ih =>
      obtain ⟨c, rest, rfl, rfl, hrest⟩ := List.map_eq_cons_iff.mp hcs
      have hlength : (f :: (below ++ fs)).length = below.length + 1 + fs.length := by
        rw [List.length_cons, List.length_append, Nat.add_right_comm]
      rw [hlength]
      exact .user hfn (ihBelow rfl) (ih hrest)

end Unrolling

end CallGraph

namespace Expr

theorem calls_ofInit (init : Option Expr) : (ofInit init).calls = Stmt.initCalls init := by
  cases init <;> rfl

end Expr

/-! ### What copies record -/

namespace Origin

/-- The origins of the variables of some copies, which are counted from a number on. -/
def ofCopies (call : Nat) (fs : List Func) : List Origin :=
  (fs.zipIdx call).flatMap fun fk ↦ fk.1.scope.map fun x ↦ ⟨fk.1.name, x, fk.2⟩

theorem ofCopies_cons (call : Nat) (f : Func) (fs : List Func) :
    ofCopies call (f :: fs) =
      (f.scope.map fun x ↦ ⟨f.name, x, call⟩) ++ ofCopies (call + 1) fs := by
  rw [ofCopies, List.zipIdx_cons, List.flatMap_cons]
  rfl

theorem ofCopies_append (call : Nat) (fs fs' : List Func) :
    ofCopies call (fs ++ fs') = ofCopies call fs ++ ofCopies (call + fs.length) fs' := by
  rw [ofCopies, List.zipIdx_append, List.flatMap_append]
  rfl

/-- The fresh variable that has an origin, if a number is drawn for it. -/
def named (sep : String) (o : Origin) (n : Nat) : String × Origin :=
  (o.name ++ sep ++ toString n, o)

end Origin

namespace Inlining

/-- Between two states, variables with some origins have been named. Their numbers are drawn one
after the other. -/
structure State.Records (s : State) (os : List Origin) (s' : State) : Prop where
  sep : s'.names.sep = s.names.sep
  next_le : s.names.next ≤ s'.names.next
  origins : ∃ ns : List Nat, ns.length = os.length ∧ ns.Pairwise (· < ·) ∧
    (∀ n ∈ ns, s.names.next ≤ n ∧ n < s'.names.next) ∧
    s'.origins = s.origins ++ List.zipWith (Origin.named s.names.sep) os ns

theorem State.Records.refl (s : State) : s.Records [] s :=
  ⟨rfl, le_rfl, [], rfl, .nil, by simp, by simp⟩

theorem State.Records.trans {s₁ s₂ s₃ : State} {os os' : List Origin} (h : s₁.Records os s₂)
    (h' : s₂.Records os' s₃) : s₁.Records (os ++ os') s₃ := by
  obtain ⟨ns, hlen, hincr, hrange, horigins⟩ := h.origins
  obtain ⟨ns', hlen', hincr', hrange', horigins'⟩ := h'.origins
  refine ⟨h'.sep.trans h.sep, h.next_le.trans h'.next_le, ns ++ ns', ?_, ?_, ?_, ?_⟩
  · rw [List.length_append, List.length_append, hlen, hlen']
  · refine List.pairwise_append.mpr ⟨hincr, hincr', fun n hn n' hn' ↦ ?_⟩
    exact (hrange n hn).2.trans_le (hrange' n' hn').1
  · refine List.forall_mem_append.mpr ⟨fun n hn ↦ ?_, fun n hn ↦ ?_⟩
    · exact ⟨(hrange n hn).1, (hrange n hn).2.trans_le h'.next_le⟩
    · exact ⟨h.next_le.trans (hrange' n hn).1, (hrange' n hn).2⟩
  · rw [horigins', horigins, h.sep, List.zipWith_append hlen.symm, List.append_assoc]

theorem records_alloc (fn : String) (call : Nat) (name : String) (s : State) :
    s.Records [⟨fn, name, call⟩] (alloc fn call name s).2 := by
  have hle : s.names.next ≤ s.names.number name := s.names.le_search name _ _
  refine ⟨rfl, hle.trans (Nat.le_succ _), [s.names.number name], rfl, List.pairwise_singleton ..,
    ?_, rfl⟩
  rw [List.forall_mem_singleton]
  exact ⟨hle, Nat.lt_succ_self _⟩

theorem records_allocAll (fn : String) (call : Nat) (xs : List String) (r : Renaming) (s : State) :
    s.Records (xs.map fun x ↦ ⟨fn, x, call⟩) (allocAll fn call xs r s).2.2 := by
  induction xs generalizing r s with
  | nil => exact .refl s
  | cons x xs ih => exact (records_alloc fn call x s).trans (ih _ _)

/-! ### One copy after the other -/

/-- Between two states, the calls to some names have been unrolled. -/
def Unrolled (g : CallGraph) (fns : List String) (s s' : State) : Prop :=
  ∃ fs, g.Unrolling fns fs ∧ s'.calls = s.calls + fs.length ∧
    s.Records (Origin.ofCopies (s.calls + 1) fs) s'

/-- Between two states, one function has been copied and the calls of its body unrolled. -/
def Copied (g : CallGraph) (f : Func) (s s' : State) : Prop :=
  ∃ below, g.Unrolling (f.calls.map Call.fn) below ∧ s'.calls = s.calls + 1 + below.length ∧
    s.Records (Origin.ofCopies (s.calls + 1) (f :: below)) s'

variable {g : CallGraph}

theorem Unrolled.nil (s : State) : Unrolled g [] s s :=
  ⟨[], .nil, rfl, .refl s⟩

theorem Unrolled.append {fns fns' : List String} {s₁ s₂ s₃ : State} (h : Unrolled g fns s₁ s₂)
    (h' : Unrolled g fns' s₂ s₃) : Unrolled g (fns ++ fns') s₁ s₃ := by
  obtain ⟨fs, hfs, hcalls, hrecords⟩ := h
  obtain ⟨fs', hfs', hcalls', hrecords'⟩ := h'
  refine ⟨fs ++ fs', hfs.append hfs', ?_, ?_⟩
  · rw [hcalls', hcalls, List.length_append, Nat.add_assoc]
  · rw [Origin.ofCopies_append, Nat.add_right_comm, ← hcalls]
    exact hrecords.trans hrecords'

theorem Copied.unrolled {f : Func} {fn : String} (hfn : g.func? fn = some f) {s s' : State}
    (h : Copied g f s s') : Unrolled g [fn] s s' := by
  obtain ⟨below, hbelow, hcalls, hrecords⟩ := h
  refine ⟨f :: below, ?_, ?_, hrecords⟩
  · have huser := CallGraph.Unrolling.user hfn hbelow .nil
    rwa [List.append_nil] at huser
  · rw [hcalls, List.length_cons, Nat.add_assoc, Nat.add_comm 1]

/-- A copy first names the variables of its function. -/
theorem copied_of_unrolled {f : Func} {s s₁ s' : State}
    (hscope : s.Records (f.scope.map fun x ↦ ⟨f.name, x, s.calls + 1⟩) s₁)
    (hcalls : s₁.calls = s.calls + 1) (h : Unrolled g (f.calls.map Call.fn) s₁ s') :
    Copied g f s s' := by
  obtain ⟨below, hbelow, hcount, hrecords⟩ := h
  rw [hcalls] at hcount hrecords
  refine ⟨below, hbelow, hcount, ?_⟩
  rw [Origin.ofCopies_cons]
  exact hscope.trans hrecords

/-- A handler copies the function that is called, and then unrolls the calls of its body. -/
def CopiesInOrder (g : CallGraph) (handle : CallHandler) : Prop :=
  ∀ f call args s, Yields (fun _ ↦ True) (fun out ↦ Copied g f s out.2.2) (handle f call args s)

section Walk

variable {handle : CallHandler}

mutual

theorem unrolled_expr (hhandle : CopiesInOrder g handle) :
    ∀ (e : Expr) (s : State), Yields (fun _ ↦ True)
      (fun out ↦ Unrolled g (e.calls.map Call.fn) s out.2.2) (expr g handle e s)
  | .hole, s => .nil s
  | .lit .., s => .nil s
  | .var _, s => .nil s
  | .unary _ x, s => (unrolled_expr hhandle x s).bind fun _ hx ↦ hx
  | .binary _ x y, s => by
      refine (unrolled_expr hhandle x s).bind fun out hx ↦ ?_
      refine (unrolled_expr hhandle y out.2.2).bind fun _ hy ↦ ?_
      rw [Expr.calls, List.map_append]
      exact hx.append hy
  | .index x is, s => by
      refine (unrolled_expr hhandle x s).bind fun out hx ↦ ?_
      refine (unrolled_exprs hhandle is out.2.2).bind fun _ his ↦ ?_
      rw [Expr.calls, List.map_append]
      exact hx.append his
  | .call fn args, s => by
      rw [Expr.calls, List.map_append]
      refine (unrolled_exprs hhandle args s).bind fun out hargs ↦ ?_
      dsimp only
      split
      · next hfn => exact hargs.append ⟨[], .prim hfn .nil, rfl, .refl _⟩
      · next f hfn =>
          refine (hhandle f (.call fn args) out.2.1 out.2.2).bind fun _ hcopied ↦ ?_
          exact hargs.append (hcopied.unrolled hfn)

theorem unrolled_exprs (hhandle : CopiesInOrder g handle) :
    ∀ (es : List Expr) (s : State), Yields (fun _ ↦ True)
      (fun out ↦ Unrolled g ((Expr.callsAll es).map Call.fn) s out.2.2) (exprs g handle es s)
  | [], s => .nil s
  | e :: es, s => by
      refine (unrolled_expr hhandle e s).bind fun out he ↦ ?_
      refine (unrolled_exprs hhandle es out.2.2).bind fun _ hes ↦ ?_
      rw [Expr.callsAll, List.map_append]
      exact he.append hes

end

mutual

theorem unrolled_stmt (hhandle : CopiesInOrder g handle) :
    ∀ (t : Stmt) (s : State), Yields (fun _ ↦ True)
      (fun out ↦ Unrolled g (t.calls.map Call.fn) s out.2) (stmt g handle t s)
  | .hole, _ => trivial
  | .decl _ _ _ init, s => by
      rw [Stmt.calls, ← Expr.calls_ofInit]
      exact (unrolled_expr hhandle (.ofInit init) s).bind fun _ he ↦ he
  | .assign _ value, s => (unrolled_expr hhandle value s).bind fun _ he ↦ he
  | .sample _ _ args, s => (unrolled_exprs hhandle args s).bind fun _ hargs ↦ hargs
  | .block list, s => unrolled_stmts hhandle list s
  | .func .., _ => trivial

theorem unrolled_stmts (hhandle : CopiesInOrder g handle) :
    ∀ (ts : List Stmt) (s : State), Yields (fun _ ↦ True)
      (fun out ↦ Unrolled g ((Stmt.callsAll ts).map Call.fn) s out.2) (stmts g handle ts s)
  | [], s => .nil s
  | t :: ts, s => by
      refine (unrolled_stmt hhandle t s).bind fun out ht ↦ ?_
      refine (unrolled_stmts hhandle ts out.2).bind fun _ hts ↦ ?_
      rw [Stmt.callsAll, List.map_append]
      exact ht.append hts

end

theorem unrolled_renamedStmts (hhandle : CopiesInOrder g handle) (r : String → String)
    (ts : List Stmt) (s : State) : Yields (fun _ ↦ True)
      (fun out ↦ Unrolled g ((Stmt.callsAll ts).map Call.fn) s out.2)
      (renamedStmts g handle r ts s) := by
  induction ts generalizing s with
  | nil => exact .nil s
  | cons t ts ih =>
      unfold renamedStmts
      split
      · trivial
      · next t' ht' =>
          have hcalls := (Stmt.spans_calls r).of_renamesTo ht'
          refine (unrolled_stmt hhandle t' s).bind fun out ht ↦ ?_
          refine (ih out.2).bind fun _ hts ↦ ?_
          rw [hcalls] at ht
          rw [Stmt.callsAll, List.map_append]
          exact ht.append hts

theorem copied_copy (hhandle : CopiesInOrder g handle) (f : Func) (args : List Expr) (s : State) :
    Yields (fun _ ↦ True) (fun out ↦ Copied g f s out.2.2) (copy g handle f args s) := by
  unfold copy
  dsimp only
  -- The state after the parameters are named, and then the one after the locals are.
  generalize hparams : allocAll f.name (s.calls + 1) f.paramNames []
    { s with calls := s.calls + 1 } = params
  generalize hlocals : allocAll f.name (s.calls + 1)
    ((Stmt.flatten f.stmts).filterMap Stmt.declName?) params.2.1 params.2.2 = locals
  have hcalls : locals.2.2.calls = s.calls + 1 := by
    rw [← hlocals, (allocAll_allocates ..).1.calls, ← hparams, (allocAll_allocates ..).1.calls]
  have hscope : s.Records (f.scope.map fun x ↦ ⟨f.name, x, s.calls + 1⟩) locals.2.2 := by
    obtain ⟨hsep, hnext, horigins⟩ := hparams ▸ records_allocAll f.name (s.calls + 1) f.paramNames
      [] { s with calls := s.calls + 1 }
    rw [List.map_append, ← hlocals]
    exact State.Records.trans ⟨hsep, hnext, horigins⟩ (records_allocAll ..)
  refine (unrolled_renamedStmts hhandle _ _ _).bind fun out hbody ↦ ?_
  refine (unrolled_expr hhandle _ _).bind fun _ hresult ↦ ?_
  refine copied_of_unrolled hscope hcalls ?_
  rw [Stmt.callsAll_flatten] at hbody
  rw [Expr.calls_rename, Expr.calls_ofInit] at hresult
  rw [Func.calls_eq, List.map_append]
  exact hbody.append hresult

theorem copiesInOrder_handler (g : CallGraph) (limit : Int) (room : Nat) (chain : List String) :
    CopiesInOrder g (handler g limit room chain) := by
  induction room generalizing chain with
  | zero =>
      intro f call args s
      unfold handler
      split <;> trivial
  | succ room ih =>
      intro f call args s
      unfold handler
      split
      · trivial
      · exact copied_copy (ih (chain ++ [f.name])) f args s

end Walk

end Inlining

namespace Elaborated

/-- Elaboration has copied some functions in this order. The variables of the `k`-th copy, its
parameters first, are recorded with its function and `k`, under names whose numbers only grow. -/
structure RecordsCopies (sep : String) (fs : List Func) (e : Elaborated) : Prop where
  calls : e.calls = fs.length
  origins : ∃ ns : List Nat, ns.Pairwise (· < ·) ∧ ns.length = (Origin.ofCopies 1 fs).length ∧
    e.origins = List.zipWith (Origin.named (NameSupply.new sep).sep) (Origin.ofCopies 1 fs) ns

theorem recordsCopies_of_unrolled {p : Program} {sep : String} {fs : List Func}
    {s : Inlining.State} (hcalls : s.calls = (Inlining.start sep p).calls + fs.length)
    (h : (Inlining.start sep p).Records (Origin.ofCopies 1 fs) s) (out : List Stmt) :
    RecordsCopies sep fs ⟨out, s.origins, s.calls⟩ := by
  obtain ⟨ns, hlen, hincr, -, horigins⟩ := h.origins
  rw [Inlining.start, NameSupply.sep_reserveAll] at horigins
  exact ⟨hcalls.trans (Nat.zero_add _), ns, hincr, hlen, horigins⟩

theorem unrolled_ofProgram (l : Limits) (p : Program) :
    Yields (fun _ ↦ True)
      (fun e ↦ ∃ fs, (CallGraph.ofProgram p).Unrolling ((Stmt.callsAll p.stmts).map Call.fn) fs ∧
        e.RecordsCopies l.sep fs)
      (ofProgram l p) := by
  have hany {α : Type} (r : Except Diagnostic α) : Yields (fun _ ↦ True) (fun _ ↦ True) r := by
    cases r <;> trivial
  have hhandle := Inlining.copiesInOrder_handler (.ofProgram p) l.depth l.depth.toNat []
  refine (hany _).bind fun _ _ ↦ (hany _).bind fun _ _ ↦ ?_
  refine (Inlining.unrolled_stmts hhandle p.stmts _).bind fun out hout ↦ (hany _).bind fun _ _ ↦ ?_
  obtain ⟨fs, hfs, hcalls, hrecords⟩ := hout
  exact ⟨fs, hfs, recordsCopies_of_unrolled hcalls hrecords out.1⟩

/-- Elaboration copies the functions of the call tree of the statements, in the order in which calls
are evaluated. They are as many as the analysis of the call graph counts. -/
theorem recordsCopies_of_ofProgram_eq_ok (l : Limits) (p : Program) {e : Elaborated}
    (he : ofProgram l p = .ok e) :
    ∃ fs, (∀ fs', (CallGraph.ofProgram p).Unrolling ((Stmt.callsAll p.stmts).map Call.fn) fs' ↔
        fs' = fs) ∧
      e.RecordsCopies l.sep fs ∧
      (CallGraph.ofProgram p).Copies (Stmt.callsAll p.stmts) e.calls := by
  obtain ⟨fs, hfs, hrecords⟩ := (unrolled_ofProgram l p).of_eq_ok he
  refine ⟨fs, fun fs' ↦ ⟨fun h ↦ h.unique hfs, fun h ↦ h ▸ hfs⟩, hrecords, ?_⟩
  rw [hrecords.calls]
  exact hfs.copies rfl

/-- A function that calls another one in its body and in its result. -/
theorem recordsCopies_shrinkage : ∃ e fs,
    ofProgram ⟨64, 100000, "_"⟩ Program.shrinkage = .ok e ∧
      fs.map Func.name = ["twice", "shifted", "shifted"] ∧ e.RecordsCopies "_" fs := by
  obtain ⟨-, e, -, he⟩ := exists_ofProgram_shrinkage
  obtain ⟨fs, hfs, hrecords, -⟩ := recordsCopies_of_ofProgram_eq_ok _ _ he
  have hunrolling : (CallGraph.ofProgram Program.shrinkage).Unrolling ["twice", "normal_rng"] _ :=
    .user rfl (.user rfl .nil (.prim rfl (.user rfl .nil .nil))) (.prim rfl .nil)
  refine ⟨e, fs, he, ?_, hrecords⟩
  rw [← (hfs _).mp hunrolling]
  rfl

end Elaborated

end Stratify
